import LineBasic.Proofs.Memory.Bounds
import LineBasic.Proofs.Memory.Merge

namespace LineBasic

/-- Where two texts agree to the end of a line, the same is left of it. -/
theorem Cursor.like_of_agree {text text' : Array UInt8} {pos : Nat}
    (h : Memory.Agree text text' pos (endOfLine text pos + 1)) : Like ⟨text, pos⟩ ⟨text', pos⟩ := by
  refine Agrees.like ⟨rfl, fun i hlo hhi => ?_⟩
  rw [Array.getD_eq_getD_getElem?, Array.getD_eq_getD_getElem?, h i hlo (Nat.lt_succ_of_le hhi)]

namespace Memory

section
variable {ram ram' : Array UInt8} {first last start : Nat}

/-- Bytes written alike into two buffers leave them as alike as they were. -/
theorem Agree.overwrite (h : Agree ram ram' first last) (hs : ram'.size = ram.size)
    (bytes : List UInt8) :
    Agree (Memory.overwrite ram start bytes) (Memory.overwrite ram' start bytes) first last := by
  induction bytes generalizing ram ram' start with
  | nil => exact h
  | cons b rest ih =>
    refine ih (fun i hi hl => ?_) (by simp only [Array.size_setIfInBounds, hs])
    simp only [Array.getElem?_setIfInBounds, hs, h i hi hl]

theorem agree_overwritten (bytes : List UInt8) (h : start + bytes.length ≤ ram.size)
    (hs : ram'.size = ram.size) :
    Agree (Memory.overwrite ram start bytes) (Memory.overwrite ram' start bytes) start
      (start + bytes.length) := by
  intro i hi hl
  rw [getElem?_overwrite _ _ _ _ h, getElem?_overwrite _ _ _ _ (hs ▸ h)]
  simp only [hi, hl, and_self, if_true]

theorem Agree.append {mid : Nat} (h : Agree ram ram' first mid) (h' : Agree ram ram' mid last) :
    Agree ram ram' first last := by
  intro i hi hl
  by_cases hm : i < mid
  · exact h i hi hm
  · exact h' i (by omega) hl

theorem Agree.extract_eq (h : Agree ram ram' first last) (hl : last ≤ ram.size)
    (hs : ram'.size = ram.size) :
    ram'.extract first last = ram.extract first last := by
  apply Array.ext_getElem? fun i => ?_
  simp only [Array.getElem?_extract, hs, Nat.min_eq_left hl]
  split
  · exact h _ (Nat.le_add_right _ _) (by omega)
  · rfl

end

/-- The two buffers are laid out alike and agree on all bytes that are still of use: the program,
the direct lines from `floor` on, the variables and the stack. -/
structure Twin (floor : Nat) (m m' : Memory) : Prop extends SameRegions m m' where
  stackTop_eq : m'.stackTop = m.stackTop
  program : Agree m.ram m'.ram 0 m.programEnd
  line : Agree m.ram m'.ram floor m.stackLimit
  stack : Agree m.ram m'.ram m.stackTop m.size
  floor_le : floor ≤ m.variablesBegin

namespace Twin
variable {m m' : Memory} {floor : Nat} {l : Listing} {frames : List Frame}

theorem refl (hf : floor ≤ m.variablesBegin) : m.Twin floor m :=
  ⟨⟨rfl, rfl, rfl, rfl⟩, rfl, fun _ _ _ => rfl, fun _ _ _ => rfl, fun _ _ _ => rfl, hf⟩

theorem sound (h : m.Twin floor m') (hs : m.Sound l frames) : m'.Sound l frames :=
  hs.congr h.toSameRegions h.stackTop_eq h.program h.stack

theorem layout (h : m.Twin floor m') (hm : m.Layout) : m'.Layout :=
  hm.congr h.toSameRegions (h.stackTop_eq ▸ hm.limit_le) (h.stackTop_eq ▸ hm.top_le)

theorem frames_eq (h : m.Twin floor m') (hs : m.Sound l frames) : m'.frames = m.frames := by
  rw [(h.sound hs).stack.frames_eq, hs.stack.frames_eq, h.stackTop_eq]

theorem entryStart_eq (h : m.Twin floor m') : m'.entryStart = m.entryStart :=
  congrArg (· + entryHeadroom) h.programEnd_eq

/-- More of a direct line is of use where the buffers agree on it. -/
theorem lower (h : m.Twin floor m') {start : Nat} (ha : Agree m.ram m'.ram start m.variablesBegin) :
    m.Twin (min floor start) m' := by
  have hle := h.floor_le
  refine { h with line := fun i hi hl => ?_, floor_le := by omega }
  by_cases hf : floor ≤ i
  · exact h.line i hf hl
  · exact ha i (by omega) (by omega)

theorem overwrite (h : m.Twin floor m') (start : Nat) (bytes : List UInt8) :
    Twin floor { m with ram := Memory.overwrite m.ram start bytes }
      { m' with ram := Memory.overwrite m'.ram start bytes } where
  size_eq := (size_overwrite _ _ _).trans (h.size_eq.trans (size_overwrite _ _ _).symm)
  programEnd_eq := h.programEnd_eq
  variablesBegin_eq := h.variablesBegin_eq
  stackLimit_eq := h.stackLimit_eq
  stackTop_eq := h.stackTop_eq
  program := h.program.overwrite h.size_eq bytes
  line := h.line.overwrite h.size_eq bytes
  stack := (h.stack.overwrite h.size_eq bytes).mono (Nat.le_refl _)
    (Nat.le_of_eq (size_overwrite _ _ _))
  floor_le := h.floor_le

theorem unwound (h : m.Twin floor m') {top : Nat} (ht : m.stackTop ≤ top) :
    Twin floor { m with stackTop := top } { m' with stackTop := top } :=
  { h with stackTop_eq := rfl, stack := h.stack.mono ht (Nat.le_refl _) }

theorem unstacked (h : m.Twin floor m') (ht : m.stackTop ≤ m.size) :
    Twin floor { m with stackTop := m.size } { m' with stackTop := m'.size } := by
  rw [h.size_eq]
  exact h.unwound ht

theorem emptied (h : m.Twin floor m') :
    Twin floor { m with programEnd := 0 } { m' with programEnd := 0 } :=
  { h with programEnd_eq := rfl, program := fun i _ hi => absurd hi (Nat.not_lt_zero i) }

theorem stored (h : m.Twin floor m') (v : Variable) (x : Int16) :
    (m.stored v x).Twin floor (m'.stored v x) := by
  have haddress : m'.variablesBegin + 2 * v.index.val = m.variablesBegin + 2 * v.index.val := by
    rw [h.variablesBegin_eq]
  unfold Memory.stored
  rw [haddress]
  exact h.overwrite _ _

theorem pushed (h : m.Twin floor m') (hm : m.Layout) {frame : Frame}
    (hr : ¬ m.stackTop < m.stackLimit + frame.size) :
    (m.pushed frame).Twin floor (m'.pushed frame) := by
  have hlength := frame.length_encode
  have hfits := frame_fits hm.top_le (show frame.size ≤ m.stackTop by omega)
  have hwritten := h.overwrite (m.stackTop - frame.size) frame.encode
  unfold Memory.pushed
  rw [h.stackTop_eq]
  refine { hwritten with stackTop_eq := rfl, stack := ?_ }
  -- The new frame agrees as it was written alike, and the frames above it agreed before.
  refine (agree_overwritten _ hfits h.size_eq).append (hwritten.stack.mono ?_ (Nat.le_refl _))
  show m.stackTop ≤ m.stackTop - frame.size + frame.encode.length
  omega

theorem removed (h : m.Twin floor m') {before after : List Frame} {frame : Frame}
    (hs : m.Sound l (before ++ frame :: after)) :
    (m.removed (m.stackTop + depth before) frame).Twin floor
      (m'.removed (m'.stackTop + depth before) frame) := by
  have hdepth := hs.depth_le
  have hlast : m.stackTop + depth before ≤ m.ram.size := by
    show _ ≤ m.size
    omega
  have hsource : Agree m.ram m'.ram m.stackTop (m.stackTop + depth before) :=
    h.stack.mono (Nat.le_refl _) hlast
  have hwritten := h.overwrite (m.stackTop + frame.size)
    (m.ram.extract m.stackTop (m.stackTop + depth before)).toList
  unfold Memory.removed Memory.moved
  rw [h.stackTop_eq, hsource.extract_eq hlast h.size_eq]
  exact hwritten.unwound (Nat.le_add_right _ _)

theorem value_eq (h : m.Twin floor m') (hm : m.Layout) (v : Variable) : m'.value v = m.value v := by
  have hv := v.index.isLt
  have hadd := hm.variables_add
  have hle := h.floor_le
  unfold Memory.value
  simp only [Array.getD_eq_getD_getElem?, h.variablesBegin_eq]
  rw [h.line (m.variablesBegin + 2 * v.index) (by omega) (by omega),
    h.line (m.variablesBegin + 2 * v.index + 1) (by omega) (by omega)]

section
variable {line : List UInt8}

theorem folded (h : m.Twin floor m') (line : List UInt8) :
    (m.folded line).Twin floor (m'.folded line) := by
  unfold Memory.folded
  rw [h.entryStart_eq]
  exact h.overwrite _ _

theorem taken (h : m.Twin floor m') (hm : m.Layout) (ht : m.Typed line) :
    (m.taken line).Twin (min floor (m.stagingStart line)) (m'.taken line) := by
  have hfolded := h.folded line
  have hadd := ht.stagingStart_add
  have hv := hm.variables_le_size
  have hsize : (m.folded line).ram.size = m.size := size_overwrite _ _ _
  have hlength : (Case.fold line ++ [Byte.marker]).length = line.length + 1 := by
    simp [Case.length_fold]
  have hstart : (m'.folded line).stagingStart (Case.fold line) = (m.folded line).stagingStart
      (Case.fold line) := by
    simp only [stagingStart, hfolded.variablesBegin_eq]
  have hwritten := hfolded.overwrite (m.stagingStart line) (Case.fold line ++ [Byte.marker])
  have hfits : m.stagingStart line + (Case.fold line ++ [Byte.marker]).length ≤
      (m.folded line).ram.size := by omega
  have hstaged := agree_overwritten _ hfits hfolded.size_eq
  rw [show m.stagingStart line + (Case.fold line ++ [Byte.marker]).length =
    m.variablesBegin by omega] at hstaged
  unfold Memory.taken staged
  rw [hstart, stagingStart_folded]
  exact hwritten.lower hstaged

end

/-- Merging alike. Where the program changes all frames go, so that no direct line is of use any
more. -/
theorem merged {after after' : Memory} {l' : Listing} {frames' : List Frame} (h : m.Twin floor m')
    (hm : m.Layout) (hg : Merged m after l l' frames frames')
    (hg' : Merged m' after' l l' frames frames') :
    ∃ floor', (floor' ≤ floor ∨ after.stackTop = after.size) ∧ after.Twin floor' after' := by
  by_cases hnone : frames' = []
  · subst hnone
    have htop : after.stackTop = after.size := hg.sound.stack.top_add
    have htop' : after'.stackTop = after'.size := hg'.sound.stack.top_add
    have hsize : after'.size = after.size := hg'.size_eq.trans (h.size_eq.trans hg.size_eq.symm)
    have hv : after'.variablesBegin = after.variablesBegin :=
      hg'.variablesBegin_eq.trans (h.variablesBegin_eq.trans hg.variablesBegin_eq.symm)
    have hadd := hm.variables_add
    have hlimit := hg.sound.layout.variables_add
    have hlimit' := hg'.sound.layout.variables_add
    have hv₁ := hg.variablesBegin_eq
    have hv₂ := h.variablesBegin_eq
    have hl₂ := h.stackLimit_eq
    have hle := h.floor_le
    obtain ⟨hend, hprogram⟩ := hg.sound.holds.agree hg'.sound.holds
    refine ⟨after.variablesBegin, Or.inr htop, ⟨hsize, hend, hv, by omega⟩, by rw [htop, htop',
      hsize], hprogram,
      fun i hi hl => ?_, fun i hi hl => absurd hi (by omega), Nat.le_refl _⟩
    -- The variables have stayed as they were in both.
    rw [hg'.above i (by omega) (by omega), h.line i (by omega) (by omega),
      hg.above i (by omega) (by omega)]
  · obtain ⟨-, -, rfl⟩ := hg.unstacked.resolve_left hnone
    obtain ⟨-, -, rfl⟩ := hg'.unstacked.resolve_left hnone
    exact ⟨floor, Or.inl (Nat.le_refl _), h⟩

end Twin

/-- Nothing of use is left of what was in a buffer that has been cleared. -/
theorem twin_cleared {m m' : Memory} (hm : m.Layout) (hm' : m'.Layout) (hb : m.SameBounds m') :
    m.cleared.Twin m.cleared.variablesBegin m'.cleared := by
  have hcleared := KeepsBounds.clear m
  have hcleared' := KeepsBounds.clear m'
  rw [clear_eq hm, final_ok] at hcleared
  rw [clear_eq hm', final_ok] at hcleared'
  have hall : m.cleared.SameBounds m'.cleared := hcleared.symm.trans (hb.trans hcleared')
  have hend : m.cleared.programEnd = 0 := by simp only [cleared]
  have hend' : m'.cleared.programEnd = 0 := by simp only [cleared]
  have htop := m.stackTop_cleared
  have hsize := m.size_cleared
  refine ⟨⟨hall.size_eq, hend'.trans hend.symm, hall.variablesBegin_eq, hall.stackLimit_eq⟩, ?_, ?_,
    ?_, ?_, Nat.le_refl _⟩
  · rw [stackTop_cleared, stackTop_cleared, hb.size_eq]
  · rw [hend]
    exact fun i _ hi => absurd hi (Nat.not_lt_zero i)
  · -- All variables are zero in both.
    have hv := hm.variables_le_size
    have hfits : m.variablesBegin + (List.replicate 52 (0 : UInt8)).length ≤ m.ram.size := by
      rw [List.length_replicate]
      exact hv
    have hzero := agree_overwritten _ hfits hb.size_eq
    rw [List.length_replicate, hm.variables_add] at hzero
    rw [hcleared.variablesBegin_eq, hcleared.stackLimit_eq]
    simp only [cleared, hb.variablesBegin_eq]
    exact hzero
  · rw [htop, hsize]
    exact fun i hlo hhi => absurd hlo (by omega)

end Memory
end LineBasic
