import LineBasic.Proofs.Memory.Entry

namespace LineBasic.Memory
variable {m m' : Memory} {l : Listing} {frames : List Frame} {number : UInt16} {text : List UInt8}
  {body : Nat}

/-- What a merge leaves: the program, the variables and the stack, which is emptied unless nothing
has changed. -/
structure Merged (m m' : Memory) (l l' : Listing) (frames frames' : List Frame) : Prop where
  sound : m'.Sound l' frames'
  variablesBegin_eq : m'.variablesBegin = m.variablesBegin
  size_eq : m'.size = m.size
  above : Agree m.ram m'.ram m.variablesBegin m.stackLimit
  unstacked : frames' = [] ∨ frames' = frames ∧ l' = l ∧ m' = m

def Edit.unstack (edit : Edit) (frames : List Frame) : List Frame :=
  if edit.removed || edit.stored.isSome then [] else frames

def editOf (l : Listing) (number : UInt16) (text : List UInt8) : Edit where
  removed := 0 < extent (l.same number)
  stored := if text = [] then none else some (text.length + 4)

theorem insertStaged_merged (h : m.Sound l frames) (hs : Staged m number text body)
    (hfit : l.Fits m.variablesBegin number text) :
    ∃ m', insertStaged number body m = .ok (editOf l number text) m' ∧
      Merged m m' l (l.put number text hs.storable) frames
      ((editOf l number text).unstack frames) := by
  have hfit' := (l.fits_iff hs.storable).1 hfit
  rw [insertStaged_eq h.layout h.holds hs, if_neg (by omega)]
  by_cases hnothing : l.same number = [] ∧ text = []
  · obtain ⟨hnone, rfl⟩ := hnothing
    rw [editOf, hnone]
    refine ⟨m, applyEdit_nothing, ?_⟩
    rw [put_eq_self hs.storable hnone]
    exact ⟨h, rfl, rfl, fun _ _ _ => rfl, Or.inr ⟨rfl, rfl, rfl⟩⟩
  · obtain ⟨m', hrun, he⟩ := applyEdit_edited h.layout h.holds hs hfit' hnothing
    have := h.layout.limit_le
    have := h.layout.top_le
    -- Every other edit clears the stack: the frames may point into lines that moved.
    have hgone : 0 < extent (l.same number) ∨ text ≠ [] := by
      by_cases ht : text = []
      · exact Or.inl (Nat.lt_of_lt_of_le (List.length_pos_iff.2 fun hn => hnothing ⟨hn, ht⟩)
          (length_le_extent _))
      · exact Or.inr ht
    have hnone : (editOf l number text).unstack frames = [] := by
      obtain hgone | ht := hgone
      · simp [editOf, Edit.unstack, hgone]
      · simp [editOf, Edit.unstack, ht]
    refine ⟨m', hrun, ?_⟩
    rw [hnone]
    exact ⟨⟨he.layout, he.holds, stacks_nil he.stackTop_eq⟩, he.variablesBegin_eq, he.size_eq,
      he.above.mono (Nat.le_refl _) (by omega), Or.inl rfl⟩

theorem insertStaged_full (h : m.Sound l frames) (hs : Staged m number text body)
    (hfull : ¬ l.Fits m.variablesBegin number text) :
    insertStaged number body m = .error (.error (.exhausted .programAreaFull)) m := by
  rw [l.fits_iff hs.storable] at hfull
  rw [insertStaged_eq h.layout h.holds hs, if_pos (by omega)]

/-- What `upsert` asks of a line: a number and a text that can be stored, and room for the record
beside the program as it is. -/
structure Accepts (m : Memory) (number : UInt16) (text : List UInt8) : Prop where
  storable : Storable number text
  room : m.programEnd + text.length + 8 ≤ m.variablesBegin

theorem upsert_eq (hm : m.Layout) (ha : m.Accepts number text) :
    upsert number text m = insertStaged number (m.stagingStart text) (m.staged text) := by
  obtain ⟨hstorable, hroom⟩ := ha
  have hlength := hstorable.length_le
  have hvariables := hm.variables_le_size
  have hfits : m.programEnd + text.length + 1 ≤ m.variablesBegin := by omega
  have hadd := stagingStart_add hfits
  have hnumber : ¬ (number = 0 ∨ number = 65535) :=
    not_or.2 ⟨hstorable.number_ne_zero, hstorable.number_ne_max⟩
  have hmarker : ¬ text.contains Byte.marker = true := by
    rw [List.contains_iff_mem]
    exact hstorable.marker_notMem
  have hfree : ¬ (maxRecordLength < lineHeader + text.length + 1 ∨
      m.variablesBegin - m.programEnd < lineHeader + text.length + 1 + entryReserve) := by
    simp only [maxRecordLength, lineHeader, entryReserve, entryHeadroom]
    omega
  -- Two writes, of the text and of its marker, stage the line as one write of both would.
  have hfirst : write (m.stagingStart text) text m = _ := write_eq (by omega)
  have hsecond : write (m.variablesBegin - 1) [Byte.marker]
      { m with ram := overwrite m.ram (m.stagingStart text) text } = .ok () (m.staged text) := by
    rw [write_eq, show m.variablesBegin - 1 = m.stagingStart text + text.length by omega,
      ← overwrite_append]
    · rfl
    · show m.variablesBegin - 1 + 1 ≤ (overwrite _ _ _).size
      rw [size_overwrite]
      show _ ≤ m.size
      omega
  unfold upsert
  rw [if_neg hnumber, if_neg hmarker]
  refine (bind_of_ok (reading_of_ok hm.free_eq)).trans ?_
  rw [if_neg hfree]
  refine (bind_of_ok
    (reading_of_ok (difference_of_le (show text.length + 1 ≤ m.variablesBegin by omega)))).trans ?_
  refine (bind_of_ok hfirst).trans ?_
  refine (bind_of_ok (reading_of_ok (difference_of_le (show 1 ≤ m.variablesBegin by omega)))).trans
    ?_
  exact bind_of_ok hsecond

theorem upsert_merged (h : m.Sound l frames) (ha : m.Accepts number text) :
    ∃ edit m', upsert number text m = .ok edit m' ∧
      m'.Sound (l.put number text ha.storable) (edit.unstack frames) ∧
      m'.variablesBegin = m.variablesBegin := by
  obtain ⟨hstorable, hroom⟩ := ha
  have hfits : m.programEnd + text.length + 1 ≤ m.variablesBegin := by omega
  have hadd := stagingStart_add hfits
  have hgap := onlyGap_staged hfits h.layout
  have hstaged : Staged (m.staged text) number text (m.stagingStart text) :=
    ⟨hstorable, by show m.programEnd + 4 ≤ _; omega, hadd, stands_staged hfits h.layout⟩
  have hfit : l.Fits m.variablesBegin number text :=
    l.fits_beside number (h.holds.programEnd_eq ▸ hroom)
  obtain ⟨m', hrun, hmerged⟩ := insertStaged_merged (h.onlyGap hgap) hstaged hfit
  exact ⟨_, m', (upsert_eq h.layout ⟨hstorable, hroom⟩).trans hrun, hmerged.sound,
    hmerged.variablesBegin_eq⟩

/-- A text that is too long or has no room beside the program is refused, whatever it would replace.
-/
theorem upsert_full (hm : m.Layout) (hnumber : ¬ (number = 0 ∨ number = 65535))
    (hmarker : Byte.marker ∉ text)
    (hfull : 251 < text.length ∨ m.variablesBegin < m.programEnd + text.length + 8) :
    upsert number text m = .error (.error (.exhausted .lineDoesNotFit)) m := by
  have hreserve := hm.reserve
  have hcheck : maxRecordLength < lineHeader + text.length + 1 ∨
      m.variablesBegin - m.programEnd < lineHeader + text.length + 1 + entryReserve := by
    simp only [maxRecordLength, lineHeader, entryReserve, entryHeadroom]
    omega
  have hcontains : ¬ text.contains Byte.marker = true := by
    rwa [List.contains_iff_mem]
  unfold upsert
  rw [if_neg hnumber, if_neg hcontains]
  refine (bind_of_ok (reading_of_ok hm.free_eq)).trans ?_
  rw [if_pos hcheck]
  rfl

/-- A line that `upsert` does not accept leaves the buffer as it was. -/
theorem upsert_error (hm : m.Layout) (ha : ¬ m.Accepts number text) :
    ∃ e, upsert number text m = .error (.error e) m := by
  by_cases hnumber : number = 0 ∨ number = 65535
  · unfold upsert
    rw [if_pos hnumber]
    exact ⟨_, rfl⟩
  by_cases hmarker : Byte.marker ∈ text
  · unfold upsert
    rw [if_neg hnumber, if_pos (List.contains_iff_mem.2 hmarker)]
    exact ⟨_, rfl⟩
  refine ⟨_, upsert_full hm hnumber hmarker (Decidable.byContradiction fun hroom => ?_)⟩
  refine ha ⟨⟨fun hn => hnumber (Or.inl hn), fun hn => hnumber (Or.inr hn), hmarker, ?_⟩, ?_⟩
  · omega
  · omega

end LineBasic.Memory
