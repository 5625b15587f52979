import LineBasic.Proofs.Memory.Bounds
import LineBasic.Proofs.Memory.Variables

namespace LineBasic.Memory
variable {m m' : Memory} {l l' : Listing} {frames frames' : List Frame}

/-- The bytes that there are for frames. -/
def stackCapacity (m : Memory) : Nat :=
  m.size - m.stackLimit

theorem SameRegions.bounds (h : m.SameRegions m') : m.SameBounds m' :=
  ⟨h.size_eq, h.variablesBegin_eq, h.stackLimit_eq⟩

theorem Sound.unique (h : m.Sound l frames) (h' : m.Sound l' frames') :
    l' = l ∧ frames' = frames := by
  have hlines := (lines_eq h.layout h.holds).symm.trans (lines_eq h'.layout h'.holds)
  have hframes := h.stack.frames_eq.symm.trans h'.stack.frames_eq
  refine ⟨Listing.ext (Except.ok.inj hlines).symm, ?_⟩
  rw [← map_snd_addressed m.stackTop frames', ← hframes, map_snd_addressed]

theorem Sound.underneath {before after : List Frame} (h : m.Sound l (before ++ after)) :
    ({ m with stackTop := m.stackTop + depth before } : Memory).Sound l after := by
  cases after with
  | nil =>
    have htop := h.stack.top_add
    rw [List.append_nil] at htop
    rw [htop]
    exact h.unstacked
  | cons frame rest => exact h.unwound

section
variable {v : Variable}

/-- Where only the stack has changed, the values of the variables are the same. -/
theorem value_eq_of_below (hm : m.Layout) (hv : m'.variablesBegin = m.variablesBegin)
    (ha : Agree m.ram m'.ram m.variablesBegin m.stackLimit) : m'.value v = m.value v := by
  have hindex := v.index.isLt
  have hadd := hm.variables_add
  exact value_eq_of_agree hv (ha.mono (Nat.le_add_right _ _) (by omega))

theorem value_pushed (hm : m.Layout) {frame : Frame}
    (hr : ¬ m.stackTop < m.stackLimit + frame.size) :
    (m.pushed frame).value v = m.value v := by
  have htop : m.stackTop ≤ m.ram.size := hm.top_le
  have hlength := frame.length_encode
  exact value_eq_of_below hm rfl (agree_overwrite_below (by omega) (by omega))

theorem value_removed {before after : List Frame} {frame : Frame}
    (h : m.Sound l (before ++ frame :: after)) :
    (m.removed (m.stackTop + depth before) frame).value v = m.value v := by
  have hdepth : m.stackTop + depth before + frame.size ≤ m.ram.size := h.depth_le
  have hlimit := h.layout.limit_le
  refine value_eq_of_below h.layout rfl fun i _ hi => ?_
  show (moved _ _ _ _)[i]? = _
  rw [getElem?_moved _ _ _ _ _ (by omega) (by omega), if_neg (by omega)]

theorem value_overwrite (hm : m.Layout) {start : Nat} {bytes : List UInt8}
    (hhi : start + bytes.length ≤ m.variablesBegin) :
    ({ m with ram := overwrite m.ram start bytes } : Memory).value v = m.value v := by
  have hv : m.variablesBegin + 52 ≤ m.ram.size := hm.variables_le_size
  exact value_eq_of_below hm rfl (agree_overwrite_above (by omega) hhi)

end

/-- The buffers hold the same program, the same frames and the same values, with as much room for
frames. -/
structure Kin (m m' : Memory) : Prop where
  sounds : ∃ l frames, m.Sound l frames ∧ m'.Sound l frames
  value_eq : ∀ v, m'.value v = m.value v
  capacity_eq : m'.stackCapacity = m.stackCapacity

namespace Kin
variable {start : Nat} {bytes : List UInt8} {frame : Frame} {before after : List Frame}

theorem sound (h : m.Kin m') (hs : m.Sound l frames) : m'.Sound l frames := by
  obtain ⟨l', frames', h₁, h₂⟩ := h.sounds
  obtain ⟨rfl, rfl⟩ := hs.unique h₁
  exact h₂

theorem layout (h : m.Kin m') : m'.Layout := by
  obtain ⟨l, frames, -, hs'⟩ := h.sounds
  exact hs'.layout

theorem programEnd_eq (h : m.Kin m') : m'.programEnd = m.programEnd := by
  obtain ⟨l, frames, hs, hs'⟩ := h.sounds
  exact (hs.holds.agree hs'.holds).1

theorem full_iff (h : m.Kin m') (size : Nat) :
    m'.stackTop < m'.stackLimit + size ↔ m.stackTop < m.stackLimit + size := by
  obtain ⟨l, frames, hs, hs'⟩ := h.sounds
  have htop := hs.stack.top_add
  have htop' := hs'.stack.top_add
  have hlimit := hs.layout.limit_le
  have hlimit' := hs'.layout.limit_le
  have hcapacity : m'.size - m'.stackLimit = m.size - m.stackLimit := h.capacity_eq
  omega

/-- Buffers that have kept their bounds are kin again if they hold the same. -/
theorem of_sounds (h : m.Kin m') {n n' : Memory} (hb : m.SameBounds n) (hb' : m'.SameBounds n')
    (hs : n.Sound l frames) (hs' : n'.Sound l frames) (hv : ∀ v, n'.value v = n.value v) :
    n.Kin n' := by
  refine ⟨⟨l, frames, hs, hs'⟩, hv, ?_⟩
  rw [stackCapacity, stackCapacity, hb.size_eq, hb.stackLimit_eq, hb'.size_eq, hb'.stackLimit_eq]
  exact h.capacity_eq

theorem stored (h : m.Kin m') (v : Variable) (x : Int16) : (m.stored v x).Kin (m'.stored v x) := by
  obtain ⟨l, frames, hs, hs'⟩ := h.sounds
  refine h.of_sounds (m.sameRegions_stored v x).bounds (m'.sameRegions_stored v x).bounds
    (hs.stored v x)
    (hs'.stored v x) fun w => ?_
  by_cases hw : w = v
  · rw [hw, value_stored hs.layout, value_stored hs'.layout]
  · rw [value_stored_of_ne hs.layout hw, value_stored_of_ne hs'.layout hw, h.value_eq]

theorem written (h : m.Kin m') (hlo : m.entryStart ≤ start)
    (hhi : start + bytes.length ≤ m.variablesBegin)
    (hhi' : start + bytes.length ≤ m'.variablesBegin) :
    Kin { m with ram := overwrite m.ram start bytes }
      { m' with ram := overwrite m'.ram start bytes } := by
  obtain ⟨l, frames, hs, hs'⟩ := h.sounds
  have hend := h.programEnd_eq
  have hstart : m.programEnd + entryHeadroom ≤ start := hlo
  have hadd := hs.layout.variables_add
  have hadd' := hs'.layout.variables_add
  have hlimit := hs.layout.limit_le
  have hlimit' := hs'.layout.limit_le
  refine h.of_sounds ⟨size_overwrite _ _ _, rfl, rfl⟩ ⟨size_overwrite _ _ _, rfl, rfl⟩
    (hs.write (by omega) (by omega))
    (hs'.write (by omega) (by omega)) fun v => ?_
  rw [value_overwrite hs.layout hhi, value_overwrite hs'.layout hhi', h.value_eq]

theorem unlined (h : m.Kin m') : Kin { m with programEnd := 0 } { m' with programEnd := 0 } := by
  obtain ⟨l, frames, hs, hs'⟩ := h.sounds
  exact h.of_sounds ⟨rfl, rfl, rfl⟩ ⟨rfl, rfl, rfl⟩ hs.unlined hs'.unlined h.value_eq

theorem unstacked (h : m.Kin m') :
    Kin { m with stackTop := m.size } { m' with stackTop := m'.size } := by
  obtain ⟨l, frames, hs, hs'⟩ := h.sounds
  exact h.of_sounds ⟨rfl, rfl, rfl⟩ ⟨rfl, rfl, rfl⟩ hs.unstacked hs'.unstacked h.value_eq

theorem pushed (h : m.Kin m') (hf : frame.Savable) (hr : ¬ m.stackTop < m.stackLimit + frame.size) :
    (m.pushed frame).Kin (m'.pushed frame) := by
  obtain ⟨l, frames, hs, hs'⟩ := h.sounds
  have hr' : ¬ m'.stackTop < m'.stackLimit + frame.size := mt (h.full_iff frame.size).1 hr
  refine h.of_sounds (m.sameRegions_pushed frame).bounds (m'.sameRegions_pushed frame).bounds
    (hs.pushed hf hr)
    (hs'.pushed hf hr') fun v => ?_
  rw [value_pushed hs.layout hr, value_pushed hs'.layout hr', h.value_eq]

theorem removed (h : m.Kin m') (hs : m.Sound l (before ++ frame :: after)) :
    (m.removed (m.stackTop + depth before) frame).Kin
      (m'.removed (m'.stackTop + depth before) frame) := by
  have hs' := h.sound hs
  refine h.of_sounds (m.sameRegions_removed _ frame).bounds
    (m'.sameRegions_removed _ frame).bounds hs.removed
    hs'.removed fun v => ?_
  rw [value_removed hs, value_removed hs', h.value_eq]

theorem unwound (h : m.Kin m') (hs : m.Sound l (before ++ after)) :
    Kin { m with stackTop := m.stackTop + depth before }
      { m' with stackTop := m'.stackTop + depth before } :=
  h.of_sounds ⟨rfl, rfl, rfl⟩ ⟨rfl, rfl, rfl⟩ hs.underneath (h.sound hs).underneath h.value_eq

end Kin
end LineBasic.Memory
