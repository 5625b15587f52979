import LineBasic.Proofs.Memory.Stack

namespace LineBasic.Memory

structure Sound (m : Memory) (l : Listing) (frames : List Frame) : Prop where
  layout : m.Layout
  holds : m.Holds l
  stack : m.Stacks frames

/-- The registers and the sizes of the two buffers agree, up to the top of the stack. -/
structure SameRegions (m m' : Memory) : Prop where
  size_eq : m'.size = m.size
  programEnd_eq : m'.programEnd = m.programEnd
  variablesBegin_eq : m'.variablesBegin = m.variablesBegin
  stackLimit_eq : m'.stackLimit = m.stackLimit

variable {m m' : Memory} {l : Listing} {frames : List Frame}

theorem sameRegions_stackTop (m : Memory) (top : Nat) : m.SameRegions { m with stackTop := top } :=
  ⟨rfl, rfl, rfl, rfl⟩

theorem sameRegions_pushed (m : Memory) (frame : Frame) : m.SameRegions (m.pushed frame) :=
  ⟨size_overwrite _ _ _, rfl, rfl, rfl⟩

theorem sameRegions_removed (m : Memory) (address : Nat) (frame : Frame) :
    m.SameRegions (m.removed address frame) :=
  ⟨size_moved _ _ _ _, rfl, rfl, rfl⟩

theorem SameRegions.trans {m'' : Memory} (h : m.SameRegions m') (h' : m'.SameRegions m'') :
    m.SameRegions m'' :=
  ⟨h'.size_eq.trans h.size_eq, h'.programEnd_eq.trans h.programEnd_eq,
    h'.variablesBegin_eq.trans h.variablesBegin_eq, h'.stackLimit_eq.trans h.stackLimit_eq⟩

theorem sound_create (ramSize stackFrames : UInt64) :
    (create ramSize stackFrames).Sound .empty [] :=
  ⟨layout_create _ _, holds_create _ _, stacks_nil Array.size_replicate.symm⟩

theorem Layout.congr (h : m.Layout) (hr : m.SameRegions m') (hl : m.stackLimit ≤ m'.stackTop)
    (ht : m'.stackTop ≤ m.size) : m'.Layout :=
  h.of_regions hr.size_eq hr.variablesBegin_eq hr.stackLimit_eq (hr.programEnd_eq ▸ h.reserve) hl ht

namespace Sound

theorem programEnd_le (h : m.Sound l frames) : m.programEnd ≤ m.size := by
  have := h.layout.reserve
  have := h.layout.variables_le_size
  omega

/-- Bytes that lie neither in the program nor on the stack do not matter. -/
theorem congr (h : m.Sound l frames) (hr : m.SameRegions m') (ht : m'.stackTop = m.stackTop)
    (hp : Agree m.ram m'.ram 0 m.programEnd) (hs : Agree m.ram m'.ram m.stackTop m.size) :
    m'.Sound l frames :=
  ⟨h.layout.congr hr (ht ▸ h.layout.limit_le) (ht ▸ h.layout.top_le),
    h.holds.congr hr.programEnd_eq hp,
    h.stack.congr ht hr.size_eq hs⟩

end Sound

theorem Sound.write (h : m.Sound l frames) {start : Nat} {bytes : List UInt8}
    (hlo : m.programEnd ≤ start) (hhi : start + bytes.length ≤ m.stackTop) :
    ({ m with ram := overwrite m.ram start bytes } : Memory).Sound l frames := by
  have hfits : start + bytes.length ≤ m.ram.size := Nat.le_trans hhi h.layout.top_le
  exact h.congr ⟨size_overwrite _ _ _, rfl, rfl, rfl⟩ rfl (agree_overwrite_below hfits hlo)
    (agree_overwrite_above hfits hhi)

/-- The value of a variable. -/
def value (m : Memory) (v : Variable) : Int16 :=
  (word (m.ram.getD (m.variablesBegin + 2 * v.index) 0)
    (m.ram.getD (m.variablesBegin + 2 * v.index + 1) 0)).toInt16

/-- What an expression sees of a buffer. -/
def view (m : Memory) : Surroundings where
  fetch := m.value
  peek address := if address < 0 then none else m.ram[address.toInt.toNat]?

theorem surroundings_eq (h : m.Layout) : m.surroundings = .ok m.view :=
  if_pos h.variables_le_size

theorem fetch_eq (h : m.Layout) (v : Variable) : m.fetch v = .ok (m.value v) := by
  rw [fetch, surroundings_eq h]
  rfl

def stored (m : Memory) (v : Variable) (x : Int16) : Memory :=
  { m with ram := overwrite m.ram (m.variablesBegin + 2 * v.index) (wordBytes x.toUInt16) }

section
variable (v : Variable) (x : Int16)

@[simp]
theorem variablesBegin_stored : (m.stored v x).variablesBegin = m.variablesBegin := rfl

theorem store_fits :
    m.variablesBegin + 2 * v.index + (wordBytes x.toUInt16).length ≤ m.variablesBegin + 52 := by
  have := v.index.isLt
  rw [length_wordBytes]
  omega

theorem sameRegions_stored : m.SameRegions (m.stored v x) :=
  ⟨size_overwrite _ _ _, rfl, rfl, rfl⟩

theorem store_eq (h : m.Layout) : store v x m = .ok () (m.stored v x) := by
  have := store_fits (m := m) v x
  have := h.variables_le_size
  exact write_eq (by omega)

theorem Sound.stored (h : m.Sound l frames) : (m.stored v x).Sound l frames := by
  have := store_fits (m := m) v x
  have := h.layout.variables_add
  have := h.layout.limit_le
  have := h.layout.reserve
  exact h.write (by omega) (by omega)

end

theorem Sound.unstacked (h : m.Sound l frames) :
    ({ m with stackTop := m.size } : Memory).Sound l [] :=
  ⟨h.layout.congr (m.sameRegions_stackTop _) (Nat.le_trans h.layout.limit_le h.layout.top_le)
    (Nat.le_refl _),
    h.holds.congr rfl fun _ _ _ => rfl, stacks_nil rfl⟩

theorem Sound.unlined (h : m.Sound l frames) :
    ({ m with programEnd := 0 } : Memory).Sound .empty frames := by
  have hm := h.layout
  have := hm.reserve
  refine ⟨⟨hm.size_ge, hm.size_le, ?_, hm.variables_add, hm.limit_le, hm.top_le⟩, holds_empty rfl,
    h.stack.congr rfl rfl fun _ _ _ => rfl⟩
  show 0 + 4 ≤ m.variablesBegin
  omega

theorem Sound.emptied (h : m.Sound l frames) :
    ({ m with programEnd := 0, stackTop := m.size } : Memory).Sound .empty [] :=
  h.unlined.unstacked

def cleared (m : Memory) : Memory :=
  { m with
    programEnd := 0
    stackTop := m.size
    ram := overwrite m.ram m.variablesBegin (List.replicate 52 0) }

@[simp]
theorem size_cleared (m : Memory) : m.cleared.size = m.size := by
  simp only [size, cleared, size_overwrite]

@[simp]
theorem stackTop_cleared (m : Memory) : m.cleared.stackTop = m.size := by
  simp only [cleared]

theorem clear_eq (hm : m.Layout) : clear m = .ok () m.cleared := by
  have hadd := hm.variables_add
  have hlimit : m.stackLimit ≤ m.size := Nat.le_trans hm.limit_le hm.top_le
  have hslice := slice_eq { m with programEnd := 0, stackTop := m.size }
    (show m.variablesBegin ≤ m.stackLimit by omega) hlimit
  have hzeros : ((m.ram.extract m.variablesBegin m.stackLimit).toList.map fun _ => (0 : UInt8)) =
      List.replicate 52 0 := by
    rw [List.map_const', length_extract m.ram m.variablesBegin hlimit,
      show m.stackLimit - m.variablesBegin = 52 by omega]
  have hwrite : write m.variablesBegin (List.replicate 52 0) { m with programEnd := 0, stackTop :=
      m.size } = _ :=
    write_eq (by rw [List.length_replicate]; show _ ≤ m.size; omega)
  refine (bind_of_ok (reading_of_ok hslice)).trans ?_
  rw [hzeros]
  exact hwrite

theorem layout_cleared (hm : m.Layout) : m.cleared.Layout := by
  have hreserve := hm.reserve
  have hlimit := hm.limit_le
  have htop := hm.top_le
  refine hm.of_regions (size_cleared m) ?_ ?_ ?_ ?_ ?_
  all_goals simp only [cleared]
  all_goals omega

theorem Sound.cleared (h : m.Sound l frames) : m.cleared.Sound .empty [] := by
  have hv := h.layout.variables_le_size
  refine h.emptied.write (Nat.zero_le _) ?_
  rw [List.length_replicate]
  exact hv

theorem Sound.pushed {frame : Frame} (h : m.Sound l frames) (hs : frame.Savable)
    (hr : ¬ m.stackTop < m.stackLimit + frame.size) :
    (m.pushed frame).Sound l (frame :: frames) := by
  have hm := h.layout
  have := hm.reserve
  have := hm.variables_add
  have htop := hm.top_le
  have hfits := frame_fits htop (show frame.size ≤ m.stackTop by omega)
  refine ⟨hm.congr (m.sameRegions_pushed frame) ?_ ?_,
    h.holds.congr rfl (agree_overwrite_below hfits (by omega)), h.stack.pushed hs (by omega)⟩
  · show m.stackLimit ≤ m.stackTop - frame.size
    omega
  · show m.stackTop - frame.size ≤ m.size
    omega

section
variable {before after : List Frame} {frame : Frame} (h : m.Sound l (before ++ frame :: after))
include h

theorem Sound.depth_le : m.stackTop + depth before + frame.size ≤ m.size := by
  have htop := h.stack.top_add
  rw [depth_append, depth_cons] at htop
  omega

theorem Sound.removed :
    (m.removed (m.stackTop + depth before) frame).Sound l (before ++ after) := by
  have hm := h.layout
  have := hm.reserve
  have := hm.variables_add
  have hlimit := hm.limit_le
  have hdepth := h.depth_le
  refine ⟨hm.congr (m.sameRegions_removed _ frame) ?_ ?_, h.holds.congr rfl fun i _ hi => ?_,
    h.stack.removed⟩
  · exact Nat.le_trans hlimit (Nat.le_add_right _ _)
  · show m.stackTop + frame.size ≤ m.size
    omega
  · show (moved _ _ _ _)[i]? = _
    rw [getElem?_moved _ _ _ _ _ (by show _ ≤ m.size; omega) (by show _ ≤ m.size; omega),
      if_neg (by omega)]

theorem Sound.unwound : ({ m with stackTop := m.stackTop + depth before } : Memory).Sound l
    (frame :: after) := by
  have hm := h.layout
  have hlimit := hm.limit_le
  have hdepth := h.depth_le
  refine ⟨hm.congr (m.sameRegions_stackTop _) ?_ ?_, h.holds.congr rfl fun _ _ _ => rfl,
    h.stack.unwound⟩
  · exact Nat.le_trans hlimit (Nat.le_add_right _ _)
  · show m.stackTop + depth before ≤ m.size
    omega

theorem Sound.dropped :
    ({ m with stackTop := m.stackTop + depth before + frame.size } : Memory).Sound l
    after := by
  have hm := h.layout
  have hlimit := hm.limit_le
  have hdepth := h.depth_le
  refine ⟨hm.congr ⟨rfl, rfl, rfl, rfl⟩ ?_ hdepth, h.holds.congr rfl fun _ _ _ => rfl,
    h.stack.dropped⟩
  show m.stackLimit ≤ m.stackTop + depth before + frame.size
  omega

end
end LineBasic.Memory
