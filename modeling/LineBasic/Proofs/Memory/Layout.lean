import LineBasic.Memory.Frames
import LineBasic.Memory.Lines
import LineBasic.Proofs.Memory.Bytes

namespace LineBasic.Memory

/-- The regions of the buffer and the room between them. -/
structure Layout (m : Memory) : Prop where
  size_ge : 1024 ≤ m.size
  size_le : m.size ≤ 65534
  /-- An empty line can still be typed. -/
  reserve : m.programEnd + 4 ≤ m.variablesBegin
  variables_add : m.variablesBegin + 52 = m.stackLimit
  limit_le : m.stackLimit ≤ m.stackTop
  top_le : m.stackTop ≤ m.size

theorem size_create (ramSize stackFrames : UInt64) :
    (create ramSize stackFrames).size = min (max ramSize.toNat minSize) maxSize :=
  Array.size_replicate

/-- A new buffer is laid out well for every size and every number of loop frames asked for, even
where the room reckoned for the frames wraps. -/
theorem layout_create (ramSize stackFrames : UInt64) : (create ramSize stackFrames).Layout := by
  have hsize := size_create ramSize stackFrames
  have hmin : minSize = 1024 := rfl
  have hmax : maxSize = 65534 := rfl
  have hcount : Variable.count = 26 := rfl
  have hstack := Nat.min_le_right (max stackFrames 1 * 10).toNat
    (min (max ramSize.toNat minSize) maxSize / 2)
  refine ⟨?_, ?_, ?_, ?_, ?_, ?_⟩
  · omega
  · omega
  · simp only [create, layOut]
    omega
  · simp only [create, layOut]
    omega
  · simp only [create, layOut]
    omega
  · exact Nat.le_of_eq hsize.symm

theorem toNat_atLeastOne (n : UInt64) : (max n 1).toNat = max n.toNat 1 := by
  rw [show max n 1 = if n ≤ 1 then 1 else n from rfl]
  split
  case isTrue h => exact (Nat.max_eq_right (UInt64.le_iff_toNat_le.1 h)).symm
  case isFalse h => exact (Nat.max_eq_left (Nat.le_of_not_le (mt UInt64.le_iff_toNat_le.2 h))).symm

/-- A room that passes 64 bits is not allocated where overflow is caught. -/
theorem allocate_eq (overflow : Overflow) (ramSize stackFrames : UInt64) :
    allocate overflow ramSize stackFrames =
      if overflow = .caught ∧ UInt64.size ≤ 10 * max stackFrames.toNat 1 then
        .error ⟨10 * max stackFrames.toNat 1, UInt64.size⟩
      else .ok (create ramSize stackFrames) := by
  have hasked : (max stackFrames 1).toNat * (10 : UInt64).toNat = 10 * max stackFrames.toNat 1 := by
    rw [toNat_atLeastOne]
    exact Nat.mul_comm _ _
  rw [allocate, product, hasked]
  split
  · rfl
  · rfl

namespace Layout
variable {m : Memory}

theorem free_eq (h : m.Layout) : m.free = .ok (m.variablesBegin - m.programEnd) :=
  difference_of_le (by have := h.reserve; omega)

theorem stackDepth_eq (h : m.Layout) : m.stackDepth = .ok (m.size - m.stackTop) :=
  difference_of_le h.top_le

theorem entryLimit_eq (h : m.Layout) : m.entryLimit = .ok (m.variablesBegin - 2) :=
  difference_of_le (by have := h.reserve; show 2 ≤ _; omega)

theorem variables_le_size (h : m.Layout) : m.variablesBegin + 52 ≤ m.size := by
  have := h.variables_add
  have := h.limit_le
  have := h.top_le
  omega

/-- A buffer of the same size whose regions begin and end at the same places is laid out well if the
program keeps the reserve and the stack its room. -/
theorem of_regions {m' : Memory} (h : m.Layout) (hsize : m'.size = m.size)
    (hvariables : m'.variablesBegin = m.variablesBegin) (hlimit : m'.stackLimit = m.stackLimit)
    (hreserve : m'.programEnd + 4 ≤ m.variablesBegin) (hl : m.stackLimit ≤ m'.stackTop)
    (ht : m'.stackTop ≤ m.size) : m'.Layout where
  size_ge := hsize ▸ h.size_ge
  size_le := hsize ▸ h.size_le
  reserve := hvariables ▸ hreserve
  variables_add := by rw [hvariables, hlimit, h.variables_add]
  limit_le := hlimit ▸ hl
  top_le := hsize ▸ ht

end Layout
end LineBasic.Memory
