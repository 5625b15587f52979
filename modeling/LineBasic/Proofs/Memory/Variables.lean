import LineBasic.Proofs.Memory.Sound

namespace LineBasic.Memory
variable {m m' : Memory} {v w : Variable} {x : Int16}

/-- The values of the variables stand in the bytes from where the variables begin. -/
theorem value_eq_of_agree (hv : m'.variablesBegin = m.variablesBegin)
    (ha : Agree m.ram m'.ram (m.variablesBegin + 2 * v.index)
      (m.variablesBegin + 2 * v.index + 2)) :
    m'.value v = m.value v := by
  have hlow := ha (m.variablesBegin + 2 * v.index) (by omega) (by omega)
  have hhigh := ha (m.variablesBegin + 2 * v.index + 1) (by omega) (by omega)
  simp only [value, hv, Array.getD_eq_getD_getElem?, hlow, hhigh]

theorem value_create (ramSize stackFrames : UInt64) (v : Variable) :
    (create ramSize stackFrames).value v = 0 := by
  have hzero (size i : Nat) : (Array.replicate size (0 : UInt8)).getD i 0 = 0 := by
    rw [Array.getD_eq_getD_getElem?, Array.getElem?_replicate]
    split
    · rfl
    · rfl
  simp only [value, create, layOut, hzero]
  rfl

section
variable (hm : m.Layout)
include hm

theorem value_stored (v : Variable) (x : Int16) : (m.stored v x).value v = x := by
  have hfits := store_fits (m := m) v x
  have hsize := hm.variables_le_size
  have hstands : Stands (m.stored v x).ram (m.variablesBegin + 2 * v.index)
      (wordBytes x.toUInt16) :=
    stands_overwrite (Nat.le_trans hfits hsize)
  have hlow := hstands 0 (by simp [wordBytes])
  have hhigh := hstands 1 (by simp [wordBytes])
  rw [Nat.add_zero] at hlow
  simp only [value, variablesBegin_stored, Array.getD_eq_getD_getElem?, hlow, hhigh]
  exact congrArg UInt16.toInt16 (word_of_wordBytes x.toUInt16)

theorem value_stored_of_ne (h : w ≠ v) : (m.stored v x).value w = m.value w := by
  have hfits := store_fits (m := m) v x
  have hsize := hm.variables_le_size
  have hne : w.index.val ≠ v.index.val := fun he => h (congrArg Variable.mk (Fin.ext he))
  apply value_eq_of_agree (variablesBegin_stored v x)
  obtain hlt | hgt := Nat.lt_or_gt_of_ne hne
  · exact agree_overwrite_below (Nat.le_trans hfits hsize) (by omega)
  · exact agree_overwrite_above (Nat.le_trans hfits hsize) (by rw [length_wordBytes]; omega)

end
end LineBasic.Memory
