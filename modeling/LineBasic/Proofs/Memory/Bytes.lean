import LineBasic.Memory.Basic
import LineBasic.Proofs.Outcome

namespace LineBasic.Memory

/-- These bytes stand in the buffer from `start` on. -/
def Stands (ram : Array UInt8) (start : Nat) (bytes : List UInt8) : Prop :=
  ∀ i < bytes.length, ram[start + i]? = bytes[i]?

def Agree (ram ram' : Array UInt8) (first last : Nat) : Prop :=
  ∀ i, first ≤ i → i < last → ram'[i]? = ram[i]?

theorem Agree.trans {ram ram' ram'' : Array UInt8} {first last : Nat}
    (h : Agree ram ram' first last) (h' : Agree ram' ram'' first last) :
    Agree ram ram'' first last := by
  intro i hi hl
  rw [h' i hi hl, h i hi hl]

theorem Agree.mono {ram ram' : Array UInt8} {first last lo hi : Nat} (h : Agree ram ram' first last)
    (hlo : first ≤ lo) (hhi : hi ≤ last) : Agree ram ram' lo hi :=
  fun i hi' hl => h i (Nat.le_trans hlo hi') (Nat.lt_of_lt_of_le hl hhi)

theorem stands_nil (ram : Array UInt8) (start : Nat) : Stands ram start [] := by
  intro i hi
  exact absurd hi (Nat.not_lt_zero i)

theorem stands_append {ram : Array UInt8} {start : Nat} {front back : List UInt8} :
    Stands ram start (front ++ back) ↔
      Stands ram start front ∧ Stands ram (start + front.length) back := by
  constructor
  · intro h
    constructor
    · intro i hi
      rw [h i (by rw [List.length_append]; omega), List.getElem?_append_left hi]
    · intro i hi
      rw [Nat.add_assoc, h _ (by rw [List.length_append]; omega),
        List.getElem?_append_right (Nat.le_add_right _ _), Nat.add_sub_cancel_left]
  · rintro ⟨hf, hb⟩ i hi
    rw [List.length_append] at hi
    by_cases hl : i < front.length
    · rw [hf i hl, List.getElem?_append_left hl]
    · have hk := hb (i - front.length) (by omega)
      rw [show start + front.length + (i - front.length) = start + i by omega] at hk
      rw [hk, List.getElem?_append_right (by omega)]

theorem stands_cons {ram : Array UInt8} {start : Nat} {b : UInt8} {rest : List UInt8} :
    Stands ram start (b :: rest) ↔ ram[start]? = some b ∧ Stands ram (start + 1) rest := by
  rw [← List.singleton_append, stands_append, List.length_singleton]
  constructor
  · rintro ⟨h, hr⟩
    exact ⟨h 0 Nat.zero_lt_one, hr⟩
  · rintro ⟨h, hr⟩
    refine ⟨fun i hi => ?_, hr⟩
    rw [List.length_singleton, Nat.lt_one_iff] at hi
    subst hi
    exact h

theorem Stands.congr {ram ram' : Array UInt8} {start : Nat} {bytes : List UInt8}
    (h : Stands ram start bytes) (ha : Agree ram ram' start (start + bytes.length)) :
    Stands ram' start bytes := by
  intro i hi
  rw [ha _ (Nat.le_add_right _ _) (Nat.add_lt_add_left hi _), h i hi]

theorem Stands.le_size {ram : Array UInt8} {start : Nat} {bytes : List UInt8}
    (h : Stands ram start bytes) (hne : bytes ≠ []) : start + bytes.length ≤ ram.size := by
  have hp : 0 < bytes.length := List.length_pos_iff.2 hne
  have hl := h (bytes.length - 1) (by omega)
  rw [List.getElem?_eq_getElem (by omega)] at hl
  obtain ⟨hs, -⟩ := Array.getElem?_eq_some_iff.1 hl
  omega

/-- Two runs of bytes that stand at one place with one length are the same. -/
theorem Stands.unique {ram : Array UInt8} {start : Nat} {bytes bytes' : List UInt8}
    (h : Stands ram start bytes) (h' : Stands ram start bytes')
    (hl : bytes.length = bytes'.length) : bytes = bytes' := by
  apply List.ext_getElem? fun i => ?_
  by_cases hi : i < bytes.length
  · rw [← h i hi, h' i (hl ▸ hi)]
  · rw [List.getElem?_eq_none (by omega), List.getElem?_eq_none (by omega)]

theorem stands_extract {ram : Array UInt8} {first last : Nat} :
    Stands ram first (ram.extract first last).toList := by
  intro i hi
  rw [Array.length_toList, Array.size_extract] at hi
  rw [Array.getElem?_toList, Array.getElem?_extract, if_pos (by omega)]

theorem length_extract (ram : Array UInt8) (first : Nat) {last : Nat} (h : last ≤ ram.size) :
    (ram.extract first last).toList.length = last - first := by
  rw [Array.length_toList, Array.size_extract, Nat.min_eq_left h]

theorem Stands.extract_eq {ram : Array UInt8} {start last : Nat} {bytes : List UInt8}
    (h : Stands ram start bytes) (hl : last = start + bytes.length) (hs : last ≤ ram.size) :
    (ram.extract start last).toList = bytes :=
  stands_extract.unique h (by rw [length_extract _ start hs]; omega)

theorem stands_overwrite {ram : Array UInt8} {start : Nat} {bytes : List UInt8}
    (h : start + bytes.length ≤ ram.size) : Stands (overwrite ram start bytes) start bytes := by
  intro i hi
  rw [getElem?_overwrite ram start bytes _ h, if_pos (by omega), Nat.add_sub_cancel_left]

theorem agree_overwrite_below {ram : Array UInt8} {start : Nat} {bytes : List UInt8}
    {first last : Nat} (h : start + bytes.length ≤ ram.size) (hl : last ≤ start) :
    Agree ram (overwrite ram start bytes) first last := by
  intro i _ hi
  rw [getElem?_overwrite ram start bytes _ h, if_neg (by omega)]

theorem agree_overwrite_above {ram : Array UInt8} {start : Nat} {bytes : List UInt8}
    {first last : Nat} (h : start + bytes.length ≤ ram.size) (hf : start + bytes.length ≤ first) :
    Agree ram (overwrite ram start bytes) first last := by
  intro i hi _
  rw [getElem?_overwrite ram start bytes _ h, if_neg (by omega)]

theorem overwrite_append (ram : Array UInt8) (start : Nat) (front back : List UInt8) :
    overwrite ram start (front ++ back) =
      overwrite (overwrite ram start front) (start + front.length) back := by
  induction front generalizing ram start with
  | nil => rfl
  | cons b rest ih =>
    rw [List.cons_append, overwrite, overwrite, ih, List.length_cons, Nat.add_assoc, Nat.add_comm 1]

theorem overwrite_twice (ram : Array UInt8) (start : Nat) (b : UInt8) :
    overwrite (overwrite ram start [b]) start [b] = overwrite ram start [b] := by
  simp only [overwrite, Array.setIfInBounds_setIfInBounds]

def moved (ram : Array UInt8) (first last target : Nat) : Array UInt8 :=
  overwrite ram target (ram.extract first last).toList

theorem size_moved (ram : Array UInt8) (first last target : Nat) :
    (moved ram first last target).size = ram.size :=
  size_overwrite _ _ _

/-- A copy reads the bytes as they were before, even where the two places overlap. -/
theorem getElem?_moved (ram : Array UInt8) (first last target i : Nat) (hl : last ≤ ram.size)
    (ht : target + (last - first) ≤ ram.size) :
    (moved ram first last target)[i]? =
      if target ≤ i ∧ i < target + (last - first) then ram[first + (i - target)]? else ram[i]? := by
  have hlen := length_extract _ first hl
  rw [moved, getElem?_overwrite _ _ _ _ (by rw [hlen]; exact ht), hlen]
  by_cases hi : target ≤ i ∧ i < target + (last - first)
  · rw [if_pos hi, if_pos hi, Array.getElem?_toList, Array.getElem?_extract, if_pos (by omega)]
  · rw [if_neg hi, if_neg hi]

theorem difference_of_le {a b : Nat} (h : b ≤ a) : difference a b = .ok (a - b) := if_pos h

theorem reading_of_ok {α : Type} {f : Memory → Except Fault α} {m : Memory} {a : α}
    (h : f m = .ok a) : reading f m = .ok a m := by
  simp only [reading, h]

theorem readByte_of_some {m : Memory} {address : Nat} {b : UInt8} (h : m.ram[address]? = some b) :
    m.readByte address = .ok b := by
  rw [readByte, h]

theorem exists_readByte (m : Memory) {address : Nat} (h : address < m.size) :
    ∃ b, m.ram[address]? = some b ∧ m.readByte address = .ok b :=
  ⟨m.ram[address], Array.getElem?_eq_getElem h, readByte_of_some (Array.getElem?_eq_getElem h)⟩

theorem slice_eq (m : Memory) {first last : Nat} (h : first ≤ last) (hl : last ≤ m.size) :
    m.slice first last = .ok (m.ram.extract first last).toList :=
  if_pos ⟨h, hl⟩

theorem write_eq {m : Memory} {start : Nat} {bytes : List UInt8}
    (h : start + bytes.length ≤ m.size) :
    write start bytes m = .ok () { m with ram := overwrite m.ram start bytes } :=
  if_pos h

theorem move_eq (m : Memory) {first last : Nat} (target : Nat) (h : first ≤ last)
    (hl : last ≤ m.size) (ht : target + (last - first) ≤ m.size) :
    move first last target m = .ok () { m with ram := moved m.ram first last target } := by
  rw [move, bind_of_ok (reading_of_ok (slice_eq m h hl)),
    write_eq (by rw [length_extract _ first hl]; exact ht), moved]

end LineBasic.Memory
