import LineBasic.Proofs.Listing
import LineBasic.Proofs.Memory.Layout

namespace LineBasic.Memory

/-- The bytes below the end of the program. -/
def program (m : Memory) : List UInt8 :=
  (m.ram.extract 0 m.programEnd).toList

/-- The buffer holds the records of this program and nothing else below the end of the program. -/
structure Holds (m : Memory) (l : Listing) : Prop where
  programEnd_eq : m.programEnd = extent l.lines
  stands : Stands m.ram 0 (records l.lines)

variable {m : Memory} {l : Listing}

theorem Holds.program_eq (h : m.Holds l) (hs : m.programEnd ≤ m.size) :
    m.program = records l.lines :=
  h.stands.extract_eq (by rw [length_records, h.programEnd_eq, Nat.zero_add]) hs

/-- A buffer whose program has the same bytes as that of another holds the same lines. -/
theorem Holds.of_program {m' : Memory} {l' : Listing} (h' : m'.Holds l') (h : m.Holds l)
    (hs' : m'.programEnd ≤ m'.size) (hs : m.programEnd ≤ m.size) (hp : m'.program = m.program) :
    m'.Holds l := by
  have hrecords : records l'.lines = records l.lines :=
    (h'.program_eq hs').symm.trans (hp.trans (h.program_eq hs))
  refine ⟨?_, hrecords ▸ h'.stands⟩
  rw [h'.programEnd_eq, ← length_records, hrecords, length_records]

theorem Holds.congr {m' : Memory} (h : m.Holds l) (he : m'.programEnd = m.programEnd)
    (ha : Agree m.ram m'.ram 0 m.programEnd) : m'.Holds l := by
  refine ⟨he.trans h.programEnd_eq, h.stands.congr ?_⟩
  rw [length_records, ← h.programEnd_eq, Nat.zero_add]
  exact ha

theorem Holds.agree {m' : Memory} (h : m.Holds l) (h' : m'.Holds l) :
    m'.programEnd = m.programEnd ∧ Agree m.ram m'.ram 0 m.programEnd := by
  refine ⟨h'.programEnd_eq.trans h.programEnd_eq.symm, fun i _ hi => ?_⟩
  rw [h.programEnd_eq, ← length_records] at hi
  have := (h.stands i hi).trans (h'.stands i hi).symm
  rwa [Nat.zero_add, eq_comm] at this

theorem Holds.stands_record {line : Line} {address : Nat} (h : m.Holds l)
    (hl : l.StartsAt line address) :
    Stands m.ram address line.record := by
  obtain ⟨before, after, he, ha⟩ := hl
  have hs := h.stands
  rw [he, records_append, records_cons, stands_append, stands_append, length_records,
    Nat.zero_add, ← ha] at hs
  exact hs.2.1

theorem holds_create (ramSize stackFrames : UInt64) : (create ramSize stackFrames).Holds .empty :=
  ⟨rfl, stands_nil _ _⟩

theorem holds_empty (h : m.programEnd = 0) : m.Holds .empty :=
  ⟨h, stands_nil _ _⟩

theorem exists_lineNumberAt (hm : m.Layout) {address : Nat} (h : address < m.programEnd) :
    ∃ n, m.lineNumberAt address = .ok n := by
  have := hm.reserve
  have := hm.variables_le_size
  obtain ⟨low, -, hlow⟩ := exists_readByte m (show address < m.size by omega)
  obtain ⟨high, -, hhigh⟩ := exists_readByte m (show address + 1 < m.size by omega)
  exact ⟨word low high, by rw [lineNumberAt, readWord, hlow, hhigh]; rfl⟩

/-- Whether a record seems to begin is judged by the byte where its length would stand, and by how
much of the program is left. -/
theorem recordAt_of_byte {address : Nat} {b : UInt8} (h : m.ram[address + 2]? = some b) :
    m.recordAt address =
      .ok (if 4 ≤ b.toNat ∧ address + b.toNat ≤ m.programEnd then some b.toNat else none) := by
  by_cases hend : m.programEnd ≤ address + lineHeader
  · have hend' : m.programEnd ≤ address + 3 := hend
    rw [recordAt, if_pos hend, if_neg (by omega)]
  · have hl : m.recordLengthAt address =
        .ok b.toNat := by rw [recordLengthAt, readByte_of_some h]; rfl
    rw [recordAt, if_neg hend, hl]
    by_cases hc : b.toNat < lineHeader + 1 ∨ m.programEnd < address + b.toNat
    · have hc' : b.toNat < 4 ∨ m.programEnd < address + b.toNat := hc
      rw [if_neg (by omega)]
      exact if_pos hc
    · have hc' : ¬ (b.toNat < 4 ∨ m.programEnd < address + b.toNat) := hc
      rw [if_pos (by omega)]
      exact if_neg hc

/-- Looking for a record never leaves the buffer, and one that is found lies in the program. -/
theorem exists_recordAt (hm : m.Layout) (address : Nat) :
    ∃ r, m.recordAt address = .ok r ∧
      ∀ length, r = some length → 4 ≤ length ∧ address + length ≤ m.programEnd := by
  have := hm.reserve
  have := hm.variables_le_size
  by_cases hend : m.programEnd ≤ address + lineHeader
  · exact ⟨none, if_pos hend, by simp⟩
  · obtain ⟨b, hb, -⟩ := exists_readByte m
      (show address + 2 < m.size by simp only [lineHeader] at hend; omega)
    refine ⟨_, recordAt_of_byte hb, fun length he => ?_⟩
    split at he
    case isTrue hc =>
      cases he
      exact hc
    case isFalse => cases he

theorem exists_lineAt (hm : m.Layout) (address : Nat) : ∃ line, m.lineAt address = .ok line := by
  have := hm.reserve
  have := hm.variables_le_size
  obtain ⟨r, hr, hlen⟩ := exists_recordAt hm address
  cases r with
  | none => exact ⟨none, by rw [lineAt, hr]; rfl⟩
  | some length =>
    obtain ⟨hge, hle⟩ := hlen length rfl
    obtain ⟨n, hn⟩ := exists_lineNumberAt hm (show address < m.programEnd by omega)
    have hs := slice_eq m
      (show textStart address ≤ address + length - 1 by simp only [textStart, lineHeader]; omega)
      (by omega)
    exact ⟨some ⟨n, _⟩, by rw [lineAt, hr]; simp only [bind, Except.bind, hn, hs]; rfl⟩

theorem exists_nextLine (hm : m.Layout) (address : Nat) :
    ∃ next, m.nextLine address = .ok next ∧ (address < m.programEnd → address < next) := by
  obtain ⟨r, hr, hlen⟩ := exists_recordAt hm address
  cases r with
  | none => exact ⟨m.programEnd, by rw [nextLine, hr]; rfl, id⟩
  | some length =>
    obtain ⟨hge, -⟩ := hlen length rfl
    exact ⟨address + length, by rw [nextLine, hr]; rfl, fun _ => by omega⟩

/-- The looks are never used up: where they reach the end of the program, one more finds the same.
-/
theorem findLineFrom_succ (hm : m.Layout) (number : UInt16) {looks address : Nat}
    (h : m.programEnd ≤ address + looks) :
    m.findLineFrom number (looks + 1) address = m.findLineFrom number looks address := by
  induction looks generalizing address with
  | zero => exact if_neg (Nat.not_lt.2 h)
  | succ looks ih =>
    unfold findLineFrom
    by_cases hlt : address < m.programEnd
    · obtain ⟨next, hnext, hless⟩ := exists_nextLine hm address
      have hfurther := hless hlt
      rw [if_pos hlt, if_pos hlt, hnext]
      simp only [bind, Except.bind, ih (show m.programEnd ≤ next + looks by omega)]
    · rw [if_neg hlt, if_neg hlt]

theorem lineAt_past {address : Nat} (h : m.programEnd ≤ address) : m.lineAt address = .ok none := by
  have hrecord : m.recordAt address = .ok none := if_pos (Nat.le_add_right_of_le h)
  unfold lineAt
  rw [hrecord]
  rfl

theorem linesAt_succ (hm : m.Layout) {looks address : Nat} (h : m.programEnd ≤ address + looks) :
    m.linesAt (looks + 1) address = m.linesAt looks address := by
  induction looks generalizing address with
  | zero =>
    have hpast : m.lineAt address = .ok none := lineAt_past h
    simp only [linesAt, hpast]
    rfl
  | succ looks ih =>
    unfold linesAt
    by_cases hlt : address < m.programEnd
    · obtain ⟨next, hnext, hless⟩ := exists_nextLine hm address
      have hfurther := hless hlt
      rw [hnext]
      simp only [bind, Except.bind, ih (show m.programEnd ≤ next + looks by omega)]
    · rw [lineAt_past (Nat.le_of_not_lt hlt)]
      rfl

structure LineAt (m : Memory) (l : Listing) (line : Line) (address : Nat) : Prop where
  starts : l.StartsAt line address
  holds : m.Holds l
  layout : m.Layout

namespace LineAt
variable {line : Line} {address : Nat}

theorem stands (h : LineAt m l line address) : Stands m.ram address line.record :=
  h.holds.stands_record h.starts

theorem end_le (h : LineAt m l line address) : address + line.text.length + 4 ≤ m.programEnd := by
  rw [h.holds.programEnd_eq]
  exact h.starts.end_le

theorem programEnd_le (h : LineAt m l line address) : m.programEnd ≤ m.size := by
  have := h.layout.reserve
  have := h.layout.variables_le_size
  omega

theorem storable (h : LineAt m l line address) : Storable line.number line.text :=
  l.storable line h.starts.mem

/-- The number, the length byte, the text and the marker of the line stand in its record. -/
theorem parts (h : LineAt m l line address) :
    Stands m.ram address (wordBytes line.number) ∧
      m.ram[address + 2]? = some (UInt8.ofNat (line.text.length + 4)) ∧
      Stands m.ram (address + 3) line.text ∧
      m.ram[address + 3 + line.text.length]? = some Byte.marker := by
  have hs := h.stands
  rw [Line.record, List.append_assoc, stands_append, length_wordBytes, List.cons_append,
    stands_cons,
    stands_append, stands_cons] at hs
  exact ⟨hs.1, hs.2.1, hs.2.2.1, hs.2.2.2.1⟩

theorem lineNumberAt_eq (h : LineAt m l line address) :
    m.lineNumberAt address = .ok line.number := by
  obtain ⟨hn, -⟩ := h.parts
  rw [wordBytes, stands_cons, stands_cons] at hn
  rw [lineNumberAt, readWord, readByte_of_some hn.1, readByte_of_some hn.2.1]
  exact congrArg Except.ok (word_of_wordBytes line.number)

theorem toNat_length (h : LineAt m l line address) :
    (UInt8.ofNat (line.text.length + 4)).toNat = line.text.length + 4 := by
  have := h.storable.length_le
  rw [UInt8.toNat_ofNat']
  omega

theorem recordLengthAt_eq (h : LineAt m l line address) :
    m.recordLengthAt address = .ok (line.text.length + 4) := by
  obtain ⟨-, hl, -⟩ := h.parts
  rw [recordLengthAt, readByte_of_some hl]
  exact congrArg Except.ok h.toNat_length

theorem recordAt_eq (h : LineAt m l line address) :
    m.recordAt address = .ok (some (line.text.length + 4)) := by
  obtain ⟨-, hl, -⟩ := h.parts
  have := h.end_le
  rw [recordAt_of_byte hl, h.toNat_length, if_pos (by omega)]

theorem nextLine_eq (h : LineAt m l line address) :
    m.nextLine address = .ok (address + (line.text.length + 4)) := by
  rw [nextLine, h.recordAt_eq]
  rfl

theorem lineAt_eq (h : LineAt m l line address) : m.lineAt address = .ok (some line) := by
  have := h.end_le
  have := h.programEnd_le
  have hs := slice_eq m
    (show textStart address ≤ address + (line.text.length + 4) - 1 by
      simp only [textStart, lineHeader]; omega) (by omega)
  have ht : (m.ram.extract (textStart address) (address + (line.text.length + 4) - 1)).toList =
      line.text :=
    h.parts.2.2.1.extract_eq (by omega) (by show _ ≤ m.size; omega)
  rw [lineAt, h.recordAt_eq]
  simp only [bind, Except.bind, h.lineNumberAt_eq, hs, ht]
  rfl

end LineAt

/-- From an address that ends some lines the search passes the lines below the number. -/
theorem findLineFrom_eq (hm : m.Layout) (hh : m.Holds l) (number : UInt16) (before : List Line)
    {rest : List Line} (he : l.lines = before ++ rest) (looks : Nat) (hl : rest.length ≤ looks) :
    m.findLineFrom number looks (extent before) =
      .ok (extent before + extent (rest.filter fun line => line.number < number)) := by
  -- On the lines not yet passed. Where the search stops, all that follow have larger numbers as
  -- well.
  induction rest generalizing before looks with
  | nil =>
    have hend : m.programEnd = extent before := by rw [hh.programEnd_eq, he, List.append_nil]
    rw [List.filter_nil]
    cases looks with
    | zero => exact congrArg Except.ok hend
    | succ looks => rw [findLineFrom, if_neg (by omega), hend]; rfl
  | cons line rest ih =>
    have hat : LineAt m l line (extent before) := ⟨⟨before, rest, he, rfl⟩, hh, hm⟩
    have := hat.end_le
    obtain ⟨looks, rfl⟩ : ∃ k, looks = k + 1 := ⟨looks - 1, by rw [List.length_cons] at hl; omega⟩
    rw [findLineFrom, if_pos (by omega), hat.lineNumberAt_eq]
    by_cases hn : number ≤ line.number
    · have hrest : (line :: rest).filter (fun line => line.number < number) = [] := by
        have hp := l.ascending
        rw [he] at hp
        have hr := List.pairwise_cons.1 (List.pairwise_append.1 hp).2.1
        rw [List.filter_eq_nil_iff]
        intro a ha hlt
        have hlt : a.number < number := of_decide_eq_true hlt
        rcases List.mem_cons.1 ha with rfl | ha
        · exact UInt16.not_le.2 hlt hn
        · exact UInt16.not_le.2 hlt (UInt16.le_trans hn (UInt16.le_of_lt (hr.1 a ha)))
      rw [hrest]
      exact if_pos hn
    · have hlt : line.number < number := UInt16.not_le.1 hn
      have hnext := ih (before ++ [line]) (by rw [he, List.append_assoc]; rfl)
        looks (by rw [List.length_cons] at hl; omega)
      rw [extent_append, extent_cons] at hnext
      rw [List.filter_cons_of_pos (by simpa using hlt), extent_cons]
      simp only [bind, Except.bind, if_neg hn, hat.nextLine_eq]
      rw [← Nat.add_assoc, ← Nat.add_assoc, ← Nat.add_assoc] at *
      exact hnext

theorem findLine_eq (hm : m.Layout) (hh : m.Holds l) (number : UInt16) :
    m.findLine number = .ok (extent (l.below number)) := by
  have h := findLineFrom_eq hm hh number [] (List.nil_append _).symm
    m.programEnd (by rw [hh.programEnd_eq]; exact length_le_extent _)
  rw [show extent [] = 0 from rfl, Nat.zero_add] at h
  exact h

/-- The length that an edit takes away is that of the line of this number. -/
theorem lengthOfLine_eq (hm : m.Layout) (hh : m.Holds l) (number : UInt16) :
    m.lengthOfLine number (extent (l.below number)) = .ok (extent (l.same number)) := by
  have hparts := l.below_append_same_append_above number
  by_cases hend : extent (l.below number) = m.programEnd
  · rw [hh.programEnd_eq, ← hparts, extent_append, extent_append] at hend
    rw [lengthOfLine, if_pos (by rw [hh.programEnd_eq, ← hparts, extent_append,
      extent_append, ← hend])]
    exact congrArg Except.ok (by omega)
  · rw [lengthOfLine, if_neg hend]
    rcases l.same_eq number with hs | ⟨line, hs, hn⟩
    · -- The line that was found has a larger number.
      rw [hs]
      rw [hs, List.nil_append] at hparts
      cases ha : l.above number with
      | nil =>
        rw [hh.programEnd_eq, ← hparts, ha, List.append_nil] at hend
        exact absurd rfl hend
      | cons line rest =>
        rw [ha] at hparts
        have hat : LineAt m l line (extent (l.below number)) :=
          ⟨⟨_, _, hparts.symm, rfl⟩, hh, hm⟩
        have hmem : line ∈ l.above number := by rw [ha]; exact List.mem_cons_self
        have hlt : number < line.number := by simpa using (List.mem_filter.1 hmem).2
        have hne : ¬ line.number = number := fun h => UInt16.lt_irrefl number (h ▸ hlt)
        rw [hat.lineNumberAt_eq]
        exact if_neg hne
    · rw [hs] at hparts ⊢
      have hat : LineAt m l line (extent (l.below number)) := ⟨⟨_, _, hparts.symm, rfl⟩, hh, hm⟩
      rw [hat.lineNumberAt_eq]
      simp only [bind, Except.bind, if_pos hn, hat.recordLengthAt_eq]
      rfl

theorem linesAt_eq (hm : m.Layout) (hh : m.Holds l) (before : List Line) {rest : List Line}
    (he : l.lines = before ++ rest) (looks : Nat) (hl : rest.length ≤ looks) :
    m.linesAt looks (extent before) = .ok rest := by
  induction rest generalizing before looks with
  | nil =>
    have hend : m.programEnd = extent before := by rw [hh.programEnd_eq, he, List.append_nil]
    cases looks with
    | zero => rfl
    | succ looks =>
      have hr : m.recordAt (extent before) = .ok none := if_pos (by omega)
      rw [linesAt, lineAt, hr]
      rfl
  | cons line rest ih =>
    have hat : LineAt m l line (extent before) := ⟨⟨before, rest, he, rfl⟩, hh, hm⟩
    obtain ⟨looks, rfl⟩ : ∃ k, looks = k + 1 := ⟨looks - 1, by rw [List.length_cons] at hl; omega⟩
    have hnext := ih (before ++ [line]) (by rw [he, List.append_assoc]; rfl)
      looks (by rw [List.length_cons] at hl; omega)
    rw [extent_append, extent_cons, show extent [] = 0 from rfl, Nat.add_zero] at hnext
    rw [linesAt, hat.lineAt_eq]
    simp only [bind, Except.bind, hat.nextLine_eq, hnext]
    rfl

theorem linesFrom_eq (hm : m.Layout) (hh : m.Holds l) (number : UInt16) :
    m.linesFrom number = .ok (l.onward number) := by
  have hlen : (l.onward number).length ≤ m.programEnd := by
    rw [hh.programEnd_eq]
    exact Nat.le_trans (List.length_filter_le _ _) (length_le_extent _)
  rw [linesFrom, findLine_eq hm hh]
  exact linesAt_eq hm hh _ (l.below_append_onward number).symm _ hlen

theorem lines_eq (hm : m.Layout) (hh : m.Holds l) : m.lines = .ok l.lines := by
  rw [lines, linesFrom_eq hm hh]
  refine congrArg Except.ok (List.filter_eq_self.2 fun line _ => ?_)
  exact decide_eq_true (UInt16.zero_le)

theorem free_eq_extent (hm : m.Layout) (hh : m.Holds l) :
    m.free = .ok (m.variablesBegin - extent l.lines) := by
  rw [hm.free_eq, hh.programEnd_eq]

end LineBasic.Memory
