import LineBasic.Proofs.Store

namespace LineBasic

/-- The bytes that stand two behind the addresses inside the record of a line, one for each: the
text, the marker and the number of the line that follows. The last line has none for its last two
addresses. -/
def Line.lengthsInside (line : Line) (after : List Line) : List UInt8 :=
  line.text ++ Byte.marker :: (after.take 1).flatMap fun next => wordBytes next.number

theorem Line.lengthsInside_prefix (line : Line) (after : List Line) :
    line.lengthsInside after <+: line.text ++ Byte.marker :: records after := by
  cases after with
  | nil => exact List.prefix_refl _
  | cons next rest =>
    refine ⟨UInt8.ofNat (next.text.length + 4) :: next.text ++ [Byte.marker] ++ records rest, ?_⟩
    simp [lengthsInside, records_cons, Line.record]

theorem Line.length_lengthsInside (line : Line) (after : List Line) :
    (line.lengthsInside after).length = line.text.length + 1 + 2 * min 1 after.length := by
  cases after with
  | nil => simp [lengthsInside]
  | cons next rest => simp [lengthsInside, length_wordBytes]

namespace Listing
variable {l : Listing} {before after : List Line} {line : Line} {address length offset : Nat}

/-- At an address inside a line a record of this length seems to begin. -/
def Resembles (l : Listing) (address length : Nat) : Prop :=
  ∃ before line after offset b, l.lines = before ++ line :: after ∧
    address = extent before + (offset + 1) ∧
    (line.lengthsInside after)[offset]? = some b ∧ length = b.toNat ∧ 4 ≤ length ∧
    address + length ≤ extent l.lines

/-- The line that the bytes of a program give when they are read as a record of this length. -/
def lineRead (l : Listing) (address length : Nat) : Line where
  number := word ((records l.lines).getD address 0) ((records l.lines).getD (address + 1) 0)
  text := ((records l.lines).drop (address + 3)).take (length - 4)

/-- Every address of a program lies in the record of a line. -/
theorem exists_record (lines : List Line) (h : address < extent lines) :
    ∃ before line after offset, lines = before ++ line :: after ∧ address = extent before + offset ∧
      offset < line.text.length + 4 := by
  induction lines generalizing address with
  | nil => exact absurd h (Nat.not_lt_zero _)
  | cons line rest ih =>
    by_cases hl : address < line.text.length + 4
    · exact ⟨[], line, rest, address, rfl, (Nat.zero_add _).symm, hl⟩
    · rw [extent_cons] at h
      obtain ⟨before, next, after, offset, rfl, he, ho⟩ :=
        ih (show address - (line.text.length + 4) < _ by omega)
      exact ⟨line :: before, next, after, offset, rfl, by rw [extent_cons]; omega, ho⟩

theorem not_startsAt_inside (he : l.lines = before ++ line :: after)
    (ho : offset < line.text.length + 3) (other : Line) :
    ¬ l.StartsAt other (extent before + (offset + 1)) := by
  rintro ⟨before', after', he', ha⟩
  rw [he] at he'
  rcases List.append_eq_append_iff.1 he' with ⟨between, rfl, hrest⟩ | ⟨between, rfl, -⟩
  · cases between with
    | nil =>
      rw [List.append_nil] at ha
      omega
    | cons first rest =>
      obtain ⟨rfl, -⟩ := List.cons.inj hrest
      rw [extent_append, extent_cons] at ha
      omega
  · rw [extent_append] at ha
    omega

/-- Except at the end of the program a byte stands two behind every address inside a line. -/
theorem exists_lengthInside (he : l.lines = before ++ line :: after)
    (ho : offset < line.text.length + 3)
    (hend : extent before + (offset + 1) + 3 < extent l.lines) : ∃ b,
      (line.lengthsInside after)[offset]? = some b := by
  suffices hlt : offset < (line.lengthsInside after).length from ⟨_, List.getElem?_eq_getElem hlt⟩
  rw [he, extent_append, extent_cons] at hend
  rw [line.length_lengthsInside]
  cases after with
  | nil =>
    rw [show extent [] = 0 from rfl] at hend
    omega
  | cons next rest =>
    rw [List.length_cons]
    omega

theorem Resembles.not_startsAt (h : l.Resembles address length) (other : Line) :
    ¬ l.StartsAt other address := by
  obtain ⟨before, line, after, offset, b, he, rfl, hb, -⟩ := h
  obtain ⟨hlt, -⟩ := List.getElem?_eq_some_iff.1 hb
  rw [line.length_lengthsInside] at hlt
  exact not_startsAt_inside he (by omega) other

/-- The marker of a line passes for the length of a record of ten bytes. -/
theorem resembles_marker (he : l.lines = before ++ line :: after) (ha : 7 ≤ extent after) :
    l.Resembles (extent before + (line.text.length + 1)) 10 := by
  have hmarker : (line.lengthsInside after)[line.text.length]? = some Byte.marker := by
    simp [Line.lengthsInside]
  refine ⟨before, line, after, _, _, he, rfl, hmarker, rfl, by decide, ?_⟩
  rw [he, extent_append, extent_cons]
  omega

end Listing

namespace Memory
variable {m : Memory} {l : Listing} {frames : List Frame} {before after : List Line} {line : Line}
  {address length offset : Nat} {b : UInt8}

theorem Holds.getElem?_eq (hh : m.Holds l) (h : address < m.programEnd) :
    m.ram[address]? = (records l.lines)[address]? := by
  have hbyte := hh.stands address (by rw [length_records, ← hh.programEnd_eq]; exact h)
  rwa [Nat.zero_add] at hbyte

theorem Holds.readByte_eq (hh : m.Holds l) (h : address < m.programEnd) :
    m.readByte address = .ok ((records l.lines).getD address 0) := by
  have hlt : address < (records l.lines).length := by rwa [length_records, ← hh.programEnd_eq]
  refine readByte_of_some ?_
  rw [hh.getElem?_eq h, List.getD_eq_getElem?_getD, List.getElem?_eq_getElem hlt]
  rfl

/-- Two bytes behind an address inside a line stands what its length would be. -/
theorem Holds.length_inside (hh : m.Holds l) (he : l.lines = before ++ line :: after)
    (hb : (line.lengthsInside after)[offset]? = some b) :
    m.ram[extent before + (offset + 1) + 2]? = some b := by
  obtain ⟨rest, hrest⟩ := line.lengthsInside_prefix after
  have hrecords : records l.lines = records before ++
      ((wordBytes line.number ++ [UInt8.ofNat (line.text.length + 4)]) ++
        (line.lengthsInside after ++ rest)) := by
    rw [he, hrest]
    simp [records_append, records_cons, Line.record]
  have hs := hh.stands
  rw [hrecords] at hs
  obtain ⟨-, hrecord⟩ := stands_append.1 hs
  obtain ⟨-, hbehind⟩ := stands_append.1 hrecord
  obtain ⟨hinside, -⟩ := stands_append.1 hbehind
  obtain ⟨hlt, -⟩ := List.getElem?_eq_some_iff.1 hb
  rw [← hb, ← hinside offset hlt, List.length_append, length_wordBytes, List.length_singleton,
    length_records]
  congr 1
  omega

/-- Where no record seems to begin there is no line, and the search goes on at the end of the
program. -/
theorem lineAt_nextLine_of_none (h : m.recordAt address = .ok none) :
    m.lineAt address = .ok none ∧ m.nextLine address = .ok m.programEnd := by
  rw [lineAt, nextLine, h]
  exact ⟨rfl, rfl⟩

/-- Where a record seems to begin its bytes are read as a line. -/
theorem Sound.lineAt_nextLine_of_some (h : m.Sound l frames)
    (hr : m.recordAt address = .ok (some length)) (hge : 4 ≤ length)
    (hle : address + length ≤ m.programEnd) :
    m.lineAt address = .ok (some (l.lineRead address length)) ∧
    m.nextLine address = .ok (address + length) := by
  have hh := h.holds
  have hsize := h.programEnd_le
  have hnumber : m.lineNumberAt address = .ok (l.lineRead address length).number := by
    rw [lineNumberAt, readWord, hh.readByte_eq (by omega), hh.readByte_eq (by omega)]
    rfl
  have hlength : (l.lineRead address length).text.length = length - 4 := by
    rw [Listing.lineRead, List.length_take, List.length_drop, length_records, ← hh.programEnd_eq]
    omega
  have hstands : Stands m.ram (address + 3) (l.lineRead address length).text := by
    intro i hi
    rw [hh.getElem?_eq (by omega), Listing.lineRead, List.getElem?_take_of_lt (by omega),
      List.getElem?_drop]
  have htext : m.slice (textStart address) (address + length - 1) = .ok
      (l.lineRead address length).text := by
    have hstart : textStart address = address + 3 := rfl
    rw [slice_eq m (by omega) (by omega), hstart]
    exact congrArg Except.ok (hstands.extract_eq (by omega) (by show _ ≤ m.size; omega))
  rw [lineAt, nextLine, hr]
  simp only [bind, Except.bind, hnumber, htext]
  exact ⟨rfl, rfl⟩

theorem Sound.lineAt_of_resembles (h : m.Sound l frames) (hl : l.Resembles address length) :
    m.lineAt address = .ok (some (l.lineRead address length)) ∧
    m.nextLine address = .ok (address + length) := by
  obtain ⟨before, line, after, offset, b, he, rfl, hb, rfl, hge, hle⟩ := hl
  rw [← h.holds.programEnd_eq] at hle
  have hr := recordAt_of_byte (h.holds.length_inside he hb)
  rw [if_pos ⟨hge, hle⟩] at hr
  exact h.lineAt_nextLine_of_some hr hge hle

/-- An address at which no line begins, and no record seems to, holds none. -/
theorem Sound.lineAt_elsewhere (h : m.Sound l frames) (hs : ∀ line, ¬ l.StartsAt line address)
    (hl : ∀ length, ¬ l.Resembles address length) :
    m.lineAt address = .ok none ∧ m.nextLine address = .ok m.programEnd := by
  apply lineAt_nextLine_of_none
  have hextent := h.holds.programEnd_eq
  by_cases hend : m.programEnd ≤ address + 3
  · exact if_pos hend
  · obtain ⟨before, line, after, offset, he, rfl, ho⟩ := Listing.exists_record l.lines
      (show address < extent l.lines by omega)
    cases offset with
    | zero => exact absurd ⟨before, after, he, rfl⟩ (hs line)
    | succ offset =>
      obtain ⟨b, hb⟩ := Listing.exists_lengthInside he (show offset < line.text.length + 3 by omega)
        (by omega)
      rw [recordAt_of_byte (h.holds.length_inside he hb), if_neg]
      rintro ⟨hge, hle⟩
      rw [hextent] at hle
      exact hl _ ⟨before, line, after, offset, b, he, rfl, hb, rfl, hge, hle⟩

/-- Looking a line up by its address, in every program that `upsert` leads to. Where a line begins
it is found, and the next one behind it. Where a record seems to begin inside a line, what the bytes
there are read as is found. Everywhere else, the end of the program and what lies beyond included,
no line is found, and the next one is taken to be the end of the program. That is so up to the last
address whose record header 64 bits can count past. A line that seven more bytes of program follow
always has an address inside where a record seems to begin. -/
theorem lookup_by_address {ramSize stackFrames : UInt64}
    (h : Upserted (create ramSize stackFrames) m) :
    ∃ l, m.Represents l ∧
      (∀ line address, l.StartsAt line address →
        m.lineAt address = .ok (some line) ∧ m.nextLine address = .ok
          (address + line.record.length)) ∧
      (∀ address length, l.Resembles address length → (∀ line, ¬ l.StartsAt line address) ∧
        m.lineAt address = .ok (some (l.lineRead address length)) ∧
        m.nextLine address = .ok (address + length)) ∧
      (∀ address, address + lineHeader < UInt64.size → (∀ line, ¬ l.StartsAt line address) →
        (∀ length, ¬ l.Resembles address length) →
        m.lineAt address = .ok none ∧ m.nextLine address = .ok m.programEnd) ∧
      (∀ address, m.programEnd ≤ address →
        (∀ line, ¬ l.StartsAt line address) ∧ ∀ length, ¬ l.Resembles address length) ∧
      ∀ before line after, l.lines = before ++ line :: after → 7 ≤ extent after →
        l.Resembles (extent before + (line.text.length + 1)) 10 := by
  obtain ⟨l, frames, hsound⟩ := h.exists_sound
  have hend := hsound.holds.programEnd_eq
  refine ⟨l, hsound.represents, fun line address hl => ?_, fun address length hl => ?_,
    fun address _ hs hl => ?_,
    fun address hpast => ⟨fun line hl => ?_, fun length hl => ?_⟩, fun before line after he ha =>
      ?_⟩
  · have hat : LineAt m l line address := ⟨hl, hsound.holds, hsound.layout⟩
    rw [line.length_record]
    exact ⟨hat.lineAt_eq, hat.nextLine_eq⟩
  · exact ⟨hl.not_startsAt, hsound.lineAt_of_resembles hl⟩
  · exact hsound.lineAt_elsewhere hs hl
  · have hle := hl.end_le
    omega
  · obtain ⟨-, -, -, -, -, -, -, -, -, hge, hle⟩ := hl
    omega
  · exact Listing.resembles_marker he ha

theorem exists_two_statements :
    ∃ m l frames, Upserted (create 1024 5) m ∧ m.Sound l frames ∧ m.programEnd = 26 ∧
    l.lines = [⟨1, ascii "A=1:B=2:C=3"⟩, ⟨2, ascii "PRINT 2"⟩] := by
  have hfirst : Storable 1 (ascii "A=1:B=2:C=3") := by decide
  have hsecond : Storable 2 (ascii "PRINT 2") := by decide
  obtain ⟨m, l, frames, hm, hsound, -, hlines⟩ :=
    Upserted.exists_two 1024 5 hfirst hsecond (by decide) (by decide) (by decide)
  refine ⟨m, l, frames, hm, hsound, ?_, hlines⟩
  rw [hsound.holds.programEnd_eq, hlines]
  decide

/-- The second line is found where it begins. Inside the first, an `A` that is taken for a length
reaches past the end of the program, where no line is found either. -/
theorem lookup_by_address_of_two : ∃ m, Upserted (create 1024 5) m ∧
    m.lineAt 15 = .ok (some ⟨2, ascii "PRINT 2"⟩) ∧ m.nextLine 15 = .ok 26 ∧
    m.lineAt 1 = .ok none ∧ m.nextLine 1 = .ok 26 ∧ m.lineAt 26 = .ok none ∧
    m.nextLine 26 = .ok 26 := by
  obtain ⟨m, l, frames, hm, hsound, hend, hlines⟩ := exists_two_statements
  obtain ⟨l', hrepresents, hstarts, -, helsewhere, hpast, -⟩ := lookup_by_address hm
  obtain rfl := hsound.represents.eq hrepresents
  obtain ⟨hfound, hbehind⟩ := hstarts ⟨2, ascii "PRINT 2"⟩ 15
    ⟨[⟨1, ascii "A=1:B=2:C=3"⟩], [], hlines, by decide⟩
  have hstart : ∀ line, ¬ l'.StartsAt line 1 :=
    Listing.not_startsAt_inside (show _ = [] ++ _ from hlines) (Nat.zero_lt_succ _)
  have hlookalike : ∀ length, ¬ l'.Resembles 1 length := by
    -- What is taken for a length here is the first byte of the text, and 65 is too long.
    rintro length ⟨before, line, after, offset, b, he, ha, hb, rfl, -, hle⟩
    rw [hlines] at he hle
    cases before with
    | nil =>
      obtain ⟨rfl, rfl⟩ := List.cons.inj he
      obtain rfl : offset = 0 := by
        rw [show extent [] = 0 from rfl] at ha
        omega
      obtain rfl : b = byte 'A' := (Option.some.inj hb).symm
      exact absurd hle (by decide)
    | cons first rest =>
      rw [extent_cons] at ha
      omega
  obtain ⟨hinside, hinside'⟩ := helsewhere 1 (by decide) hstart hlookalike
  obtain ⟨hstart', hlookalike'⟩ := hpast 26 (by omega)
  obtain ⟨hnone, hnone'⟩ := helsewhere 26 (by decide) hstart' hlookalike'
  rw [hend] at hinside' hnone'
  exact ⟨m, hm, hfound, hbehind, hinside, hinside', hnone, hnone'⟩

/-- The marker of the first line, which is ten, is taken for the length of a record that begins with
the last two letters of its text. -/
theorem lookup_misled_by_marker : ∃ m, Upserted (create 1024 5) m ∧
    m.lines = .ok [⟨1, ascii "A=1:B=2:C=3"⟩, ⟨2, ascii "PRINT 2"⟩] ∧ m.programEnd = 26 ∧
    (∀ l, m.Represents l → ∀ line, ¬ l.StartsAt line 12) ∧
    m.lineAt 12 = .ok (some ⟨13117, [2, 0, 11] ++ ascii "PRI"⟩) ∧ m.nextLine 12 = .ok 22 := by
  obtain ⟨m, l, frames, hm, hsound, hend, hlines⟩ := exists_two_statements
  have hlookalike : l.Resembles 12 10 := Listing.resembles_marker
    (show _ = [] ++ _ from hlines) (by decide)
  have hread : l.lineRead 12 10 = ⟨13117, [2, 0, 11] ++ ascii "PRI"⟩ := by
    rw [Listing.lineRead, hlines]
    decide
  obtain ⟨hline, hnext⟩ := hsound.lineAt_of_resembles hlookalike
  rw [hread] at hline
  refine ⟨m, hm, hlines ▸ lines_eq hsound.layout hsound.holds, hend, fun l' hrepresents => ?_,
    hline, hnext⟩
  obtain rfl := hsound.represents.eq hrepresents
  exact hlookalike.not_startsAt

end Memory
end LineBasic
