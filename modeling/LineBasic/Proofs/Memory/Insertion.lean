import LineBasic.Proofs.Memory.Records

namespace LineBasic.Memory

/-- What opening a hole for a record leaves: the record in the hole, and the bytes from the hole to
the end of the program after it. -/
structure Opened (ram ram' : Array UInt8) (programEnd record hole length : Nat) : Prop where
  size : ram'.size = ram.size
  below : ∀ i < hole, ram'[i]? = ram[i]?
  placed : ∀ i < length, ram'[hole + i]? = ram[record + i]?
  shifted : ∀ i, hole ≤ i → i < programEnd → ram'[i + length]? = ram[i]?
  above : ∀ i, record + length ≤ i → ram'[i]? = ram[i]?

def round (ram : Array UInt8) (programEnd record hole space : Nat) : Array UInt8 :=
  moved (moved ram hole programEnd (hole + space)) record (record + space) hole

section
variable {ram : Array UInt8} {programEnd record hole space : Nat}
  (hh : hole ≤ programEnd) (hg : programEnd + space ≤ record) (hs : record + space ≤ ram.size)
include hh hg hs

theorem getElem?_round (i : Nat) :
    (round ram programEnd record hole space)[i]? =
      if hole ≤ i ∧ i < hole + space then ram[record + (i - hole)]?
      else if hole + space ≤ i ∧ i < programEnd + space then ram[i - space]?
      else ram[i]? := by
  have hfirst (j : Nat) := getElem?_moved ram hole programEnd (hole + space) j (by omega) (by omega)
  rw [round, getElem?_moved _ _ _ _ _ (by rw [size_moved]; exact hs) (by rw [size_moved]; omega),
    hfirst, hfirst]
  by_cases hp : hole ≤ i ∧ i < hole + space
  · rw [if_pos (by omega), if_pos hp, if_neg (by omega)]
  · rw [if_neg (by omega), if_neg hp]
    by_cases ht : hole + space ≤ i ∧ i < programEnd + space
    · rw [if_pos (by omega), if_pos ht, show hole + (i - (hole + space)) = i - space by omega]
    · rw [if_neg (by omega), if_neg ht]

/-- A round moves its part of the record and leaves the rest of the record alone. -/
theorem opened_round :
    Opened ram (round ram programEnd record hole space) programEnd record hole space := by
  have hget := getElem?_round hh hg hs
  refine ⟨by rw [round, size_moved, size_moved], fun i hi => ?_, fun i hi => ?_, fun i hi hp => ?_,
    fun i hi => ?_⟩
  · rw [hget, if_neg (by omega), if_neg (by omega)]
  · rw [hget, if_pos (by omega), Nat.add_sub_cancel_left]
  · rw [hget, if_neg (by omega), if_pos (by omega), Nat.add_sub_cancel]
  · rw [hget, if_neg (by omega), if_neg (by omega)]

end

theorem Opened.trans {ram ram₁ ram₂ : Array UInt8} {programEnd record hole space length : Nat}
    (h : Opened ram ram₁ programEnd record hole space)
    (hkept : ∀ i, record ≤ i → ram₁[i]? = ram[i]?)
    (h' : Opened ram₁ ram₂ (programEnd + space) (record + space) (hole + space) (length - space))
    (hl : space ≤ length) : Opened ram ram₂ programEnd record hole length := by
  refine ⟨h'.size.trans h.size, fun i hi => ?_, fun i hi => ?_, fun i hi hp => ?_, fun i hi => ?_⟩
  · rw [h'.below i (by omega), h.below i hi]
  · by_cases hi' : i < space
    · rw [h'.below _ (by omega), h.placed i hi']
    · have hp := h'.placed (i - space) (by omega)
      rw [show hole + space + (i - space) = hole + i by omega,
        show record + space + (i - space) = record + i by omega] at hp
      rw [hp, hkept _ (by omega)]
  · have hlate := h'.shifted (i + space) (by omega) (by omega)
    rw [show i + space + (length - space) = i + length by omega] at hlate
    rw [hlate, h.shifted i hi hp]
  · rw [h'.above i (by omega), hkept i (by omega)]

theorem opened_zero (ram : Array UInt8) (programEnd record hole : Nat) :
    Opened ram ram programEnd record hole 0 :=
  ⟨rfl, fun _ _ => rfl, fun _ hi => absurd hi (Nat.not_lt_zero _), fun _ _ _ => rfl, fun _ _ => rfl⟩

/-- One round of the loop. It moves as much of the record as the gap holds, and leaves the gap as
wide as it was for the rest of the record. -/
theorem openHole_succ {length record hole : Nat} {m : Memory} (rounds : Nat) (hl : 0 < length)
    (hh : hole ≤ m.programEnd) (hg : m.programEnd < record) (hs : record + length ≤ m.size) :
    let space := min (record - m.programEnd) length
    openHole (rounds + 1) length record hole m =
      openHole rounds (length - space) (record + space) (hole + space)
        { m with ram := round m.ram m.programEnd record hole space, programEnd :=
          m.programEnd + space } := by
  intro space
  have hlength : space ≤ length := Nat.min_le_right _ _
  have hfirst := move_eq m (hole + space) hh (by omega) (by omega)
  have hsize : (moved m.ram hole m.programEnd (hole + space)).size = m.size := size_moved _ _ _ _
  have hsecond := move_eq { m with ram := moved m.ram hole m.programEnd (hole + space) } hole
    (Nat.le_add_right record space) (by show _ ≤ (moved _ _ _ _).size; omega)
    (by show _ ≤ (moved _ _ _ _).size; omega)
  rw [openHole, if_neg (Nat.ne_of_gt hl)]
  refine (bind_of_ok (reading_of_ok (difference_of_le (Nat.le_of_lt hg)))).trans ?_
  exact (bind_of_ok hfirst).trans (bind_of_ok hsecond)

/-- A record on its way into the hole: so many of its bytes have been placed, the others stand where
they were, and the gap between them and the program is as wide as it was. -/
structure HalfMoved (m m' : Memory) (record hole moved : Nat) : Prop where
  opened : Opened m.ram m'.ram m.programEnd record hole moved
  others_eq : m' = { m with ram := m'.ram, programEnd := m.programEnd + moved }
  gap_eq : record + moved - m'.programEnd = record - m.programEnd

/-- After any number of rounds the record is half-moved, each of them has moved as many bytes as the
gap holds, and the loop goes on with the rest of the record. -/
theorem openHole_rounds (rounds length record hole : Nat) (m : Memory) (hh : hole ≤ m.programEnd)
    (hg : m.programEnd < record) (hs : record + length ≤ m.size) :
    let moved := min (rounds * (record - m.programEnd)) length
    ∃ m', HalfMoved m m' record hole moved ∧
      ∀ more, openHole (rounds + more) length record hole m =
        openHole more (length - moved) (record + moved) (hole + moved) m' := by
  induction rounds generalizing length record hole m with
  | zero =>
    rw [Nat.zero_mul, Nat.zero_min]
    exact ⟨m, ⟨opened_zero _ _ _ _, rfl, rfl⟩, fun more => by rw [Nat.zero_add]; rfl⟩
  | succ rounds ih =>
    by_cases hz : length = 0
    · subst hz
      rw [Nat.min_zero]
      exact ⟨m, ⟨opened_zero _ _ _ _, rfl, rfl⟩, fun more => by rw [Nat.succ_add]; cases more
        <;> rfl⟩
    have hround (more : Nat) := openHole_succ (rounds + more) (Nat.pos_of_ne_zero hz) hh hg hs
    generalize hspace : min (record - m.programEnd) length = space at hround
    have hfits : record + space ≤ m.ram.size := by
      show _ ≤ m.size
      omega
    have hfirst : Opened m.ram (round m.ram m.programEnd record hole space) m.programEnd record
        hole space :=
      opened_round hh (by omega) hfits
    have hkept (i : Nat) (hi : record ≤ i) :
        (round m.ram m.programEnd record hole space)[i]? = m.ram[i]? := by
      rw [getElem?_round hh (by omega) hfits, if_neg (by omega), if_neg (by omega)]
    have hgap : record + space - (m.programEnd + space) = record - m.programEnd :=
      Nat.add_sub_add_right _ _ _
    obtain ⟨m', ⟨hopened, hothers, hgap'⟩, hrest⟩ :=
      ih (length - space) (record + space) (hole + space)
      { m with
        ram := round m.ram m.programEnd record hole space
        programEnd := m.programEnd + space }
      (by show _ ≤ m.programEnd + space; omega) (by show m.programEnd + space < _; omega)
      (by show _ ≤ (round _ _ _ _ _).size; rw [hfirst.size]; show _ ≤ m.size; omega)
    dsimp only at hopened hothers hgap' hrest
    rw [hgap] at hopened hothers hgap' hrest
    -- What the first round moves and what the others move is what all of them move.
    have hsum : min ((rounds + 1) * (record - m.programEnd)) length =
        space + min (rounds * (record - m.programEnd)) (length - space) := by
      rw [Nat.succ_mul]
      omega
    generalize min (rounds * (record - m.programEnd)) (length - space) = later at *
    rw [hsum]
    refine ⟨m', ⟨?_, ?_, ?_⟩, fun more => ?_⟩
    · have hopened' := hopened
      rw [show later = space + later - space from (Nat.add_sub_cancel_left space
        later).symm] at hopened'
      exact hfirst.trans hkept hopened' (Nat.le_add_right _ _)
    · rw [hothers, ← Nat.add_assoc]
    · rw [← Nat.add_assoc, hgap']
    · rw [show rounds + 1 + more = rounds + more + 1 by omega, hround, hrest, Nat.sub_sub,
        Nat.add_assoc,
        Nat.add_assoc]

/-- The rounds move the whole record, however small the gap below it is. -/
theorem openHole_eq (rounds length record hole : Nat) (m : Memory) (hr : length ≤ rounds)
    (hh : hole ≤ m.programEnd) (hg : m.programEnd < record) (hs : record + length ≤ m.size) :
    ∃ ram, openHole rounds length record hole m =
        .ok () { m with ram, programEnd := m.programEnd + length } ∧
      Opened m.ram ram m.programEnd record hole length := by
  obtain ⟨m', ⟨hopened, hothers, -⟩, hrest⟩ := openHole_rounds rounds length record hole m hh hg hs
  have hall : min (rounds * (record - m.programEnd)) length = length :=
    Nat.min_eq_right (Nat.le_trans hr (Nat.le_mul_of_pos_right _ (by omega)))
  rw [hall] at hopened hothers hrest
  refine ⟨m'.ram, ?_, hopened⟩
  rw [← hothers]
  exact hrest 0

/-- A text staged for the line store: it ends with its marker below the variables and has room
for a header before it. -/
structure Staged (m : Memory) (number : UInt16) (text : List UInt8) (body : Nat) : Prop where
  storable : Storable number text
  room : m.programEnd + 4 ≤ body
  body_eq : body + text.length + 1 = m.variablesBegin
  stands : Stands m.ram body (text ++ [Byte.marker])

/-- What an edit that goes through leaves: another program, no frames, and all from the variables
on as it was. -/
structure Edited (m m' : Memory) (l : Listing) : Prop where
  layout : m'.Layout
  holds : m'.Holds l
  above : Agree m.ram m'.ram m.variablesBegin m.size
  variablesBegin_eq : m'.variablesBegin = m.variablesBegin
  stackLimit_eq : m'.stackLimit = m.stackLimit
  size_eq : m'.size = m.size
  stackTop_eq : m'.stackTop = m'.size

/-- Taking a record out of the program leaves what was before and after it. -/
theorem dropRecord_eq {front gone back : List UInt8} {m : Memory}
    (hp : m.programEnd = (front ++ gone ++ back).length) (hs : m.programEnd ≤ m.size)
    (h : Stands m.ram 0 (front ++ gone ++ back)) :
    ∃ ram, dropRecord front.length gone.length m =
        .ok () { m with ram, programEnd := (front ++ back).length } ∧
      ram.size = m.ram.size ∧ Stands ram 0 (front ++ back) ∧
      ∀ i, m.programEnd ≤ i → ram[i]? = m.ram[i]? := by
  simp only [List.length_append] at hp ⊢
  obtain ⟨hfg, hback⟩ := stands_append.1 h
  obtain ⟨hfront, -⟩ := stands_append.1 hfg
  -- Nothing is moved where there is nothing to take out, as the code tests for it first.
  by_cases hz : 0 < gone.length
  · have hmove := move_eq m front.length (show front.length + gone.length ≤ m.programEnd by omega)
      hs
      (by omega)
    have hget (i : Nat) := getElem?_moved m.ram (front.length + gone.length) m.programEnd
      front.length i
      hs (by show _ ≤ m.size; omega)
    refine ⟨moved m.ram (front.length + gone.length) m.programEnd front.length, ?_,
      size_moved _ _ _ _,
      stands_append.2 ⟨fun i hi => ?_, fun i hi => ?_⟩, fun i hi => ?_⟩
    · rw [dropRecord, if_pos hz]
      refine (bind_of_ok (show (get : Update Memory) m = .ok m m from rfl)).trans
        ((bind_of_ok hmove).trans ?_)
      rw [show front.length + back.length = m.programEnd - gone.length by omega]
      rfl
    · rw [hget, if_neg (by omega), hfront i hi]
    · rw [hget, if_pos (by omega), ← hback i hi, List.length_append]
      congr 1
      omega
    · rw [hget, if_neg (by omega)]
  · obtain rfl : gone = [] := List.length_eq_zero_iff.1 (by omega)
    rw [List.append_nil] at h
    refine ⟨m.ram, ?_, rfl, h, fun i _ => rfl⟩
    rw [dropRecord, if_neg hz, ← show m.programEnd = front.length + back.length by
      rw [hp, List.length_nil, Nat.add_zero]]
    rfl

/-- A record below the variables goes into the hole between two parts of the program. -/
theorem openHole_stands {front back record : List UInt8} {m : Memory} {start : Nat}
    (hp : m.programEnd = (front ++ back).length) (h : Stands m.ram 0 (front ++ back))
    (hg : m.programEnd < start) (hr : Stands m.ram start record)
    (hs : start + record.length ≤ m.size) :
    ∃ ram, openHole record.length record.length start front.length m =
        .ok () { m with ram, programEnd := m.programEnd + record.length } ∧
      ram.size = m.ram.size ∧ Stands ram 0 (front ++ record ++ back) ∧
      ∀ i, start + record.length ≤ i → ram[i]? = m.ram[i]? := by
  rw [List.length_append] at hp
  obtain ⟨ram, hopen, ho⟩ := openHole_eq _ _ _ front.length m (Nat.le_refl record.length)
    (by omega) hg hs
  obtain ⟨hfront, hback⟩ := stands_append.1 h
  rw [Nat.zero_add] at hback
  refine ⟨ram, hopen, ho.size, stands_append.2 ⟨stands_append.2 ⟨fun i hi => ?_, fun i hi => ?_⟩,
    fun i hi => ?_⟩, ho.above⟩
  · rw [ho.below _ (by omega), hfront i hi]
  · rw [Nat.zero_add, ho.placed i hi, hr i hi]
  · have hshift := ho.shifted (front.length + i) (by omega) (by omega)
    rw [← hback i hi, ← hshift, List.length_append]
    congr 1
    omega

/-- With its header the staged text is the record of the line, and it goes into the hole. -/
theorem placeRecord_eq {front back text : List UInt8} {m : Memory} (number : UInt16) (start : Nat)
    (hp : m.programEnd = (front ++ back).length) (h : Stands m.ram 0 (front ++ back))
    (hg : m.programEnd < start) (ht : Stands m.ram (start + 3) (text ++ [Byte.marker]))
    (hs : start + text.length + 4 ≤ m.size) :
    ∃ ram, placeRecord number start (text.length + 4) front.length m =
        .ok () { m with ram, programEnd := m.programEnd + (text.length + 4) } ∧
      ram.size = m.ram.size ∧ Stands ram 0 (front ++ Line.record ⟨number, text⟩ ++ back) ∧
      ∀ i, start + text.length + 4 ≤ i → ram[i]? = m.ram[i]? := by
  have hheader : (wordBytes number ++ [UInt8.ofNat (text.length + 4)]).length = 3 := rfl
  have hfits : start + (wordBytes number ++ [UInt8.ofNat (text.length + 4)]).length ≤
      m.ram.size := by
    show _ ≤ m.size
    omega
  have hrecord : Stands (overwrite m.ram start (wordBytes number ++
    [UInt8.ofNat (text.length + 4)])) start
      (Line.record ⟨number, text⟩) := by
    rw [show Line.record ⟨number, text⟩ =
      (wordBytes number ++ [UInt8.ofNat (text.length + 4)]) ++ (text ++ [Byte.marker]) by
        simp [Line.record]]
    exact stands_append.2 ⟨stands_overwrite hfits,
      ht.congr (agree_overwrite_above hfits (Nat.le_of_eq (by rw [hheader])))⟩
  have hlength := Line.length_record ⟨number, text⟩
  -- The staged record now lies behind a gap, which is what the rounds of moving it need.
  obtain ⟨ram, hopen, hsize, hstands, habove⟩ := openHole_stands
    (m :=
      { m with ram := overwrite m.ram start (wordBytes number ++ [UInt8.ofNat (text.length + 4)]) })
    hp (h.congr (agree_overwrite_below hfits (by rw [Nat.zero_add, ← hp]; omega))) hg hrecord
    (by show _ ≤ (overwrite _ _ _).size; rw [size_overwrite, hlength]; show _ ≤ m.size; omega)
  rw [hlength] at hopen habove
  refine ⟨ram, (bind_of_ok (write_eq hfits)).trans hopen, hsize.trans (size_overwrite _ _ _),
    hstands,
    fun i hi => ?_⟩
  have hkept : Agree m.ram (overwrite m.ram start
    (wordBytes number ++ [UInt8.ofNat (text.length + 4)]))
      (start + 3) (i + 1) := agree_overwrite_above hfits (Nat.le_of_eq (by rw [hheader]))
  rw [habove i (by show _ ≤ i; omega), hkept i (by omega) (Nat.lt_succ_self i)]

section
variable {m : Memory} {l : Listing} {number : UInt16} {text : List UInt8} {body : Nat}

/-- The first byte of a staged text is the marker exactly if there is no text. -/
theorem Staged.exists_byte (h : Staged m number text body) :
    ∃ b, m.ram[body]? = some b ∧ (b = Byte.marker ↔ text = []) := by
  have hs := h.stands
  cases text with
  | nil => exact ⟨Byte.marker, (stands_cons.1 hs).1, by simp⟩
  | cons b rest =>
    refine ⟨b, (stands_cons.1 hs).1, ?_⟩
    have hne : b ≠ Byte.marker := fun he => h.storable.marker_notMem (he ▸ List.mem_cons_self)
    simp [hne]

/-- With room for the header and a record that is not too long, an edit passes its checks exactly if
the program it leads to keeps the reserve, whatever stands in the body. -/
theorem insertStaged_checked (hm : m.Layout) (hh : m.Holds l) (number : UInt16) {b : UInt8}
    (hroom : m.programEnd + 4 ≤ body) (hle : body ≤ m.variablesBegin)
    (hlength : m.variablesBegin - (body - 3) ≤ 255) (hb : m.ram[body]? = some b) :
    insertStaged number body m =
      if m.variablesBegin < extent (l.below number) + extent (l.above number) +
          (if b = Byte.marker then 0 else m.variablesBegin - (body - 3)) + 4 then
        .error (.error (.exhausted .programAreaFull)) m
      else applyEdit number (body - 3) (m.variablesBegin - (body - 3)) (extent (l.below number))
        (extent (l.same number)) (b = Byte.marker) m := by
  have hparts := l.extent_parts number
  rw [← hh.programEnd_eq] at hparts
  unfold insertStaged
  rw [bind_of_ok (show (get : Update Memory) m = .ok m m from rfl),
    bind_of_ok (show (get : Update Memory) m = .ok m m from rfl)]
  dsimp only
  rw [if_neg (by simp only [lineHeader]; omega),
    bind_of_ok (reading_of_ok (difference_of_le (by simp only [lineHeader]; omega))), lineHeader,
    if_neg (by simp only [maxRecordLength]; omega),
    bind_of_ok (reading_of_ok (findLine_eq hm hh number)),
    bind_of_ok (reading_of_ok (lengthOfLine_eq hm hh number)),
    bind_of_ok (reading_of_ok (readByte_of_some hb)),
    bind_of_ok (reading_of_ok (difference_of_le (by omega))),
    show m.programEnd - extent (l.same number) = extent (l.below number) + extent
      (l.above number) by omega,
    show entryReserve = 4 from rfl]
  by_cases hfull : m.variablesBegin < extent (l.below number) + extent (l.above number) +
      (if b = Byte.marker then 0 else m.variablesBegin - (body - 3)) + 4
  · rw [if_pos hfull, if_pos hfull]
    rfl
  · rw [if_neg hfull, if_neg hfull]

/-- An edit passes its checks exactly if the program it leads to keeps the reserve. -/
theorem insertStaged_eq (hm : m.Layout) (hh : m.Holds l) (hs : Staged m number text body) :
    insertStaged number body m =
      if m.variablesBegin < extent (l.put number text hs.storable).lines + 4 then
        .error (.error (.exhausted .programAreaFull)) m
      else applyEdit number (body - 3) (text.length + 4) (extent (l.below number))
        (extent (l.same number)) (text = []) m := by
  have hroom := hs.room
  have hbody := hs.body_eq
  have hlength := hs.storable.length_le
  obtain ⟨b, hb, hmarker⟩ := hs.exists_byte
  have hrecord : m.variablesBegin - (body - 3) = text.length + 4 := by omega
  rw [insertStaged_checked hm hh number hroom (by omega) (by omega) hb, hrecord, l.extent_put]
  simp only [hmarker]
  rw [show extent (l.below number) + extent (l.above number) +
    (if text = [] then 0 else text.length + 4) =
    extent (l.below number) + ((if text = [] then 0 else text.length + 4) +
      extent (l.above number)) by omega]

/-- Setting a line that is not there to no text changes nothing. -/
theorem put_eq_self (hs : Storable number []) (h : l.same number = []) :
    l.put number [] hs = l := by
  have hparts := l.below_append_same_append_above number
  rw [h, List.nil_append] at hparts
  exact Listing.ext hparts

theorem applyEdit_nothing {record length hole : Nat} :
    applyEdit number record length hole 0 true m = .ok { removed := false, stored := none } m := rfl

/-- What taking a line out of the program leaves: the lines around it, no frames, and all behind the
program as it was. -/
structure Dropped (m m' : Memory) (front back : List Line) : Prop where
  programEnd_eq : m'.programEnd = extent front + extent back
  stands : Stands m'.ram 0 (records front ++ records back)
  above : ∀ i, m.programEnd ≤ i → m'.ram[i]? = m.ram[i]?
  variablesBegin_eq : m'.variablesBegin = m.variablesBegin
  stackLimit_eq : m'.stackLimit = m.stackLimit
  size_eq : m'.size = m.size
  stackTop_eq : m'.stackTop = m'.size

/-- Before anything is placed the line is gone, and the frames with it. -/
theorem applyEdit_eq (hm : m.Layout) (hh : m.Holds l) (record length : Nat) {deletes : Bool}
    (hwork : (decide (0 < extent (l.same number)) || !deletes) = true) :
    ∃ m₁, Dropped m m₁ (l.below number) (l.above number) ∧
      applyEdit number record length (extent (l.below number)) (extent (l.same number)) deletes m =
        (if deletes then return { removed := 0 < extent (l.same number), stored := none }
          else do
            placeRecord number record length (extent (l.below number))
            return { removed := 0 < extent (l.same number), stored := some length } : Update Edit)
              m₁ := by
  have hsize := hm.variables_le_size
  have hreserve := hm.reserve
  have hstands := hh.stands
  have hparts := l.below_append_same_append_above number
  have hend : m.programEnd =
      (records (l.below number) ++ records (l.same number) ++ records (l.above number)).length := by
    rw [hh.programEnd_eq, ← hparts, extent_append, extent_append, List.length_append,
      List.length_append, length_records, length_records, length_records, Nat.add_assoc]
  rw [← hparts, records_append, records_append, ← List.append_assoc] at hstands
  obtain ⟨ram, hdrop, hram, hkept, habove⟩ := dropRecord_eq hend (by omega) hstands
  rw [length_records, length_records, List.length_append, length_records, length_records] at hdrop
  let m₁ : Memory := { m with
    ram
    programEnd := extent (l.below number) + extent (l.above number)
    stackTop := ram.size }
  refine ⟨m₁, ⟨rfl, hkept, habove, rfl, rfl, hram, rfl⟩, ?_⟩
  unfold applyEdit
  rw [bind_of_ok hdrop]
  simp only [hwork, if_true]
  rfl

namespace Dropped
variable {m₁ : Memory} (hd : Dropped m m₁ (l.below number) (l.above number)) (hm : m.Layout)
include hd hm

theorem top_ge : m.stackLimit ≤ m₁.stackTop := by
  rw [hd.stackTop_eq, hd.size_eq]
  exact Nat.le_trans hm.limit_le hm.top_le

theorem edited (hs : Storable number [])
    (hfit : extent (l.put number [] hs).lines + 4 ≤ m.variablesBegin) :
    Edited m m₁ (l.put number [] hs) := by
  have hput := l.extent_put number [] hs
  rw [if_pos rfl, Nat.zero_add, ← hd.programEnd_eq] at hput
  have hreserve := hm.reserve
  have hlayout := hm.of_regions hd.size_eq hd.variablesBegin_eq hd.stackLimit_eq (hput ▸ hfit)
    (hd.top_ge hm)
    (Nat.le_of_eq (hd.stackTop_eq.trans hd.size_eq))
  refine ⟨hlayout, ⟨hput.symm, ?_⟩, fun i hi _ => hd.above i (by omega), hd.variablesBegin_eq,
    hd.stackLimit_eq, hd.size_eq,
    hd.stackTop_eq⟩
  rw [l.lines_put, show Listing.entry number [] = [] from rfl, List.nil_append, records_append]
  exact hd.stands

theorem exists_placed (hs : Staged m number text body) (ht : text ≠ [])
    (hend : m₁.programEnd ≤ m.programEnd)
    (hfit : extent (l.put number text hs.storable).lines + 4 ≤ m.variablesBegin) :
    ∃ m₂, placeRecord number (body - 3) (text.length + 4) (extent (l.below number)) m₁ = .ok () m₂ ∧
      Edited m m₂ (l.put number text hs.storable) := by
  have hroom := hs.room
  have hbody := hs.body_eq
  have hbound : m.variablesBegin + 52 ≤ m₁.size := hd.size_eq ▸ hm.variables_le_size
  -- Taking the old line out has moved bytes of the program only, so the staged text still stands.
  have hagree : Agree m.ram m₁.ram body (body + (text ++ [Byte.marker]).length) :=
    fun i hi _ => hd.above i (by omega)
  have htext : Stands m₁.ram (body - 3 + 3) (text ++ [Byte.marker]) := by
    rw [show body - 3 + 3 = body by omega]
    exact hs.stands.congr hagree
  have hprogram : m₁.programEnd = (records (l.below number) ++
      records (l.above number)).length := by
    rw [hd.programEnd_eq, List.length_append, length_records, length_records]
  obtain ⟨ram, hplace, hram, hkept, habove⟩ := placeRecord_eq number (body - 3) hprogram
    hd.stands (by omega)
    htext (by omega)
  rw [length_records] at hplace
  have hput := l.extent_put number text hs.storable
  rw [if_neg ht] at hput
  have hprogram' := hd.programEnd_eq
  have hsize : ram.size = m.size := hram.trans hd.size_eq
  have htop : m₁.stackTop = ram.size := hd.stackTop_eq.trans hram.symm
  have hreserve : m₁.programEnd + (text.length + 4) + 4 ≤ m.variablesBegin := by omega
  refine ⟨_, hplace, hm.of_regions hsize hd.variablesBegin_eq hd.stackLimit_eq hreserve
    (hd.top_ge hm)
    (Nat.le_of_eq (htop.trans hsize)), ⟨?_, ?_⟩, fun i hi _ =>
      ?_, hd.variablesBegin_eq, hd.stackLimit_eq, hsize, htop⟩
  · show m₁.programEnd + (text.length + 4) = _
    omega
  · rw [l.lines_put, show Listing.entry number text = [⟨number, text⟩] from if_neg ht,
      records_append,
      records_append, ← List.append_assoc, show records [(⟨number, text⟩ : Line)] =
        _ from List.append_nil _]
    exact hkept
  · rw [habove i (by omega), ← hd.above i (by omega)]

end Dropped

/-- An edit that removes a line or stores one leads to the program with that line set. -/
theorem applyEdit_edited (hm : m.Layout) (hh : m.Holds l) (hs : Staged m number text body)
    (hfit : extent (l.put number text hs.storable).lines + 4 ≤ m.variablesBegin)
    (hwork : ¬ (l.same number = [] ∧ text = [])) :
    ∃ m', applyEdit number (body - 3) (text.length + 4) (extent (l.below number))
        (extent (l.same number)) (text = []) m =
          .ok { removed := 0 < extent (l.same number),
                stored := if text = [] then none else some (text.length + 4) } m' ∧
      Edited m m' (l.put number text hs.storable) := by
  -- The stack is emptied, since an edit that does some work takes a line out or puts one in.
  have hclear : (decide (0 < extent (l.same number)) || !decide (text = [])) = true := by
    rw [Bool.or_eq_true, decide_eq_true_iff, Bool.not_eq_true', decide_eq_false_iff_not]
    by_cases ht : text = []
    · refine Or.inl (Nat.lt_of_lt_of_le ?_ (length_le_extent _))
      exact List.length_pos_iff.2 fun hn => hwork ⟨hn, ht⟩
    · exact Or.inr ht
  obtain ⟨m₁, hd, hrun⟩ := applyEdit_eq hm hh (body - 3) (text.length + 4) hclear
  rw [hrun]
  by_cases ht : text = []
  · subst ht
    exact ⟨m₁, rfl, hd.edited hm hs.storable hfit⟩
  · have hparts := l.extent_parts number
    rw [← hh.programEnd_eq] at hparts
    have hend := hd.programEnd_eq
    obtain ⟨m₂, hplace, hedited⟩ := hd.exists_placed hm hs ht (by omega) hfit
    refine ⟨m₂, ?_, hedited⟩
    rw [if_neg (by rw [decide_eq_true_iff]; exact ht), if_neg ht]
    exact bind_of_ok hplace

end

end LineBasic.Memory
