import LineBasic.Proofs.Memory.Entry

namespace LineBasic.Memory
variable {m m' m₁ : Memory} {l : Listing} {number : UInt16} {body record hole length : Nat}

def bytesFrom (m : Memory) (first last : Nat) : List UInt8 :=
  (m.ram.extract first last).toList

theorem length_bytesFrom (m : Memory) (first : Nat) {last : Nat} (h : last ≤ m.size) :
    (m.bytesFrom first last).length = last - first :=
  length_extract m.ram first h

theorem stands_bytesFrom (m : Memory) (first last : Nat) :
    Stands m.ram first (m.bytesFrom first last) :=
  stands_extract

/-- How many rounds a record takes that goes through the gap in pieces. -/
def roundCount (length gap : Nat) : Nat :=
  (length + gap - 1) / gap

theorem roundCount_le_iff {gap rounds : Nat} (hg : 0 < gap) :
    roundCount length gap ≤ rounds ↔ length ≤ rounds * gap := by
  rw [roundCount, Nat.div_le_iff_le_mul_add_pred hg, Nat.mul_comm gap]
  omega

/-- A hole is opened at `hole` for the record at `record`, and the record is moved into it. -/
structure OpensHole (m m' : Memory) (record hole length : Nat) : Prop where
  /-- So many rounds leave the record half-moved, and the loop goes on with the rest of it. -/
  halfMoved : ∀ rounds, let moved := min (rounds * (record - m.programEnd)) length
    ∃ half, HalfMoved m half record hole moved ∧
      ∀ more, openHole (rounds + more) length record hole m =
        openHole more (length - moved) (record + moved) (hole + moved) half
  /-- Before the last round there is still something to move. -/
  unfinished : ∀ rounds < roundCount length (record - m.programEnd), rounds *
    (record - m.programEnd) < length
  /-- After it there is nothing, and further rounds would change nothing. -/
  ends : ∀ more, openHole (roundCount length (record - m.programEnd) + more) length record hole
    m = .ok () m'
  program : m'.bytesFrom 0 m'.programEnd =
    m.bytesFrom 0 hole ++ m.bytesFrom record (record + length) ++ m.bytesFrom hole m.programEnd
  above : ∀ i, record + length ≤ i → m'.ram[i]? = m.ram[i]?

section
variable (hh : hole ≤ m.programEnd) (hg : m.programEnd < record) (hs : record + length ≤ m.size)
include hh hg hs

/-- Once all of the record has moved, the program is what was before the hole, the record, and what
was behind it. -/
theorem HalfMoved.bytesFrom_eq (h : HalfMoved m m' record hole length) :
    m'.bytesFrom 0 m'.programEnd =
      m.bytesFrom 0 hole ++ m.bytesFrom record (record + length) ++ m.bytesFrom hole
      m.programEnd := by
  have hend : m'.programEnd = m.programEnd + length := congrArg programEnd h.others_eq
  have hfront := m.length_bytesFrom 0 (show hole ≤ m.size by omega)
  have hrecord := m.length_bytesFrom record hs
  have hback := m.length_bytesFrom hole (show m.programEnd ≤ m.size by omega)
  rw [Nat.add_sub_cancel_left] at hrecord
  refine Stands.extract_eq (stands_append.2 ⟨stands_append.2 ⟨fun i hi => ?_, fun i hi => ?_⟩,
    fun i hi => ?_⟩) ?_ ?_
  · rw [h.opened.below _ (by omega)]
    exact stands_extract i hi
  · rw [hfront, Nat.sub_zero, Nat.zero_add, h.opened.placed i (by omega)]
    exact stands_extract i hi
  · rw [List.length_append, hfront, hrecord, show 0 + (hole - 0 + length) + i = hole + i +
      length by omega,
      h.opened.shifted _ (by omega) (by omega)]
    exact stands_extract i hi
  · simp only [List.length_append]
    omega
  · rw [hend, h.opened.size]
    show _ ≤ m.size
    omega

/-- Whatever the gap, the record is in the program after as many rounds as its length takes. -/
theorem exists_opensHole : ∃ m', OpensHole m m' record hole length := by
  have hpos : 0 < record - m.programEnd := Nat.sub_pos_of_lt hg
  have hrounds (rounds : Nat) := openHole_rounds rounds length record hole m hh hg hs
  obtain ⟨m', hmoved, hrest⟩ := hrounds (roundCount length (record - m.programEnd))
  have hall : min (roundCount length (record - m.programEnd) * (record - m.programEnd))
      length = length :=
    Nat.min_eq_right ((roundCount_le_iff hpos).1 (Nat.le_refl _))
  rw [hall] at hmoved hrest
  refine ⟨m', hrounds, fun rounds hlt => ?_, fun more => ?_, hmoved.bytesFrom_eq hh hg hs,
    hmoved.opened.above⟩
  · exact Nat.lt_of_not_le fun hle => absurd ((roundCount_le_iff hpos).2 hle) (Nat.not_le_of_lt hlt)
  · rw [hrest, Nat.sub_self]
    cases more <;> rfl

end

theorem OpensHole.openHole_eq (h : OpensHole m m' record hole length) (hg : m.programEnd < record) :
    openHole length length record hole m = .ok () m' := by
  have hle : roundCount length (record - m.programEnd) ≤ length :=
    (roundCount_le_iff (Nat.sub_pos_of_lt hg)).2 (Nat.le_mul_of_pos_right _ (Nat.sub_pos_of_lt hg))
  have hends := h.ends (length - roundCount length (record - m.programEnd))
  rwa [Nat.add_sub_cancel' hle] at hends

/-- The checks that an edit passes before it stores a line. -/
structure Passes (m : Memory) (l : Listing) (number : UInt16) (body : Nat) : Prop where
  room : m.programEnd + 4 ≤ body
  below : body ≤ m.variablesBegin
  length_le : m.variablesBegin - (body - 3) ≤ 255
  reserve : extent (l.below number) + extent (l.above number) + (m.variablesBegin - (body - 3)) +
    4 ≤ m.variablesBegin

/-- What stands ready to be moved into the program: the line that is replaced is out of it, and the
record has its header. -/
structure Headed (m m' : Memory) (l : Listing) (number : UInt16) (body : Nat) : Prop where
  programEnd_eq : m'.programEnd = extent (l.below number) + extent (l.above number)
  program : Stands m'.ram 0 (records (l.below number) ++ records (l.above number))
  record : m'.bytesFrom (body - 3) m.variablesBegin =
    wordBytes number ++ [UInt8.ofNat (m.variablesBegin - (body - 3))] ++ m.bytesFrom body
      m.variablesBegin
  above : Agree m.ram m'.ram m.variablesBegin m.size
  variablesBegin_eq : m'.variablesBegin = m.variablesBegin
  stackLimit_eq : m'.stackLimit = m.stackLimit
  size_eq : m'.size = m.size
  stackTop_eq : m'.stackTop = m'.size

def headed (m : Memory) (number : UInt16) (record length : Nat) : Memory :=
  { m with ram := overwrite m.ram record (wordBytes number ++ [UInt8.ofNat length]) }

theorem placeRecord_headed (h : record + 3 ≤ m.size) :
    placeRecord number record length hole m =
      openHole length length record hole (m.headed number record length) :=
  bind_of_ok (write_eq h)

theorem Dropped.headed (hd : Dropped m m₁ (l.below number) (l.above number)) (hm : m.Layout)
    (hp : m.Passes l number body) (hend : m₁.programEnd ≤ m.programEnd) :
    Headed m (m₁.headed number (body - 3) (m.variablesBegin - (body - 3))) l number body := by
  have hvariables := hm.variables_le_size
  have hsize := hd.size_eq
  have hprogram := hd.programEnd_eq
  have hroom := hp.room
  have hbelow := hp.below
  let header := wordBytes number ++ [UInt8.ofNat (m.variablesBegin - (body - 3))]
  have hheader : header.length = 3 := rfl
  have hfits : body - 3 + header.length ≤ m₁.size := by omega
  have hkept : Agree m.ram (overwrite m₁.ram (body - 3) header) body m.size :=
    Agree.trans (fun i hi _ => hd.above i (by omega)) (agree_overwrite_above hfits (by omega))
  have htext : Stands (overwrite m₁.ram (body - 3) header) body
      (m.bytesFrom body m.variablesBegin) := by
    refine (m.stands_bytesFrom body m.variablesBegin).congr (hkept.mono (Nat.le_refl _) ?_)
    rw [m.length_bytesFrom body (by omega)]
    omega
  have hrecord : Stands (overwrite m₁.ram (body - 3) header) (body - 3)
      (header ++ m.bytesFrom body m.variablesBegin) := by
    rw [stands_append, hheader, show body - 3 + 3 = body by omega]
    exact ⟨stands_overwrite hfits, htext⟩
  refine ⟨hprogram, ?_, ?_, hkept.mono hbelow (Nat.le_refl _), hd.variablesBegin_eq,
    hd.stackLimit_eq,
    (size_overwrite _ _ _).trans hsize, hd.stackTop_eq.trans (size_overwrite _ _ _).symm⟩
  · refine hd.stands.congr (agree_overwrite_below hfits ?_)
    rw [List.length_append, length_records, length_records]
    omega
  · refine hrecord.extract_eq ?_ ?_
    · rw [List.length_append, m.length_bytesFrom body (by omega), hheader]
      omega
    · rw [size_overwrite]
      show _ ≤ m₁.size
      omega

/-- Opening a hole moves the record and what follows the hole intact, whatever the gap between the
program and the record, the hole and the record are; and that is what storing a line does, once it
has passed its checks, with the record below the variables and the program without the line that is
replaced. The gap is at least four bytes wide then. -/
theorem hole_opening :
    (∀ (m : Memory) (record hole length : Nat), hole ≤ m.programEnd → m.programEnd < record →
        record + length ≤ m.size → ∃ m', OpensHole m m' record hole length) ∧
      ∀ (m : Memory) (l : Listing) (number : UInt16) (body : Nat), m.Layout → m.Holds l →
        m.Passes l number body → m.ram[body]? ≠ some Byte.marker →
        let record := body - 3
        let length := m.variablesBegin - record
        ∃ m₁ m₂, Headed m m₁ l number body ∧ m₁.programEnd + 4 ≤ record ∧
          OpensHole m₁ m₂ record (extent (l.below number)) length ∧
          insertStaged number body m =
            .ok { removed := 0 < extent (l.same number), stored := some length } m₂ ∧
          Agree m.ram m₂.ram m.variablesBegin m.size := by
  refine ⟨fun m record hole length hh hg hs => exists_opensHole hh hg hs,
    fun m l number body hm hh hp hnew => ?_⟩
  intro record length
  have hvariables := hm.variables_le_size
  have hroom := hp.room
  have hbelow := hp.below
  have hreserve : extent (l.below number) + extent (l.above number) + length + 4 ≤
      m.variablesBegin := hp.reserve
  have hparts := l.extent_parts number
  rw [← hh.programEnd_eq] at hparts
  have hlength : record + length = m.variablesBegin := by omega
  obtain ⟨b, hb, -⟩ := m.exists_readByte (show body < m.size by omega)
  have hmarker : b ≠ Byte.marker := fun he => hnew (he ▸ hb)
  have hwork : (decide (0 < extent (l.same number)) || !decide (b = Byte.marker)) = true := by
    simp [hmarker]
  obtain ⟨m₁, hd, hrun⟩ := applyEdit_eq hm hh record length hwork
  have hend := hd.programEnd_eq
  have hheaded := hd.headed hm hp (by omega)
  generalize hm₁ : m₁.headed number (body - 3) (m.variablesBegin - (body - 3)) = m₁' at hheaded
  have hend' := hheaded.programEnd_eq
  have hsize' := hheaded.size_eq
  have hgap : m₁'.programEnd + 4 ≤ record := by omega
  obtain ⟨m₂, hopens⟩ : ∃ m₂, OpensHole m₁' m₂ record (extent (l.below number)) length :=
    exists_opensHole (by omega) (by omega) (by omega)
  refine ⟨m₁', m₂, hheaded, hgap, hopens, ?_, ?_⟩
  · rw [insertStaged_checked hm hh number hroom hbelow hp.length_le hb, if_neg hmarker,
      if_neg (Nat.not_lt_of_le hp.reserve), hrun, if_neg
        (by rw [decide_eq_true_iff]; exact hmarker)]
    have hplace : placeRecord number record length (extent (l.below number)) m₁ = .ok () m₂ := by
      rw [placeRecord_headed (by rw [hd.size_eq]; omega), hm₁]
      exact hopens.openHole_eq (by omega)
    exact bind_of_ok hplace
  · intro i hi hlt
    rw [hopens.above i (by omega), hheaded.above i hi hlt]

/-- A record of 255 bytes, which the gap takes in two rounds, goes into an empty program; and one of
seven bytes that lies two bytes above a program of ten goes into the middle of it in four rounds. -/
theorem hole_opening_of_long_record :
    (∃ m m₁ m₂ : Memory, OpensHole m₁ m₂ 205 0 255 ∧ m₁.programEnd = 0 ∧
      roundCount 255 (205 - 0) = 2 ∧
      insertStaged 10 208 m = .ok { removed := false, stored := some 255 } m₂) ∧
      ∃ m₁ m₂ : Memory, OpensHole m₁ m₂ 12 5 7 ∧ m₁.programEnd = 10 ∧
      roundCount 7 (12 - 10) = 4 := by
  obtain ⟨hall, hlines⟩ := hole_opening
  constructor
  · -- The buffer and the text are made opaque at once, or the arithmetic below would evaluate them.
    have hm : (create 1024 52).Layout := layout_create 1024 52
    have hvariables : (create 1024 52).variablesBegin = 460 := by decide
    have hend : (create 1024 52).programEnd = 0 := rfl
    generalize create 1024 52 = m at hm hvariables hend
    have hlength : (List.replicate 251 (88 : UInt8)).length = 251 := List.length_replicate
    have hcons : List.replicate 251 (88 : UInt8) = 88 :: List.replicate 250 88 :=
      List.replicate_succ
    generalize List.replicate 251 (88 : UInt8) = text at hlength hcons
    have hfits : m.programEnd + text.length + 1 ≤ m.variablesBegin := by omega
    have hstart : m.stagingStart text = 208 := by rw [stagingStart, hvariables, hlength]
    have hgap := onlyGap_staged hfits hm
    have hchar : (text ++ [Byte.marker])[0]? = some 88 := by rw [hcons]; rfl
    have hfirst := stands_staged hfits hm 0 (by simp)
    rw [hstart, hchar] at hfirst
    have hvariables' : (m.staged text).variablesBegin = 460 := hvariables
    have hend' : (m.staged text).programEnd = 0 := hend
    obtain ⟨m₁, m₂, hheaded, -, hopens, hrun, -⟩ :=
      hlines (m.staged text) .empty 10 208 (hgap.layout hm)
      (holds_empty hend) ⟨by omega, by omega, by omega, by rw [hvariables']; decide⟩
      (by rw [show 208 = 208 + 0 from rfl, hfirst]; decide)
    rw [hvariables'] at hopens hrun
    exact ⟨m.staged text, m₁, m₂, hopens, hheaded.programEnd_eq, by decide, hrun⟩
  · have hsize : (create 1024 1).size = 1024 := size_create 1024 1
    obtain ⟨m₂, hopens⟩ := hall { create 1024 1 with programEnd := 10 } 12 5 7
      (by decide) (by decide)
      (by show 12 + 7 ≤ (create 1024 1).size; omega)
    exact ⟨_, m₂, hopens, rfl, by decide⟩

end LineBasic.Memory
