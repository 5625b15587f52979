import LineBasic.Proofs.Session.Entry

namespace LineBasic

/-- The byte is put into a line when it is typed: it neither ends nor edits the line, and it is not
ignored. -/
def Byte.IsText (b : UInt8) : Prop :=
  b = tab ∨ blank ≤ b ∧ b ≠ delete

instance (b : UInt8) : Decidable (Byte.IsText b) :=
  inferInstanceAs (Decidable (_ ∨ _))

theorem Byte.IsText.unedited {b : UInt8} (h : IsText b) : ¬ (b = carriageReturn ∨ b = marker) ∧
    ¬ (b = backspace ∨ b = delete) ∧ ¬ (b < blank ∧ b ≠ tab) := by
  obtain rfl | ⟨hlo, hdelete⟩ := h
  · decide
  have hne {c : UInt8} (hc : c < blank) : b ≠ c := fun he => UInt8.not_le.2 hc (he ▸ hlo)
  refine ⟨?_, ?_, fun hb => UInt8.not_lt.2 hlo hb.1⟩
  · rintro (hb | hb)
    · exact hne (by decide) hb
    · exact hne (by decide) hb
  · rintro (hb | hb)
    · exact hne (by decide) hb
    · exact hdelete hb

theorem Byte.isText_of_unedited {b : UInt8} (herase : ¬ (b = backspace ∨ b = delete))
    (hcontrol : ¬ (b < blank ∧ b ≠ tab)) : IsText b := by
  by_cases htab : b = tab
  · exact Or.inl htab
  · exact Or.inr ⟨UInt8.not_lt.1 fun hlt => hcontrol ⟨hlt, htab⟩, fun hd => herase (Or.inr hd)⟩

namespace Memory
variable {m : Memory} {l : Listing} {frames : List Frame} {pos start : Nat} {bytes : List UInt8}

theorem Executing.overwrite (h : m.Executing l frames) (hlo : m.programEnd ≤ start)
    (hhi : start + bytes.length < m.variablesBegin) :
    ({ m with ram := overwrite m.ram start bytes } : Memory).Executing l frames := by
  have hv := h.layout.variables_le_size
  have hfits : start + bytes.length ≤ m.ram.size := by
    show _ ≤ m.size
    omega
  refine ⟨h.toSane.onlyGap (onlyGap_overwrite hlo (by omega) (by omega)), h.marked.congr rfl ?_⟩
  show (Memory.overwrite _ _ _)[m.variablesBegin - 1]? = _
  rw [getElem?_overwrite _ _ _ _ hfits, if_neg (by omega)]

/-- The buffer after a byte has been typed. -/
def typed (m : Memory) (pos : Nat) (b : UInt8) : Memory :=
  { m with ram := overwrite m.ram pos [b] }

theorem Typing.write_eq (h : m.Typing pos) (hm : m.Layout) (b : UInt8) :
    write pos [b] m = .ok () (m.typed pos b) := by
  have hlt := h.lt
  have hv := hm.variables_le_size
  exact Memory.write_eq (by show pos + 1 ≤ m.size; omega)

theorem Typing.onlyGap_typed (h : m.Typing pos) (hm : m.Layout) (b : UInt8) :
    m.OnlyGap (m.typed pos b) := by
  have hle := h.le
  have hlt := h.lt
  have hv := hm.variables_le_size
  exact onlyGap_overwrite (Nat.le_trans (Nat.le_add_right _ _) hle)
    (by show pos + 1 ≤ _; omega) (by omega)

/-- A marker ends the line where it is typed, if not before. -/
theorem Typing.endOfLine_typed_le (h : m.Typing pos) (hm : m.Layout) :
    endOfLine (m.typed pos Byte.marker).ram m.entryStart ≤ pos := by
  have hlt := h.lt
  have hv := hm.variables_le_size
  have hfits : pos + [Byte.marker].length ≤ m.ram.size := by show pos + 1 ≤ m.size; omega
  have hmarker : (m.typed pos Byte.marker).ram[pos]? = some Byte.marker :=
    (stands_cons.1 (stands_overwrite hfits)).1
  exact endOfLine_le h.le (by rw [Array.getD_eq_getD_getElem?, hmarker]; rfl)

/-- The bytes that have been typed up to the marker are a line. -/
theorem Typing.typed_marker (h : m.Typing pos) (hm : m.Layout) :
    (m.typed pos Byte.marker).Typed (Cursor.rest
    ⟨(m.typed pos Byte.marker).ram, m.entryStart⟩) := by
  have hlt := h.lt
  have hshort := h.short
  have hv := hm.variables_le_size
  have hend := h.endOfLine_typed_le hm
  have hlen := Cursor.pos_add_length_rest ⟨(m.typed pos Byte.marker).ram, m.entryStart⟩
  dsimp only at hlen
  refine ⟨Cursor.marker_notMem_rest _, ?_, ?_, stands_rest ?_⟩
  · rw [show Session.maxEntryLength = 252 from rfl] at hshort
    omega
  · show m.entryStart + _ + 2 ≤ m.variablesBegin
    omega
  · show endOfLine (m.typed pos Byte.marker).ram m.entryStart < (overwrite _ _ _).size
    rw [size_overwrite]
    show _ < m.size
    omega

end Memory

namespace Interpreter
variable {i : Interpreter} {l : Listing} {frames : List Frame} {purpose : Purpose} {pos : Nat}

theorem Asking.typed (h : i.Asking l frames purpose) (hp : i.memory.Typing pos) (b : UInt8) :
    { i with memory := i.memory.typed pos b }.Asking l frames purpose := by
  cases purpose with
  | command => exact Memory.Sane.onlyGap h (hp.onlyGap_typed h.sane.layout b)
  | reply v resume =>
    have hlt := hp.lt
    have hlo : i.memory.programEnd ≤ pos := Nat.le_trans (Nat.le_add_right _ _) hp.le
    obtain ⟨hexecuting, hinside⟩ := h
    exact ⟨hexecuting.overwrite hlo (by show pos + 1 < i.memory.variablesBegin; omega), hinside⟩

/-- A reply leaves its purpose behind: the program goes on where it was. -/
theorem Asking.folded {v : Variable} {resume : Nat} {line : List UInt8}
    (h : i.Asking l frames (.reply v resume)) (ht : i.memory.Typed line) :
    { i with memory := i.memory.folded line }.Asking l frames (.reply v resume) := by
  obtain ⟨hexecuting, hinside⟩ := h
  have hroom := ht.room
  exact ⟨hexecuting.overwrite (Nat.le_add_right _ _)
    (by rw [Case.length_fold]; show i.memory.entryStart + _ < i.memory.variablesBegin; omega),
      hinside⟩

def worth (i : Interpreter) (line : List UInt8) : Except Diagnostic Int16 × Generator :=
  (Expr.readRelation (Case.fold line)).expr.evaluate (i.memory.folded line).view i.generator

def tried (i : Interpreter) (line : List UInt8) : Interpreter :=
  { i with
    memory := i.memory.folded line
    generator := (i.worth line).2
    textPos := (Cursor.expression ⟨(i.memory.folded line).ram, i.memory.entryStart⟩).2.pos }

end Interpreter

namespace Session
variable {σ : Type} {l : Listing} {frames : List Frame} {line : List UInt8}

inductive Replied (v : Variable) (resume : Nat) (line : List UInt8) (i : Interpreter) : Phase →
    Interpreter → Prop
  | stored (x : Int16) (generator : Generator) : Replied v resume line i .proceed
      { i with memory := (i.memory.folded line).stored v x, generator, textPos := resume }
  | rejected (generator : Generator) (pos : Nat) : Replied v resume line i (.ask (.reply v resume))
      { i with memory := i.memory.folded line, generator, textPos := pos }

/-- The expression of a reply is read from where lines are typed. -/
theorem expression_folded {i : Interpreter} (hm : i.memory.Layout) (ht : i.memory.Typed line) :
    (Cursor.expression ⟨(i.memory.folded line).ram, i.memory.entryStart⟩).1 =
      (Expr.readRelation (Case.fold line)).expr := by
  have hfolded := ht.folded hm
  have hrest : Cursor.rest ⟨(i.memory.folded line).ram, i.memory.entryStart⟩ = Case.fold line :=
    Cursor.rest_of_stands hfolded.stands hfolded.marker_notMem
  rw [Cursor.expression, hrest]

section
variable {s : Session σ} (hm : s.interpreter.memory.Layout) (ht : s.interpreter.memory.Typed line)
include hm ht

theorem takeReply_eq (v : Variable) (resume : Nat) :
    ∃ journal, takeReply v resume s = (match (s.interpreter.worth line).1 with
      | .ok x => do
        onMemory (Memory.store v x)
        change fun i => { i with textPos := resume }
        return .proceed
      | .error why => do
        note (.replyRejected (.malformed (s.interpreter.tried line).textPos why))
        return .ask (.reply v resume) : Act σ Phase)
    ⟨s.interpreter.tried line, s.host, journal⟩ := by
  have hfold := onMemory_of_ok (s := s) (ht.foldCase_eq hm)
  have hfolded := (ht.onlyGap_folded hm).layout hm
  have hexpression := expression_folded hm ht
  let t : Session σ := { s with interpreter := { s.interpreter with
    memory := s.interpreter.memory.folded line
    textPos := s.interpreter.memory.entryStart } }
  have hvalue := evaluate_eq (s := t) hfolded (show t.interpreter.cursor.expression.1.evaluate
    t.interpreter.memory.view
    t.interpreter.generator = ((s.interpreter.worth line).1, (s.interpreter.worth line).2) by
      rw [show t.interpreter.cursor.expression.1 = _ from hexpression]
      rfl)
  refine ⟨(t.tallied t.interpreter.cursor.expression.1.peeks).journal, ?_⟩
  unfold takeReply
  refine (bind_of_ok (show look (·.memory.entryStart) s = .ok s.interpreter.memory.entryStart s
    from rfl)).trans ?_
  refine (bind_of_ok hfold).trans ((bind_of_ok (show change _ _ = .ok () t from rfl)).trans
    ((bind_of_ok hvalue).trans ?_))
  cases (s.interpreter.worth line).1 with
  | ok x => rfl
  | error why => rfl

theorem takeReply_stored (v : Variable) (resume : Nat) {x : Int16}
    (hw : (s.interpreter.worth line).1 = .ok x) :
    ∃ journal, takeReply v resume s = .ok .proceed ⟨{ s.interpreter.tried line with
      memory := (s.interpreter.tried line).memory.stored v x, textPos := resume },
      s.host, journal⟩ := by
  obtain ⟨journal, hreply⟩ := takeReply_eq hm ht v resume
  have htried : (s.interpreter.tried line).memory.Layout := (ht.onlyGap_folded hm).layout hm
  rw [hw] at hreply
  exact ⟨journal, hreply.trans (bind_of_ok (onMemory_of_ok (Memory.store_eq v x htried)))⟩

theorem takeReply_rejected (v : Variable) (resume : Nat) {why : Diagnostic}
    (hw : (s.interpreter.worth line).1 = .error why) :
    ∃ journal, takeReply v resume s = .ok (.ask (.reply v resume))
      ⟨s.interpreter.tried line, s.host, journal⟩ := by
  obtain ⟨journal, hreply⟩ := takeReply_eq hm ht v resume
  rw [hw] at hreply
  exact ⟨_, hreply⟩

theorem takeReply_replied {v : Variable} {resume : Nat} : Ends (takeReply v resume s)
    (fun phase s' => Replied v resume line s.interpreter phase s'.interpreter) fun _ _ =>
    False := by
  cases hw : (s.interpreter.worth line).1 with
  | ok x =>
    obtain ⟨journal, hreply⟩ := takeReply_stored hm ht v resume hw
    exact Ends.of_ok hreply (.stored x _)
  | error why =>
    obtain ⟨journal, hreply⟩ := takeReply_rejected hm ht v resume hw
    exact Ends.of_ok hreply (.rejected _ _)

end

theorem Replied.ready {i j : Interpreter} {v : Variable} {resume : Nat} {phase : Phase}
    (h : Replied v resume line i phase j) (ha : i.Asking l frames (.reply v resume))
    (ht : i.memory.Typed line) :
    j.Ready l frames phase := by
  obtain ⟨hexecuting, hinside⟩ := ha.folded ht
  cases h with
  | stored x generator => exact ⟨hexecuting.stored v x, hinside⟩
  | rejected generator pos => exact ⟨hexecuting, hinside⟩

theorem takes_entryLimit {α : Type} {g : Nat → Act σ α} {pre : Interpreter → Prop}
    {post : α → Interpreter → Prop} {stop : Interpreter → Prop} (hp : ∀ i, pre i → i.memory.Layout)
    (hg : ∀ limit, Takes (fun i => pre i ∧ i.entryEnd = limit) post stop (g limit)) :
    Takes pre post stop (entryLimit >>= g) :=
  fun s hs => Ends.after_ok (entryLimit_eq (hp _ hs)) (hg s.interpreter.entryEnd s ⟨hs, rfl⟩)

def TypedByte (i : Interpreter) (pos : Nat) (j : Interpreter) : Prop :=
  j = i ∨ ∃ b, j = { i with memory := i.memory.typed pos b }

section
variable [Host σ]

/-- What is done with a line that has ended. -/
def takeFor : Purpose → Act σ Phase
  | .command => accept
  | .reply v resume => takeReply v resume

variable {i : Interpreter} {purpose : Purpose} {pos : Nat} {post : Phase → Interpreter → Prop}
  {stop : Interpreter → Prop}

/-- The line has ended: a marker is put at its end, and it is taken. -/
theorem takes_endOfLine {take : Act σ Phase} (echo : Bool) (hm : i.memory.Layout)
    (hp : i.memory.Typing pos) (hstop : stop i)
    (htake : Takes (· = { i with memory := i.memory.typed pos Byte.marker }) post stop take) :
    Takes (· = i) post stop (do
      if echo then newline
      onMemory (Memory.write pos [Byte.marker])
      take : Act σ Phase) := by
  have hend : Takes (· = i) post stop (do
      onMemory (Memory.write pos [Byte.marker])
      take : Act σ Phase) := by
    rintro s rfl
    exact Ends.after_ok (onMemory_of_ok (hp.write_eq hm Byte.marker)) (htake _ rfl)
  cases echo with
  | true => exact Talks.takes talks_newline (fun j hj => hj ▸ ⟨hm, hstop⟩) fun _ => hend
  | false => exact hend

theorem takes_insert (echo : Bool) (b : UInt8) (hm : i.memory.Layout) (hp : i.memory.Typing pos)
    (hpost : post (.edit purpose (pos + 1)) { i with memory := i.memory.typed pos b })
    (hstop : stop { i with memory := i.memory.typed pos b }) :
    Takes (· = i) post stop (do
      onMemory (Memory.write pos [b])
      if echo then writeByte b
      return .edit purpose (pos + 1) : Act σ Phase) := by
  rintro s rfl
  have hgap : s.interpreter.memory.OnlyGap (s.interpreter.memory.typed pos b) :=
    hp.onlyGap_typed hm b
  refine Ends.after_ok (onMemory_of_ok (hp.write_eq hm b)) ?_
  have hedit : Takes (· = { s.interpreter with memory := s.interpreter.memory.typed pos b }) post
    stop
      (pure (.edit purpose (pos + 1)) : Act σ Phase) := takes_pure fun j hj => hj ▸ hpost
  cases echo with
  | true =>
    exact Talks.takes (talks_writeByte b) (fun j hj => hj ▸ ⟨hgap.layout hm, hstop⟩)
      (fun _ => hedit) _ rfl
  | false => exact hedit _ rfl

theorem takes_erase (echo : Bool) (hm : i.memory.Layout) (hpost : post (.edit purpose (pos - 1)) i)
    (hstop : stop i) :
    Takes (· = i) post stop (do
      if echo then print [Byte.backspace, Byte.blank, Byte.backspace]
      return .edit purpose (pos - 1) : Act σ Phase) := by
  have hedit : Takes (· = i) post stop (pure (.edit purpose (pos - 1)) : Act σ Phase) :=
    takes_pure fun j hj => hj ▸ hpost
  cases echo with
  | true => exact Talks.takes (talks_print _) (fun j hj => hj ▸ ⟨hm, hstop⟩) fun _ => hedit
  | false => exact hedit

/-- What typing one byte leads to: the line goes on at a position where lines are typed, or it has
ended and is taken for its purpose. -/
theorem takes_typeByte_of (hm : i.memory.Layout) (hp : i.memory.Typing pos)
    (hpost : ∀ j pos', TypedByte i pos j → j.memory.Typing pos' → pos' ≤ pos ∨ pos' ≤ i.entryEnd →
      post (.edit purpose pos') j)
    (hstop : ∀ j, TypedByte i pos j → stop j)
    (htake : Takes (· = { i with memory := i.memory.typed pos Byte.marker }) post stop
      (takeFor purpose : Act σ Phase)) :
    Takes (· = i) post stop (typeByte purpose pos : Act σ Phase) := by
  have hself : stop i := hstop i (Or.inl rfl)
  have hsame : post (.edit purpose pos) i := hpost i pos (Or.inl rfl) hp (Or.inl (Nat.le_refl _))
  refine Takes.look fun start => takes_entryLimit (fun j hj => hj.1 ▸ hm) fun limit => ?_
  have hpre (j : Interpreter) (hj : (j = i ∧ j.memory.entryStart = start) ∧ j.entryEnd = limit) :
      j.memory.Layout ∧ stop j := hj.1.1 ▸ ⟨hm, hself⟩
  refine Talks.takes (talks_look _) hpre fun echo => Talks.takes (talks_onHost _) hpre fun b => ?_
  -- By what the byte is, in the order in which the code asks.
  by_cases hend : b = Byte.carriageReturn ∨ b = Byte.marker
  · rw [if_pos hend]
    rintro s ⟨⟨rfl, -⟩, -⟩
    exact takes_endOfLine echo hm hp hself htake s rfl
  rw [if_neg hend]
  by_cases herase : b = Byte.backspace ∨ b = Byte.delete
  · rw [if_pos herase]
    by_cases hlt : start < pos
    · rw [if_pos hlt]
      rintro s ⟨⟨rfl, rfl⟩, -⟩
      have hback : s.interpreter.memory.Typing (pos - 1) := by
        obtain ⟨hle, hroom, hshort⟩ := hp
        exact ⟨by omega, by omega, by omega⟩
      exact takes_erase echo hm (hpost _ _ (Or.inl rfl) hback (Or.inl (Nat.sub_le _ _))) hself s rfl
    · rw [if_neg hlt]
      exact takes_pure fun j hj => hj.1.1 ▸ hsame
  rw [if_neg herase]
  by_cases hcontrol : b < Byte.blank ∧ b ≠ Byte.tab
  · rw [if_pos hcontrol]
    exact takes_pure fun j hj => hj.1.1 ▸ hsame
  rw [if_neg hcontrol]
  by_cases hfull : limit ≤ pos
  · rw [if_pos hfull]
    exact Talks.takes (talks_writeByte _) (fun j hj => hj.1.1 ▸ ⟨hm, hself⟩) fun _ =>
      takes_pure fun j hj => hj.1.1 ▸ hsame
  · rw [if_neg hfull]
    rintro s ⟨⟨rfl, -⟩, rfl⟩
    have hnext : s.interpreter.memory.Typing (pos + 1) := by
      obtain ⟨hle, hroom, -⟩ := hp
      obtain ⟨hend, hshort⟩ := s.interpreter.entryEnd_le
      exact ⟨by omega, by omega, by omega⟩
    have hbyte : TypedByte s.interpreter pos
        { s.interpreter with memory := s.interpreter.memory.typed pos b } :=
      Or.inr ⟨b, rfl⟩
    have hroom : pos + 1 ≤ s.interpreter.entryEnd := by omega
    exact takes_insert echo b hm hp (hpost _ _ hbyte ⟨hnext.le, hnext.lt, hnext.short⟩
      (Or.inr hroom)) (hstop _ hbyte) s rfl

end

/-- What follows a typed byte is ready. The program has stayed the same, unless the byte ended a
line that was asked for as a command. -/
def TypedOn (l : Listing) (frames : List Frame) (purpose : Purpose) (phase : Phase)
    (i : Interpreter) : Prop :=
  ∃ l' frames', i.Ready l' frames' phase ∧ (purpose ≠ .command → l' = l) ∧
    Unstacked l l' frames frames' ∧
    Becomes l l'

theorem takes_typeByte [Host σ] {purpose : Purpose} {pos : Nat} :
    Takes (fun i => i.Asking l frames purpose ∧ i.memory.Typing pos)
      (TypedOn l frames purpose) (TypedOn l frames purpose .prompt)
        (typeByte purpose pos : Act σ Phase) := by
  rintro s ⟨hasking, hp⟩
  have hm := hasking.sane.layout
  -- Whatever byte is typed, the line is still asked for.
  have hbyte {j : Interpreter} (hj : TypedByte s.interpreter pos j) : j.Asking l frames
      purpose := by
    obtain rfl | ⟨b, rfl⟩ := hj
    · exact hasking
    · exact hasking.typed hp b
  refine takes_typeByte_of hm hp (fun j pos' hj hp' _ => ?_) (fun j hj => ?_) ?_ s rfl
  · exact ⟨l, frames, ⟨hbyte hj, hp'⟩, fun _ => rfl, Or.inr ⟨rfl, rfl⟩, .same⟩
  · exact ⟨l, frames, (hbyte hj).sane, fun _ => rfl, Or.inr ⟨rfl, rfl⟩, .same⟩
  · intro s' hs'
    have hafter : s'.interpreter.Asking l frames purpose := hs' ▸ hasking.typed hp Byte.marker
    have htyped : s'.interpreter.memory.Typed (Cursor.rest
        ⟨s'.interpreter.memory.ram, s'.interpreter.memory.entryStart⟩) := hs' ▸ hp.typed_marker hm
    cases purpose with
    | command =>
      refine (accept_ends hafter.sane htyped).mono (fun phase s' h => ?_) fun h s' hh => ?_
      · obtain ⟨-, frames', hr, hu⟩ := h
        exact ⟨_, frames', hr, fun h => absurd rfl h, hu, .entered _ _⟩
      · obtain ⟨hio, frames', hr, hu⟩ := hh
        exact ⟨hio, _, frames', hr, fun h => absurd rfl h, hu, .entered _ _⟩
    | reply v resume =>
      refine (takeReply_replied hafter.sane.layout htyped).mono (fun phase s' h => ?_)
        fun h s' hh => absurd hh id
      exact ⟨l, frames, h.ready hafter htyped, fun _ => rfl, Or.inr ⟨rfl, rfl⟩, .same⟩

end Session
end LineBasic
