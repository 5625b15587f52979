import LineBasic.Proofs.Host
import LineBasic.Proofs.Session.Pieces
import LineBasic.Proofs.Session.Running
import LineBasic.Session.Statement

namespace LineBasic

/-- Any cause but an access outside the buffer. -/
def Halt.Safe : Halt → Prop
  | .fault _ => False
  | _ => True

/-- The second interpreter is the first one after it has read to a cursor, up to blanks, with this
generator. -/
structure Interpreter.ReadTo (i : Interpreter) (k : Cursor) (g : Generator) (j : Interpreter) :
    Prop where
  exists_eq : ∃ pos, j = { i with textPos := pos, generator := g }
  skipped : j.cursor.skipBlanks = k.skipBlanks

namespace Interpreter.ReadTo
variable {i j : Interpreter} {k : Cursor} {g : Generator}

theorem memory_eq (h : i.ReadTo k g j) : j.memory = i.memory := by
  obtain ⟨pos, rfl⟩ := h.exists_eq
  rfl

theorem generator_eq (h : i.ReadTo k g j) : j.generator = g := by
  obtain ⟨pos, rfl⟩ := h.exists_eq
  rfl

theorem text_eq (h : i.ReadTo k g j) : k.text = i.memory.ram := by
  rw [← h.memory_eq]
  exact (congrArg Cursor.text h.skipped).symm

/-- Reading on to a cursor from which the same follows after blanks. -/
theorem moved (h : i.ReadTo k g j) {c k' : Cursor} (ht : c.text = k.text)
    (hs : c.skipBlanks = k'.skipBlanks) (g' : Generator) :
    i.ReadTo k' g' { j with textPos := c.pos, generator := g' } := by
  have htext := ht.trans h.text_eq
  obtain ⟨pos, rfl⟩ := h.exists_eq
  refine ⟨⟨c.pos, rfl⟩, ?_⟩
  rw [← hs]
  show Cursor.skipBlanks ⟨i.memory.ram, c.pos⟩ = _
  rw [← htext]

theorem movedTo (h : i.ReadTo k g j) {c k' : Cursor} (ht : c.text = k.text)
    (hs : c.skipBlanks = k'.skipBlanks) :
    i.ReadTo k' g { j with textPos := c.pos } := by
  have hmoved := h.moved ht hs g
  rwa [← h.generator_eq] at hmoved ⊢

end Interpreter.ReadTo

/-- The column is at the position or further on, and not past the end of its line. -/
def Interpreter.Ahead (i : Interpreter) (column : Nat) : Prop :=
  i.textPos ≤ column ∧ column ≤ endOfLine i.memory.ram i.textPos

namespace Interpreter
variable {i j : Interpreter}

theorem ahead_self (i : Interpreter) : i.Ahead i.textPos :=
  ⟨Nat.le_refl _, le_endOfLine _ _⟩

theorem ahead_of_within {c c' : Cursor} (h : c.Within c') (hi : i.cursor = c) : i.Ahead c'.pos := by
  rw [← hi] at h
  exact ⟨h.le, h.le_end⟩

/-- What is ahead once some of the line has been read was ahead before. -/
theorem ReadOn.ahead {column : Nat} (h : i.ReadOn j) (hj : j.Ahead column) : i.Ahead column := by
  obtain ⟨hlo, hhi⟩ := hj
  rw [h.memory_eq, endOfLine_eq_of_le h.le h.le_end] at hhi
  exact ⟨Nat.le_trans h.le hlo, hhi⟩

/-- An interpreter that has moved to where its text has been passed to reads on there. -/
theorem cursor_of_passed {text : List UInt8} {c : Cursor} (h : i.cursor.Passed text c)
    (hm : j.memory = i.memory) : cursor { j with textPos := c.pos } = c := by
  obtain ⟨ram, pos⟩ := c
  obtain rfl := h.text_eq
  exact congrArg (fun m : Memory => Cursor.mk m.ram pos) hm

end Interpreter

namespace Session
variable {σ α β : Type} {l : Listing} {frames : List Frame}

def withMemory (s : Session σ) (m : Memory) : Session σ :=
  { s with interpreter := s.interpreter.withMemory m }

def noted (s : Session σ) (entry : Journal.Entry) : Session σ :=
  { s with journal := s.journal.note entry }

def tallied (s : Session σ) (peeks : Nat) : Session σ :=
  { s with journal := s.journal.tally peeks }

theorem onMemory_of_ok {update : Update α} {s : Session σ} {a : α} {m : Memory}
    (h : update s.interpreter.memory = .ok a m) :
    onMemory update s = .ok a (s.withMemory m) := by
  simp only [onMemory, h]
  rfl

theorem onMemory_of_error {update : Update α} {s : Session σ} {e : Halt} {m : Memory}
    (h : update s.interpreter.memory = .error e m) :
    onMemory update s = .error e (s.withMemory m) := by
  simp only [onMemory, h]
  rfl

theorem lookIn_of_ok {f : Memory → Except Fault α} {s : Session σ} {a : α}
    (h : f s.interpreter.memory = .ok a) : lookIn f s = .ok a s :=
  onMemory_of_ok (Memory.reading_of_ok h)

def movedTo (s : Session σ) (pos : Nat) : Session σ :=
  { s with interpreter := { s.interpreter with textPos := pos } }

theorem cursor_eq (s : Session σ) : cursor s = .ok s.interpreter.cursor s := rfl

theorem goTo_eq (c : Cursor) (s : Session σ) : goTo c s = .ok () (s.movedTo c.pos) := rfl

theorem cursor_movedTo {s : Session σ} {c : Cursor} (h : s.interpreter.cursor.Within c) :
    (s.movedTo c.pos).interpreter.cursor = c := by
  obtain ⟨text, pos⟩ := c
  obtain rfl := h.text_eq
  rfl

theorem token_within_of_eq {τ : Type} {c : Cursor} {vocabulary : Vocabulary τ} {found : Option τ}
    {c' : Cursor} (h : c.token vocabulary = (found, c')) : c.Within c' := by
  have hw := c.token_within vocabulary
  rwa [h] at hw

/-- At the end of a line the blanks before it are passed. -/
theorem expectEndOfLine_eq {s : Session σ}
    (h : s.interpreter.cursor.skipBlanks.atEndOfLine = true) :
    expectEndOfLine s = .ok () (s.movedTo s.interpreter.cursor.skipBlanks.pos) := by
  unfold expectEndOfLine
  rw [bind_of_ok (cursor_eq s), bind_of_ok (goTo_eq _ s), h]
  rfl

/-- Short of the end of a line what stands there is reported. -/
theorem expectEndOfLine_error {s : Session σ}
    (h : s.interpreter.cursor.skipBlanks.atEndOfLine = false) :
    expectEndOfLine s = .error (.error (.malformed s.interpreter.cursor.skipBlanks.pos
      .expectedEndOfLine))
      (s.movedTo s.interpreter.cursor.skipBlanks.pos) := by
  unfold expectEndOfLine
  rw [bind_of_ok (cursor_eq s), bind_of_ok (goTo_eq _ s), h]
  rfl

/-- The expression at the position is evaluated, and the position moves past it. -/
theorem evaluate_eq {s : Session σ} (h : s.interpreter.memory.Layout)
    {result : Except Diagnostic Int16} {generator : Generator}
    (hr : s.interpreter.cursor.expression.1.evaluate s.interpreter.memory.view
      s.interpreter.generator = (result, generator)) :
    evaluate s = .ok (result.mapError (.malformed s.interpreter.cursor.expression.2.pos))
      { s.tallied s.interpreter.cursor.expression.1.peeks with interpreter := { s.interpreter with
          generator, textPos := s.interpreter.cursor.expression.2.pos } } := by
  unfold evaluate
  refine (bind_of_ok (show cursor s = .ok s.interpreter.cursor s from rfl)).trans ?_
  refine (bind_of_ok (lookIn_of_ok (Memory.surroundings_eq h))).trans ?_
  refine (bind_of_ok (show tally _ s = .ok () (s.tallied _) from rfl)).trans ?_
  refine (bind_of_ok (show look (·.generator) (s.tallied _) = .ok s.interpreter.generator _
    from rfl)).trans ?_
  have hread : (Expr.readRelation s.interpreter.cursor.rest).expr.evaluate s.interpreter.memory.view
    s.interpreter.generator = (result, generator) := hr
  rw [hread]
  cases result with
  | ok x => rfl
  | error why => rfl

theorem expression_ok {s : Session σ} (hm : s.interpreter.memory.Layout) {x : Int16} {g : Generator}
    (h : s.interpreter.cursor.expression.1.evaluate s.interpreter.memory.view
      s.interpreter.generator = (.ok x, g)) :
    expression s = .ok x { s.tallied s.interpreter.cursor.expression.1.peeks with interpreter :=
      { s.interpreter with
      generator := g, textPos := s.interpreter.cursor.expression.2.pos } } :=
  bind_of_ok (evaluate_eq hm h)

theorem expression_error {s : Session σ} (hm : s.interpreter.memory.Layout) {why : Diagnostic}
    {g : Generator}
    (h : s.interpreter.cursor.expression.1.evaluate s.interpreter.memory.view
      s.interpreter.generator = (.error why, g)) :
    expression s = .error (.error (.malformed s.interpreter.cursor.expression.2.pos why))
      { s.tallied s.interpreter.cursor.expression.1.peeks with interpreter := { s.interpreter with
        generator := g, textPos := s.interpreter.cursor.expression.2.pos } } :=
  bind_of_ok (evaluate_eq hm h)

section
variable [Host σ] {word : Option Keyword} {s t : Session σ} {j k : Interpreter} {host : σ}

/-- From the session on, text of the line has been passed in pieces, and what is shown for these has
been written to the host. -/
structure Past (word : Option Keyword) (s : Session σ) (j : Interpreter) (host : σ) : Prop where
  readOn : s.interpreter.ReadOn j
  exists_pieces : ∃ pieces : List Piece, (∀ p ∈ pieces, p.Of word) ∧
    s.interpreter.cursor.Passed (pieces.flatMap Piece.source) j.cursor ∧
    Wrote (pieces.flatMap Piece.shown) s.host host

/-- A statement has stopped that had only read on. If it found something malformed, that is further
on in the line; if the host failed, the last of what is shown has not been written. -/
structure Stops (word : Option Keyword) (s : Session σ) (cause : Halt) (t : Session σ) : Prop where
  readOn : s.interpreter.ReadOn t.interpreter
  safe : cause.Safe
  ahead : ∀ e, cause = .error e → e.category = .malformed → s.interpreter.Ahead e.column
  exists_pieces : ∃ pieces : List Piece, (∀ p ∈ pieces, p.Of word) ∧
    pieces.flatMap Piece.source <+: s.interpreter.cursor.rest ∧
    WroteUntil cause (pieces.flatMap Piece.shown) s.host t.host

theorem Past.refl (s : Session σ) : Past word s s.interpreter s.host :=
  ⟨.refl _, [], fun _ h => absurd h List.not_mem_nil, .refl _, .nil _⟩

theorem Past.trans (h : Past word s t.interpreter t.host) (h' : Past word t k host) :
    Past word s k host := by
  obtain ⟨hread, pieces, hp, hpassed, hwrote⟩ := h
  obtain ⟨hread', more, hm, hpassed', hwrote'⟩ := h'
  refine ⟨hread.trans hread', pieces ++ more, List.forall_mem_append.2 ⟨hp, hm⟩, ?_, ?_⟩
  · rw [List.flatMap_append]
    exact hpassed.trans hpassed'
  · rw [List.flatMap_append]
    exact hwrote.append hwrote'

theorem Past.stops {cause : Halt} {u : Session σ} (h : Past word s t.interpreter t.host)
    (h' : Stops word t cause u) : Stops word s cause u := by
  obtain ⟨hread, pieces, hp, hpassed, hwrote⟩ := h
  obtain ⟨hread', hsafe, hahead, more, hm, hsource, hwrote'⟩ := h'
  refine ⟨hread.trans hread', hsafe, fun e he hc => hread.ahead (hahead e he hc), pieces ++ more,
    List.forall_mem_append.2 ⟨hp, hm⟩, ?_, ?_⟩
  · rw [hpassed.rest_eq, List.flatMap_append]
    exact (List.prefix_append_right_inj _).2 hsource
  · rw [List.flatMap_append]
    exact hwrote.until hwrote'

/-- Something has been found wrong before anything was passed. -/
theorem stops_error {e : Error} (h : e.category = .malformed → s.interpreter.Ahead e.column) :
    Stops word s (.error e) s := by
  refine ⟨.refl _, trivial, ?_, [], fun _ h => absurd h List.not_mem_nil, List.nil_prefix, .nil _⟩
  rintro _ ⟨⟩
  exact h

theorem past_code {c : Cursor} (h : s.interpreter.cursor.Skips c) :
    Past word s { s.interpreter with textPos := c.pos } s.host := by
  obtain ⟨text, ht, hpassed⟩ := h
  refine ⟨.of_within hpassed.within _, [.code text ht], fun p hp => ?_, ?_, .nil _⟩
  · rw [List.mem_singleton.1 hp]
    exact trivial
  · rw [List.flatMap_singleton, Interpreter.cursor_of_passed hpassed rfl]
    exact hpassed

/-- While a line is being executed, and where `pre` holds, the action reads on and then has this
effect on the interpreter; where it stops, it has only read on. -/
def Leads (word : Option Keyword) (l : Listing) (frames : List Frame) (pre : Interpreter → Prop)
    (effect : Interpreter → α → Interpreter → Prop) (act : Act σ α) : Prop :=
  ∀ s : Session σ, s.interpreter.Running l frames → pre s.interpreter →
    Ends (act s)
      (fun a t => ∃ j, Past word s j t.host ∧ effect j a t.interpreter)
      (Stops word s)

def reading (post : α → Interpreter → Prop) (i : Interpreter) (a : α) (j : Interpreter) : Prop :=
  j = i ∧ post a i

abbrev Reads (word : Option Keyword) (l : Listing) (frames : List Frame)
    (post : α → Interpreter → Prop) (act : Act σ α) : Prop :=
  Leads word l frames (fun _ => True) (reading post) act

variable {pre : Interpreter → Prop} {post : α → Interpreter → Prop}
  {effect : Interpreter → α → Interpreter → Prop}

theorem Reads.past {x : Act σ α} (hx : Reads word l frames post x)
    (hs : s.interpreter.Running l frames) :
    Ends (x s) (fun a t => Past word s t.interpreter t.host ∧ post a t.interpreter)
      (Stops word s) := by
  refine (hx s hs trivial).mono (fun a t h => ?_) fun _ _ h => h
  obtain ⟨j, hpast, he, hpost⟩ := h
  rw [he]
  exact ⟨hpast, hpost⟩

/-- Reading, and what follows it. -/
theorem Reads.bind {x : Act σ α} {f : α → Act σ β} {effect : Interpreter → β → Interpreter → Prop}
    (hx : Reads word l frames post x) (hf : ∀ a, Leads word l frames (post a) effect (f a)) :
    Leads word l frames pre effect (x >>= f) := by
  intro s hs _
  refine Ends.bind (hx.past hs) fun a t h => ?_
  obtain ⟨hpast, hpost⟩ := h
  refine (hf a t (hpast.readOn.running hs) hpost).mono (fun b u hu => ?_) fun _ _ hu =>
    hpast.stops hu
  obtain ⟨k, hk, he⟩ := hu
  exact ⟨k, hpast.trans hk, he⟩

theorem Leads.mono {pre' : Interpreter → Prop} {effect' : Interpreter → α → Interpreter → Prop}
    {act : Act σ α} (h : Leads word l frames pre effect act) (hp : ∀ i, pre' i → pre i)
    (he : ∀ i a j, effect i a j → effect' i a j) : Leads word l frames pre' effect' act := by
  intro s hs hpre
  refine (h s hs (hp _ hpre)).mono (fun a t ht => ?_) fun _ _ ht => ht
  obtain ⟨j, hpast, hj⟩ := ht
  exact ⟨j, hpast, he j a _ hj⟩

theorem leads_fail {e : Error} (h : ∀ i, pre i → e.category = .malformed → i.Ahead e.column) :
    Leads word l frames pre effect (fail e : Act σ α) :=
  fun _ _ hp => stops_error (h _ hp)

theorem leads_pure {a : α} (h : ∀ i, pre i → effect i a i) :
    Leads word l frames pre effect (pure a : Act σ α) :=
  fun s _ hp => ⟨s.interpreter, .refl s, h s.interpreter hp⟩

theorem Leads.look {f : Interpreter → β} {g : β → Act σ α}
    (h : ∀ b, Leads word l frames (fun i => pre i ∧ f i = b) effect (g b)) :
    Leads word l frames pre effect (look f >>= g) :=
  fun s hs hp => h (f s.interpreter) s hs ⟨hp, rfl⟩

theorem Leads.cursor {g : Cursor → Act σ α}
    (h : ∀ c, Leads word l frames (fun i => pre i ∧ i.cursor = c) effect (g c)) :
    Leads word l frames pre effect (cursor >>= g) :=
  Leads.look (f := Interpreter.cursor) h

theorem Leads.lookIn {f : Memory → Except Fault β} {g : β → Act σ α}
    (hf : ∀ i : Interpreter, i.Running l frames → ∃ b, f i.memory = .ok b)
    (h : ∀ b, Leads word l frames (fun i => pre i ∧ f i.memory = .ok b) effect (g b)) :
    Leads word l frames pre effect (lookIn f >>= g) := by
  intro s hs hp
  obtain ⟨b, hb⟩ := hf _ hs
  unfold Ends
  rw [bind_of_ok (lookIn_of_ok hb)]
  exact h b s hs ⟨hp, hb⟩

theorem Leads.note {g : Act σ α} (entry : Journal.Entry) (h : Leads word l frames pre effect g) :
    Leads word l frames pre effect (Session.note entry >>= fun _ => g) := by
  intro s hs hp
  refine (h (s.noted entry) hs hp).mono (fun a t ht => ?_) fun cause t ht => ?_
  · obtain ⟨j, ⟨hread, hpieces⟩, he⟩ := ht
    exact ⟨j, ⟨hread, hpieces⟩, he⟩
  · obtain ⟨hread, hsafe, hahead, hpieces⟩ := ht
    exact ⟨hread, hsafe, hahead, hpieces⟩

/-- Moving on in the line, and what follows it. -/
theorem Leads.goTo {c : Cursor} {g : Act σ α} (hc : ∀ i, pre i → i.cursor.Skips c)
    (h : Leads word l frames (fun i => i.cursor = c) effect g) :
    Leads word l frames pre effect (Session.goTo c >>= fun _ => g) := by
  intro s hs hp
  have hskips := hc _ hp
  have hpast : Past word s (s.movedTo c.pos).interpreter s.host := past_code hskips
  refine (h (s.movedTo c.pos) (hpast.readOn.running hs) (cursor_movedTo hskips.within)).mono
    (fun a t ht => ?_) fun _ _ ht => hpast.stops (t := s.movedTo c.pos) ht
  obtain ⟨k, hk, he⟩ := ht
  exact ⟨k, hpast.trans (t := s.movedTo c.pos) hk, he⟩

theorem reads_evaluate : Reads word l frames (fun r j => ∀ e, r = .error e → e.column = j.textPos)
    (evaluate : Act σ (Except Error Int16)) := by
  intro s hs _
  rcases hr : s.interpreter.cursor.expression.1.evaluate s.interpreter.memory.view
    s.interpreter.generator with ⟨result, generator⟩
  obtain ⟨text, ht, hpassed⟩ := Cursor.Skips.expression s.interpreter.cursor
  refine Ends.of_ok (evaluate_eq hs.layout hr) ⟨_, ⟨.of_within hpassed.within generator,
    [.code text ht], fun p hp => ?_, ?_, .nil _⟩, rfl, fun e he => ?_⟩
  · rw [List.mem_singleton.1 hp]
    exact trivial
  · have hcursor := Interpreter.cursor_of_passed (j := { s.interpreter with generator }) hpassed rfl
    rw [List.flatMap_singleton]
    exact hcursor.symm ▸ hpassed
  · cases result with
    | ok x => cases he
    | error why =>
      cases he
      rfl

end
end Session
end LineBasic
