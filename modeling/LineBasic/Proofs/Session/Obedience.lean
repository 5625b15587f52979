import LineBasic.Proofs.Session.Entry
import LineBasic.Proofs.Session.Statements
import LineBasic.Session.Step

namespace LineBasic.Session
variable {σ α β : Type}

/-- The action keeps the host in this relation to what it was, and what it gives meets the
condition. -/
def Obeys (R : σ → σ → Prop) (post : α → Prop) (act : Act σ α) : Prop :=
  ∀ s, Ends (act s) (fun a t => R s.host t.host ∧ post a) fun _ t => R s.host t.host

abbrev Minds (R : σ → σ → Prop) (act : Act σ α) : Prop :=
  Obeys R (fun _ => True) act

section
variable {R : σ → σ → Prop} {post : α → Prop}

theorem Obeys.mono {post' : α → Prop} {act : Act σ α} (h : Obeys R post act)
    (hp : ∀ a, post a → post' a) :
    Obeys R post' act :=
  fun s => (h s).mono (fun a _ ha => ⟨ha.1, hp a ha.2⟩) fun _ _ he => he

theorem Obeys.attempt {act : Act σ α} (h : Obeys R post act) : Minds R (attempt act) := by
  intro s
  have hact := h s
  unfold Session.attempt
  cases hr : act s with
  | ok a t =>
    rw [hr] at hact
    exact ⟨hact.1, trivial⟩
  | error cause t =>
    rw [hr] at hact
    cases cause with
    | error e => exact ⟨hact, trivial⟩
    | io e => exact hact
    | fault f => exact hact

end

variable [Host σ] {R : σ → σ → Prop} [Unasked R] {post : α → Prop}

theorem obeys_pure {a : α} (h : post a) : Obeys R post (pure a : Act σ α) :=
  fun s => ⟨Unasked.refl s.host, h⟩

theorem Obeys.after {post' : β → Prop} {x : Act σ α} {f : α → Act σ β} (hx : Obeys R post x)
    (hf : ∀ a, post a → Obeys R post' (f a)) : Obeys R post' (x >>= f) := by
  intro s
  refine Ends.bind (hx s) fun a t h => ?_
  exact (hf a h.2 t).mono (fun b u hb => ⟨Unasked.trans h.1 hb.1, hb.2⟩) fun e u he =>
    Unasked.trans h.1 he

theorem Obeys.bind {post' : β → Prop} {x : Act σ α} {f : α → Act σ β} (hx : Minds R x)
    (hf : ∀ a, Obeys R post' (f a)) : Obeys R post' (x >>= f) :=
  .after hx fun a _ => hf a

theorem obeys_look (f : Interpreter → α) : Minds R (look f : Act σ α) :=
  fun s => ⟨Unasked.refl s.host, trivial⟩

theorem obeys_change (f : Interpreter → Interpreter) : Minds R (change f : Act σ Unit) :=
  fun s => ⟨Unasked.refl s.host, trivial⟩

theorem obeys_note (entry : Journal.Entry) : Minds R (note entry : Act σ Unit) :=
  fun s => ⟨Unasked.refl s.host, trivial⟩

theorem obeys_tally (peeks : Nat) : Minds R (tally peeks : Act σ Unit) :=
  fun s => ⟨Unasked.refl s.host, trivial⟩

theorem obeys_onMemory (update : Update α) : Minds R (onMemory update : Act σ α) := by
  intro s
  cases hr : update s.interpreter.memory with
  | ok a m => exact Ends.of_ok (onMemory_of_ok hr) ⟨Unasked.refl s.host, trivial⟩
  | error e m =>
    rw [onMemory_of_error hr]
    exact Unasked.refl s.host

theorem Prints.minds {bytes : List UInt8} {act : Act σ α} (h : Prints bytes act) : Minds R act := by
  refine fun s => (h s).mono (fun _ _ h => ⟨h.2.unasked, trivial⟩) fun cause t h => ?_
  obtain ⟨-, e, -, hfailed⟩ := h
  exact hfailed.unasked

theorem obeys_writeByte (b : UInt8) : Minds R (writeByte b : Act σ Unit) :=
  (prints_writeByte b).minds

theorem obeys_print (bytes : List UInt8) : Minds R (print bytes : Act σ Unit) :=
  (prints_print bytes).minds

theorem obeys_printLine (line : List UInt8) : Minds R (printLine line : Act σ Unit) :=
  (prints_printLine line).minds

theorem obeys_printFree : Minds R (printFree : Act σ Unit) :=
  .bind (obeys_onMemory _) fun _ => .bind (obeys_print _) fun _ => obeys_printLine _

theorem obeys_evaluate : Minds R (evaluate : Act σ (Except Error Int16)) := by
  refine .bind (obeys_look _) fun c => ?_
  dsimp only
  refine .bind (obeys_onMemory _) fun surroundings => ?_
  refine .bind (obeys_tally _) fun _ => ?_
  refine .bind (obeys_look _) fun generator => ?_
  rcases c.expression.1.evaluate surroundings generator with ⟨result, generator⟩
  refine .bind (obeys_change _) fun _ => ?_
  cases result with
  | ok x => exact obeys_pure trivial
  | error why => exact obeys_pure trivial

/-- A failure that is reported leads to the prompt, or to a restart. -/
theorem obeys_report (e : Error) : Obeys R (· ∈ [.prompt, .restart]) (report e : Act σ Phase) := by
  refine .bind (obeys_look _) fun current => .bind (obeys_note _) fun _ => ?_
  have hlast : Obeys R (· ∈ [.prompt, .restart]) (do
      newline
      change fun i => { i with currentLine := none }
      return .prompt : Act σ Phase) :=
    .bind (obeys_writeByte _) fun _ => .bind (obeys_change _) fun _ => obeys_pure (by decide)
  cases e.category with
  | malformed =>
    refine .bind (obeys_print _) fun _ => .bind (obeys_writeByte _) fun _ => ?_
    cases current with
    | none => exact hlast
    | some address =>
      refine .bind (obeys_onMemory _) fun found => ?_
      cases found with
      | none => exact hlast
      | some line =>
        refine .bind (obeys_print _) fun _ => ?_
        refine .bind (obeys_writeByte _) fun _ => ?_
        refine .bind (obeys_print _) fun _ => ?_
        exact hlast
  | impossible =>
    exact .bind (obeys_printLine _) fun _ => .bind (obeys_change _) fun _ => obeys_pure (by decide)
  | exhausted => exact .bind (obeys_printLine _) fun _ => obeys_pure (by decide)

/-- What is executed asks the host for nothing, and only `INPUT` asks for a reply. -/
theorem execute_obeys {s : Session σ} {l : Listing} {frames : List Frame}
    (hs : s.interpreter.Running l frames) :
    Ends (execute s)
      (fun phase t => R s.host t.host ∧
        (phase.Onwards ∨ s.interpreter.keyword = some .input ∧
          ∃ v resume, phase = .ask (.reply v resume)))
      fun _ t => R s.host t.host := by
  have hstatement := statement_ends hs
  cases hr : statement s with
  | ok phase t =>
    rw [hr] at hstatement
    obtain ⟨bytes, hwrote⟩ := hstatement.wrote
    exact Ends.after_ok (attempt_of_ok hr) ⟨hwrote.unasked, hstatement.onwards⟩
  | error cause t =>
    rw [hr] at hstatement
    obtain ⟨pieces, -, -, hwrote⟩ := hstatement.exists_pieces
    have hbefore : R s.host t.host := hwrote.unasked
    cases cause with
    | error e =>
      refine Ends.after_ok (attempt_of_error hr) ((obeys_report (R := R) e t).mono
        (fun phase u h => ⟨Unasked.trans hbefore h.1, Or.inl ?_⟩) fun _ u h =>
          Unasked.trans hbefore h)
      have hphase := h.2
      simp only [List.mem_cons, List.not_mem_nil, or_false] at hphase
      obtain rfl | rfl := hphase
      · decide
      · decide
    | io e => exact Ends.after_error (e := .io e) (by simp only [attempt, hr]) hbefore
    | fault f => exact absurd hstatement.safe id

theorem obeys_storeLine (number : UInt16) (body : Nat) :
    Minds R (storeLine number body : Act σ Unit) := by
  refine .bind (obeys_onMemory _) fun edit => ?_
  obtain ⟨removed, stored⟩ := edit
  cases stored with
  | none =>
    cases removed with
    | true => exact .bind (obeys_note _) fun _ => obeys_pure trivial
    | false => exact obeys_pure trivial
  | some length =>
    cases removed with
    | true => exact .bind (obeys_note _) fun _ => obeys_note _
    | false => exact obeys_note _

theorem obeys_accept : Obeys R (· ∈ [.direct, .prompt, .restart]) (accept : Act σ Phase) := by
  have hreport (e : Error) : Obeys R (· ∈ [.direct, .prompt, .restart]) (report e : Act σ Phase) :=
    (obeys_report e).mono fun _ => List.mem_cons_of_mem _
  refine .bind (obeys_look _) fun start => ?_
  refine .bind (obeys_onMemory _) fun _ => ?_
  refine .bind (obeys_onMemory _) fun staged => ?_
  refine .bind (obeys_look _) fun ram => ?_
  rcases Cursor.lineNumber ⟨ram, staged⟩ with ⟨number, c⟩
  refine .bind (obeys_change _) fun _ => ?_
  split
  · exact .bind (obeys_change _) fun _ => obeys_pure List.mem_cons_self
  split
  · exact hreport _
  · refine .bind (obeys_storeLine _ _).attempt fun result => ?_
    cases result with
    | ok u => exact obeys_pure (by decide)
    | error e => exact hreport e

/-- A reply that is taken leads on, and one that is not is asked for again. -/
theorem obeys_takeReply (v : Variable) (resume : Nat) :
    Obeys R (· ∈ [.proceed, .ask (.reply v resume)]) (takeReply v resume : Act σ Phase) := by
  refine .bind (obeys_look _) fun start => ?_
  refine .bind (obeys_onMemory _) fun _ => ?_
  refine .bind (obeys_change _) fun _ => ?_
  refine .bind obeys_evaluate fun result => ?_
  cases result with
  | ok x =>
    exact .bind (obeys_onMemory _) fun _ => .bind (obeys_change _) fun _ =>
    obeys_pure List.mem_cons_self
  | error e =>
    exact .bind (obeys_note _) fun _ => obeys_pure (List.mem_cons_of_mem _ List.mem_cons_self)

theorem obeys_entryLimit : Minds R (entryLimit : Act σ Nat) := by
  refine .bind (obeys_look _) fun start => ?_
  refine .bind (obeys_onMemory _) fun room => ?_
  refine .bind (obeys_look _) fun direct => ?_
  cases direct with
  | none => exact obeys_pure trivial
  | some direct => exact obeys_pure trivial

theorem obeys_submit (line : List UInt8) :
    Obeys R (· ∈ [.direct, .prompt, .restart]) (submit line : Act σ Phase) := by
  refine .bind (obeys_change _) fun _ => ?_
  refine .bind obeys_entryLimit fun _ => ?_
  refine .bind (obeys_look _) fun _ => ?_
  refine .bind (obeys_onMemory _) fun _ => ?_
  exact obeys_accept

theorem obeys_proceed : Obeys R (· ∈ [.nextLine, .poll]) (proceed : Act σ Phase) :=
  .bind (obeys_look _) fun c => .bind (obeys_change _) fun _ => obeys_pure (by split <;> decide)

theorem obeys_nextLine : Obeys R (· ∈ [.line, .prompt]) (nextLine : Act σ Phase) := by
  refine .bind (obeys_look _) fun current => ?_
  cases current with
  | none => exact obeys_pure (by decide)
  | some address =>
    exact .bind (obeys_onMemory _) fun _ => .bind (obeys_change _) fun _ => obeys_pure (by decide)

theorem obeys_line : Obeys R (· ∈ [.poll, .restart]) (line : Act σ Phase) := by
  refine .bind (obeys_look _) fun current => ?_
  cases current with
  | none => exact obeys_pure (by decide)
  | some address =>
    refine .bind (obeys_look _) fun programEnd => ?_
    split
    · exact .bind (obeys_change _) fun _ => obeys_pure (by decide)
    · exact obeys_pure (by decide)

theorem obeys_dropPending : Minds R (dropPending : Act σ Unit) :=
  .bind (obeys_change _) fun _ => obeys_onMemory _

theorem obeys_greet : Obeys R (· = .restart) (greet : Act σ Phase) := by
  refine .bind (.bind (obeys_look _) fun size => .bind (obeys_note _)
    fun _ => .bind (obeys_onMemory _) fun _ =>
    .bind (obeys_change _) fun _ => obeys_dropPending) fun _ => ?_
  exact .bind (obeys_printLine _) fun _ => .bind obeys_printFree fun _ => obeys_pure rfl

theorem obeys_restart : Obeys R (· = .prompt) (restart : Act σ Phase) :=
  .bind obeys_dropPending fun _ => .bind (obeys_printLine _) fun _ => obeys_pure rfl

theorem obeys_ask (purpose : Purpose) :
    Obeys R (fun phase => ∃ pos, phase = .edit purpose pos) (ask purpose : Act σ Phase) :=
  .bind (obeys_writeByte _) fun _ => .bind (obeys_look _) fun start => obeys_pure ⟨start, rfl⟩

end LineBasic.Session
