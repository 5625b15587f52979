import LineBasic.Proofs.Session.Statements
import LineBasic.Proofs.Session.Typing

namespace LineBasic

def Interpreter.released (i : Interpreter) : Interpreter :=
  { i with memory := { i.memory with stackTop := i.memory.size }, currentLine := none, directText :=
    none }

theorem Memory.Sane.released {i : Interpreter} {l : Listing} {frames : List Frame}
    (h : i.memory.Sane l frames) :
    i.released.memory.Sane l [] :=
  ⟨h.toSound.unstacked, fun _ hf => absurd hf List.not_mem_nil⟩

def Interpreter.afresh (i : Interpreter) : Interpreter :=
  { i with memory := i.memory.cleared, generator :=
    i.generator.reseed 0, currentLine := none, directText := none }

theorem Memory.Sane.afresh {i : Interpreter} {l : Listing} {frames : List Frame}
    (h : i.memory.Sane l frames) :
    i.afresh.memory.Sane .empty [] :=
  ⟨h.toSound.cleared, fun _ hf => absurd hf List.not_mem_nil⟩

namespace Session
variable {σ : Type} {l : Listing} {frames : List Frame}

def Onward (l : Listing) (frames : List Frame) (phase : Phase) (i : Interpreter) : Prop :=
  ∃ frames', i.Ready l frames' phase ∧ frames'.Sublist frames

theorem onward_of_ready {phase : Phase} {i : Interpreter} (h : i.Ready l frames phase) :
    Onward l frames phase i :=
  ⟨frames, h, .refl _⟩

theorem onward_stop {i : Interpreter} (h : i.memory.Sane l frames) :
    i.memory.Layout ∧ Onward l frames .prompt i :=
  ⟨h.layout, onward_of_ready h⟩

theorem takes_proceed :
    Takes (fun i => i.Ready l frames .proceed) (Onward l frames) (Onward l frames .prompt)
    (proceed : Act σ Phase) := by
  intro s hs
  have hw : s.interpreter.cursor.Within (s.interpreter.cursor.moveTo
      (s.interpreter.cursor.rest.dropWhile (· = byte ':'))).skipBlanks :=
    (Cursor.moveTo_within _ _).trans (Cursor.skipBlanks_within _)
  have hrunning := (Interpreter.ReadOn.of_within hw s.interpreter.generator).running hs
  refine Ends.of_ok rfl (onward_of_ready ?_)
  split
  · exact hrunning
  · exact hrunning

theorem takes_nextLine :
    Takes (fun i => i.Ready l frames .nextLine) (Onward l frames) (Onward l frames .prompt)
    (nextLine : Act σ Phase) := by
  refine Takes.look fun current => ?_
  cases current with
  | none => exact takes_pure fun i hi => onward_of_ready (Interpreter.Ready.sane hi.1)
  | some address =>
    rintro s ⟨hs, hc⟩
    obtain ⟨line, hstarts, -, -⟩ : l.Inside s.interpreter.memory.variablesBegin (some address)
      s.interpreter.textPos := hc ▸ hs.inside
    have hat : Memory.LineAt s.interpreter.memory l line address := ⟨hstarts, hs.holds, hs.layout⟩
    refine Ends.after_ok (lookIn_of_ok hat.nextLine_eq)
      (onward_of_ready ⟨hs.toExecuting, fun a ha => ?_⟩)
    cases ha
    exact hstarts.begins_next

theorem takes_line :
    Takes (fun i => i.Ready l frames .line) (Onward l frames) (Onward l frames .prompt)
    (line : Act σ Phase) := by
  refine Takes.look fun current => ?_
  cases current with
  | none => exact takes_pure fun i hi => onward_of_ready hi.1.1.toSane
  | some address =>
    refine Takes.look fun programEnd => ?_
    by_cases hlt : address < programEnd
    · rw [if_pos hlt]
      rintro s ⟨⟨⟨hs, hbegins⟩, hc⟩, rfl⟩
      obtain ⟨line, hstarts⟩ | hend := hbegins address hc
      · refine Ends.of_ok rfl (onward_of_ready ⟨hs, ?_⟩)
        show l.Inside _ s.interpreter.currentLine (Memory.textStart address)
        rw [hc]
        exact ⟨line, hstarts, Nat.le_refl _, Nat.le_add_right _ _⟩
      · have := hs.holds.programEnd_eq
        omega
    · rw [if_neg hlt]
      exact takes_pure fun i hi => onward_of_ready hi.1.1.1.toSane

theorem dropPending_eq (s : Session σ) :
    dropPending s = .ok () { s with interpreter := s.interpreter.released } := rfl

theorem reset_eq {s : Session σ} (hm : s.interpreter.memory.Layout) :
    reset s = .ok () { s.noted (.coldStart s.interpreter.memory.size) with interpreter :=
      s.interpreter.afresh } := by
  have hsize : s.interpreter.memory.cleared.size = s.interpreter.memory.size :=
    Memory.size_cleared _
  have htop := Memory.stackTop_cleared s.interpreter.memory
  have hclear := Memory.clear_eq hm
  unfold Interpreter.afresh
  generalize s.interpreter.memory.cleared = cleared at hsize htop hclear
  have hcleared := onMemory_of_ok (s := s.noted (.coldStart s.interpreter.memory.size)) hclear
  unfold reset
  refine (bind_of_ok (show look (·.memory.size) s = .ok s.interpreter.memory.size s from rfl)).trans
    ?_
  refine (bind_of_ok (show note _ s = .ok () (s.noted (.coldStart s.interpreter.memory.size))
    from rfl)).trans ?_
  refine (bind_of_ok hcleared).trans ((bind_of_ok (show change _ _ = .ok () _ from rfl)).trans ?_)
  rw [dropPending_eq]
  simp only [Interpreter.released, withMemory, Interpreter.withMemory, hsize, ← htop]
  rfl

variable [Host σ]

theorem takes_poll :
    Takes (fun i => i.Ready l frames .poll) (Onward l frames) (Onward l frames .prompt)
    (poll : Act σ Phase) := by
  refine Talks.takes talks_interrupted (fun i hi => onward_stop (Interpreter.Ready.sane hi))
    fun stop => ?_
  cases stop with
  | true =>
    exact Talks.takes (talks_printLine _) (fun i hi => onward_stop (Interpreter.Ready.sane hi))
      fun _ =>
      takes_pure fun i hi => onward_of_ready (Interpreter.Ready.sane hi)
  | false => exact takes_pure fun i hi => onward_of_ready hi

theorem restart_ends {s : Session σ} (hm : s.interpreter.memory.Layout) :
    Ends (restart s) (fun phase s' => phase = .prompt ∧ s'.interpreter = s.interpreter.released)
      fun h s' => (∃ e, h = .io e) ∧ s'.interpreter = s.interpreter.released := by
  have hreleased : s.interpreter.released.memory.Layout :=
    hm.congr ⟨rfl, rfl, rfl, rfl⟩ (Nat.le_trans hm.limit_le hm.top_le) (Nat.le_refl _)
  refine Ends.after_ok (dropPending_eq s) (Ends.bind
    ((talks_printLine _ _ hreleased).mono (fun _ _ h => h) ?_) ?_)
  · exact fun h s' hh => ⟨hh.2, hh.1⟩
  · exact fun _ s' hs' => ⟨rfl, hs'⟩

theorem takes_restart_prompt : Takes (fun i => i.memory.Sane l frames)
    (fun phase i => phase = .prompt ∧ i.memory.Sane l []) (fun i => i.memory.Sane l [])
      (restart : Act σ Phase) := by
  intro s hs
  have hsane := hs.released
  refine (restart_ends hs.layout).mono (fun phase s' h => ?_) fun h s' hh => ?_
  · exact ⟨h.1, h.2 ▸ hsane⟩
  · exact ⟨hh.1, hh.2 ▸ hsane⟩

theorem takes_restart :
    Takes (fun i => i.memory.Sane l frames) (Onward l frames) (Onward l frames .prompt)
    (restart : Act σ Phase) := by
  intro s hs
  have hnone := List.nil_sublist frames
  refine (takes_restart_prompt s hs).mono (fun phase s' h => ?_) fun h s' hh =>
    ⟨hh.1, [], hh.2, hnone⟩
  obtain ⟨rfl, hsane⟩ := h
  exact ⟨[], hsane, hnone⟩

theorem takes_greet :
    Takes (fun i => i.memory.Sane l frames) (fun phase i => i.Ready .empty [] phase)
    (fun i => i.memory.Sane .empty []) (greet : Act σ Phase) := by
  have hbanner : Takes (fun i => i.memory.Sane .empty []) (fun phase i => i.Ready .empty [] phase)
      (fun i => i.memory.Sane .empty []) (do
        printLine banner
        printFree
        return .restart : Act σ Phase) :=
    Talks.takes (talks_printLine _) (fun i hi => ⟨hi.layout, hi⟩) fun _ =>
      Talks.takes talks_printFree (fun i hi => ⟨hi.layout, hi⟩) fun _ => takes_pure fun i hi => hi
  intro s hs
  exact Ends.after_ok (reset_eq hs.layout) (hbanner _ hs.afresh)

theorem takes_ask (purpose : Purpose) : Takes (fun i => i.Asking l frames purpose) (Onward l frames)
    (Onward l frames .prompt) (ask purpose : Act σ Phase) := by
  refine Talks.takes (talks_writeByte _) (fun i hi => onward_stop hi.sane) fun _ =>
    Takes.look fun start =>
    takes_pure fun i hi => onward_of_ready ⟨hi.1, ?_⟩
  obtain ⟨hasking, rfl⟩ := hi
  have := hasking.sane.layout.reserve
  exact ⟨Nat.le_refl _, by show i.memory.programEnd + 2 + 2 ≤ _; omega, Nat.le_add_right _ _⟩

/-- A statement that fails is reported, with the program and the frames as they were. -/
theorem report_onward {s : Session σ} (hs : s.interpreter.Running l frames) (e : Error) :
    Ends (report e s) (fun phase s' => phase ∈ [.prompt, .restart] ∧
      Onward l frames phase s'.interpreter)
      fun h s' => (∃ e, h = .io e) ∧ Onward l frames .prompt s'.interpreter := by
  refine (concludes_report e s hs.layout).mono (fun phase s' h => ?_) fun h s' hh => ?_
  · obtain ⟨-, rfl, hj⟩ | ⟨-, rfl, hj⟩ := h
    · exact ⟨by decide, onward_of_ready (hj ▸ hs.sane)⟩
    · rw [hj]
      exact ⟨by decide, onward_of_ready hs.sane⟩
  · exact ⟨hh.2, onward_of_ready (hh.1 ▸ hs.sane)⟩

/-- What is executed leads where its statement leads, or to a report. -/
theorem execute_ends {s : Session σ} {ok : Phase → Session σ → Prop}
    (hs : s.interpreter.Running l frames) (h : Ends (statement s) ok fun _ _ => True) :
    Ends (execute s)
      (fun phase t => ok phase t ∨ phase ∈ [.prompt, .restart] ∧
        Onward l frames phase t.interpreter)
      fun h t => (∃ e, h = .io e) ∧ Onward l frames .prompt t.interpreter := by
  have hstops := statement_ends hs
  cases hr : statement s with
  | ok phase t =>
    rw [hr] at h
    exact Ends.after_ok (attempt_of_ok hr) (Or.inl h)
  | error cause t =>
    rw [hr] at hstops
    have hrunning := hstops.readOn.running hs
    cases cause with
    | fault f => exact absurd hstops.safe id
    | io e =>
      have hattempt : attempt statement s = .error (.io e) t := by simp only [attempt, hr]
      exact Ends.after_error hattempt ⟨⟨e, rfl⟩, onward_of_ready hrunning.sane⟩
    | error e =>
      exact Ends.after_ok (attempt_of_error hr)
        ((report_onward hrunning e).mono (fun _ _ h => Or.inr h) fun _ _ h => h)

theorem execute_did {s : Session σ} (hs : s.interpreter.Running l frames) :
    Ends (execute s)
      (fun phase t => Did l frames s phase t ∨ phase ∈ [.prompt, .restart] ∧
        Onward l frames phase t.interpreter)
      fun h t => (∃ e, h = .io e) ∧ Onward l frames .prompt t.interpreter :=
  execute_ends hs ((statement_ends hs).mono (fun _ _ h => h) fun _ _ _ => trivial)

/-- A statement other than `NEW` keeps the program, whether or not it fails. -/
theorem execute_kept {s : Session σ} (hs : s.interpreter.Running l frames)
    (hk : s.interpreter.keyword ≠ some .new) :
    Ends (execute s)
      (fun phase s' => ∃ frames', s'.interpreter.Ready l frames' phase ∧
        Interpreter.Kept (s.interpreter.Pushes · s'.interpreter) frames frames')
      fun h s' => (∃ e, h = .io e) ∧ Onward l frames .prompt s'.interpreter := by
  refine (execute_did hs).mono (fun phase s' h => ?_) fun _ _ h => h
  obtain hdid | ⟨-, frames', hready, hsub⟩ := h
  · obtain ⟨frames', he⟩ := hdid.kept hk
    exact ⟨frames', hs.effect he⟩
  · exact ⟨frames', hready, Or.inl hsub⟩

theorem takes_execute_new : Takes (fun i => i.Ready l frames .execute ∧ i.keyword = some .new)
    (fun phase i => i.Ready .empty [] phase ∨ Onward l frames phase i) (Onward l frames .prompt)
    (execute : Act σ Phase) := by
  rintro s ⟨hs, hk⟩
  have hs : s.interpreter.Running l frames := hs
  refine (execute_did hs).mono (fun phase s' h => ?_) fun _ _ h => h
  exact h.imp (fun hdid => hs.cleared (hdid.cleared hk)) And.right

inductive Executed (l : Listing) (frames : List Frame) (i : Interpreter) (phase : Phase)
    (j : Interpreter) : Prop
  /-- The statement has gone through. -/
  | done {frames' : List Frame} (he : Effect l frames i phase frames' j)
  /-- It was `NEW`. -/
  | emptied (hc : Cleared i phase j)
  /-- It has failed, and that has been reported. -/
  | reported (hp : phase ∈ [.prompt, .restart]) (ho : Onward l frames phase j)

theorem execute_executed {s : Session σ} (hs : s.interpreter.Running l frames) :
    Ends (execute s) (fun phase s' => Executed l frames s.interpreter phase s'.interpreter)
      fun h s' => (∃ e, h = .io e) ∧ Onward l frames .prompt s'.interpreter := by
  refine (execute_did hs).mono (fun phase s' h => ?_) fun _ _ h => h
  obtain hdid | ⟨hp, ho⟩ := h
  · by_cases hk : s.interpreter.keyword = some .new
    · exact .emptied (hdid.cleared hk)
    · obtain ⟨frames', he⟩ := hdid.kept hk
      exact .done he
  · exact .reported hp ho

end Session

def Phase.Keeps (i : Interpreter) : Phase → Prop
  | .cold | .edit .command _ => False
  | .execute => i.keyword ≠ some .new
  | _ => True

/-- How program and frames go on: another program has no frames, and the same program keeps some of
its frames or has one more, of those that may be pushed. -/
structure Follows (pushes : Frame → Prop) (l : Listing) (frames : List Frame) (l' : Listing)
    (frames' : List Frame) :
    Prop where
  becomes : Session.Becomes l l'
  kept : frames' = [] ∨ l' = l ∧ Interpreter.Kept pushes frames frames'

theorem Follows.refl (pushes : Frame → Prop) (l : Listing) (frames : List Frame) :
    Follows pushes l frames l frames :=
  ⟨.same, Or.inr ⟨rfl, .refl _ _⟩⟩

theorem Follows.mono {pushes pushes' : Frame → Prop} {l l' : Listing} {frames frames' : List Frame}
    (h : Follows pushes l frames l' frames') (hp : ∀ frame, pushes frame → pushes' frame) :
    Follows pushes' l frames l' frames' :=
  ⟨h.becomes, h.kept.imp_right fun ⟨hl, hk⟩ => ⟨hl, hk.imp_right fun ⟨frame, hf, he⟩ =>
    ⟨frame, hp frame hf, he⟩⟩⟩

theorem Session.Unstacked.follows {l l' : Listing} {frames frames' : List Frame}
    (h : Session.Unstacked l l' frames frames') (pushes : Frame → Prop)
      (hl : Session.Becomes l l') :
    Follows pushes l frames l' frames' :=
  ⟨hl, h.imp_right fun ⟨hf, hsame⟩ => ⟨hsame, hf ▸ .refl _ _⟩⟩

def Successor (phase : Phase) (i : Interpreter) (l : Listing) (frames : List Frame) (phase' : Phase)
    (j : Interpreter) : Prop :=
  ∃ l' frames', j.Ready l' frames' phase' ∧
    Follows (fun frame => phase = .execute ∧ i.Pushes frame j) l frames l' frames' ∧
    (phase.Keeps i → l' = l)

section
variable {l : Listing} {frames : List Frame} {phase phase' : Phase} {i j : Interpreter}

theorem Session.Onward.successor (h : Session.Onward l frames phase' j) :
    Successor phase i l frames phase' j := by
  obtain ⟨frames', hr, hsub⟩ := h
  exact ⟨l, frames', hr, ⟨.same, Or.inr ⟨rfl, Or.inl hsub⟩⟩, fun _ => rfl⟩

theorem successor_empty (h : j.Ready .empty [] phase') (hk : ¬ phase.Keeps i) :
    Successor phase i l frames phase' j :=
  ⟨.empty, [], h, ⟨.emptied, Or.inl rfl⟩, fun h => absurd h hk⟩

theorem Session.TypedOn.successor {purpose : Purpose} {pos : Nat}
    (h : Session.TypedOn l frames purpose phase' j) :
    Successor (.edit purpose pos) i l frames phase' j := by
  obtain ⟨l', frames', hr, hk, hu, hl⟩ := h
  refine ⟨l', frames', hr, hu.follows _ hl, fun hkeeps => hk ?_⟩
  rintro rfl
  exact hkeeps

end

/-- A step from a phase that is ready leads to one that is, and it stops only where the host fails.
-/
theorem Session.step_ends {σ : Type} [Host σ] {s : Session σ} {l : Listing} {frames : List Frame}
    {phase : Phase} (h : s.interpreter.Ready l frames phase) :
    Ends (step phase s) (fun phase' s' => Successor phase s.interpreter l frames phase'
      s'.interpreter)
      fun h s' => (∃ e, h = .io e) ∧ Successor phase s.interpreter l frames .prompt
      s'.interpreter := by
  have onward {act : Act σ Phase} {pre : Interpreter → Prop}
      (hact : Takes pre (Onward l frames) (Onward l frames .prompt) act) (hp : pre s.interpreter) :
      Ends (act s) (fun phase' s' => Successor phase s.interpreter l frames phase' s'.interpreter)
        fun h s' => (∃ e, h = .io e) ∧ Successor phase s.interpreter l frames .prompt
          s'.interpreter :=
    (hact s hp).mono (fun _ _ h => h.successor) fun _ _ h => ⟨h.1, h.2.successor⟩
  cases phase with
  | cold =>
    exact (takes_greet s h).mono (fun _ _ h => successor_empty h id) fun _ _ h =>
      ⟨h.1, successor_empty h.2 id⟩
  | restart => exact onward takes_restart h
  | prompt => exact Ends.of_ok rfl (onward_of_ready h).successor
  | direct =>
    have hsane : s.interpreter.Ready l frames .prompt := Interpreter.Ready.sane h
    have hpoll : s.interpreter.Ready l frames .poll := h
    refine Ends.of_ok (a := if s.interpreter.cursor.atEndOfLine = true then .prompt else .poll) rfl
      ?_
    split
    · exact (onward_of_ready hsane).successor
    · exact (onward_of_ready hpoll).successor
  | line => exact onward takes_line h
  | poll => exact onward takes_poll h
  | execute =>
    by_cases hk : s.interpreter.keyword = some .new
    · refine (takes_execute_new s ⟨h, hk⟩).mono (fun _ _ h => ?_) fun _ _ h => ⟨h.1, h.2.successor⟩
      obtain h | h := h
      · exact successor_empty h fun hkeeps => hkeeps hk
      · exact h.successor
    · refine (execute_kept h hk).mono (fun _ _ h => ?_) fun _ _ h => ⟨h.1, h.2.successor⟩
      obtain ⟨frames', hready, hkept⟩ := h
      refine ⟨l, frames', hready, ⟨.same, Or.inr ⟨rfl, hkept.imp_right fun ⟨frame, hp, hf⟩ => ?_⟩⟩,
        fun _ => rfl⟩
      exact ⟨frame, ⟨rfl, hp⟩, hf⟩
  | proceed => exact onward takes_proceed h
  | nextLine => exact onward takes_nextLine h
  | ask purpose => exact onward (takes_ask purpose) h
  | edit purpose pos =>
    exact (takes_typeByte s h).mono (fun _ _ h => h.successor) fun _ _ h => ⟨h.1, h.2.successor⟩
  | bye => exact Ends.of_ok rfl (onward_of_ready h).successor

end LineBasic
