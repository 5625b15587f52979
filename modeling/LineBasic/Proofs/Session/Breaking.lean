import LineBasic.Host.Script
import LineBasic.Proofs.Session.History
import LineBasic.Proofs.Session.Obedience
import LineBasic.Proofs.Trace

namespace LineBasic

namespace Phase

def pauses : Phase → Bool
  | poll | prompt | bye => true
  | _ => false

def rank : Phase → Nat
  | poll | prompt | bye => 0
  | direct | restart => 1
  | cold | line => 2
  | nextLine => 3
  | proceed | edit .. => 4
  | ask _ => 5
  | execute => 6

theorem rank_pos {phase : Phase} (h : phase.pauses = false) : 0 < phase.rank := by
  cases phase with
  | poll | prompt | bye => cases h
  | _ => exact Nat.zero_lt_succ _

theorem rank_le (phase : Phase) : phase.rank ≤ 6 := by
  cases phase with
  | ask _ => exact Nat.le_succ 5
  | edit _ _ => exact Nat.le_of_lt (Nat.lt_succ_of_lt (Nat.lt_succ_self 4))
  | _ => decide

theorem rank_le_of_onwards {phase : Phase} (h : phase.Onwards) : phase.rank ≤ 4 := by
  simp only [Onwards, List.mem_cons, List.not_mem_nil, or_false] at h
  rcases h with rfl | rfl | rfl | rfl | rfl | rfl
  all_goals decide

end Phase

/-- Between these two hosts lies a poll that does not stop a program: nothing was pending, or a byte
that is no interrupt, which was read and is lost. -/
def Traced.Passes {σ : Type} (h h' : Traced σ) : Prop :=
  h'.events = h.events ++ [.polled (.ok false)] ∨
    ∃ b, b ≠ Byte.interrupt ∧ h'.events = h.events ++ [.polled (.ok true), .read (.ok b)]

namespace Session
variable {σ α β : Type} [Host σ] {s : Session (Traced σ)} {n : Nat} {l : Listing}
  {frames : List Frame}

omit [Host σ] in
theorem onHost_traced (event : Except IoError α → HostEvent) (operation : EStateM IoError σ α)
    (s : Session (Traced σ)) :
    Ends (onHost (Traced.tracing event operation) s)
      (fun a t => t.interpreter = s.interpreter ∧ t.host.events = s.host.events ++ [event (.ok a)])
      fun cause t => ∃ e, cause = .io e ∧ t.host.events = s.host.events ++ [event (.error e)] := by
  have hends := Traced.tracing_ends event operation s.host
  unfold onHost
  dsimp only
  cases hr : Traced.tracing event operation s.host with
  | ok a host =>
    rw [hr] at hends
    exact ⟨rfl, hends⟩
  | error e host =>
    rw [hr] at hends
    exact ⟨e, rfl, hends⟩

/-- A step that does not poll and leads to no statement. It comes closer to the next pause, or a
byte has been typed. -/
def Descends (n : Nat) (s : Session (Traced σ))
    (r : EStateM.Result Halt (Session (Traced σ)) Phase) : Prop :=
  Ends r
    (fun phase t => phase ≠ .execute ∧ t.host.polls = s.host.polls ∧
      phase.rank + 1 + 2 * s.host.reads ≤ n + 2 * t.host.reads)
    fun _ t => t.host.polls = s.host.polls

omit [Host σ] in
theorem Obeys.descends {post : Phase → Prop} {act : Act (Traced σ) Phase}
    (h : Obeys Traced.OnlyWritten post act)
    (hn : n ≤ 6) (hp : ∀ phase, post phase → phase.rank < n) : Descends n s (act s) := by
  refine (h s).mono (fun phase t ht => ?_) fun _ t ht => ht.polls_eq
  have hrank := hp phase ht.2
  refine ⟨?_, ht.1.polls_eq, by rw [ht.1.reads_eq]; omega⟩
  rintro rfl
  exact absurd hrank (Nat.not_lt.2 hn)

theorem readByte_traced (s : Session (Traced σ)) :
    Ends (readByte s) (fun _ t => t.host.polls = s.host.polls ∧ t.host.reads = s.host.reads + 1)
      fun _ t => t.host.polls = s.host.polls := by
  refine (onHost_traced .read Host.read s).mono
    (fun b t h => ⟨Traced.polls_append h.2, Traced.reads_append h.2⟩) fun _ t h => ?_
  obtain ⟨e, -, he⟩ := h
  exact Traced.polls_append he

/-- After a typed byte has been read it may be stored and written back, and the line may be taken.
-/
theorem typeByte_descends (purpose : Purpose) (pos : Nat) (s : Session (Traced σ)) :
    Descends 4 s (typeByte purpose pos s) := by
  have hlimit := (obeys_entryLimit (R := Traced.OnlyWritten) s).mono (fun _ _ h => h) fun _ _ h =>
    h.polls_eq
  unfold typeByte
  refine Ends.after_ok (show look _ s = .ok s.interpreter.memory.entryStart s from rfl)
    (Ends.bind hlimit fun limit t ht => ?_)
  refine Ends.after_ok (show look _ t = .ok t.interpreter.echo t from rfl) ?_
  refine Ends.bind ((readByte_traced t).mono (fun _ _ h => h) fun _ u hu => hu.trans ht.1.polls_eq)
    fun b u hu => ?_
  -- The byte that was read pays for the way back from here to asking again.
  have hrest {act : Act (Traced σ) Phase} (h : Obeys Traced.OnlyWritten (·.rank ≤ 5) act) :
      Descends 4 s (act u) := by
    refine (h u).mono (fun phase v hv => ?_) fun _ v hv =>
      (hv.polls_eq.trans hu.1).trans ht.1.polls_eq
    obtain ⟨hwritten, hrank⟩ := hv
    refine ⟨?_, (hwritten.polls_eq.trans hu.1).trans ht.1.polls_eq, ?_⟩
    · rintro rfl
      exact absurd hrank (by decide)
    · rw [hwritten.reads_eq, hu.2, ht.1.reads_eq]
      omega
  have hedit (pos' : Nat) : Obeys Traced.OnlyWritten (·.rank ≤ 5)
      (pure (.edit purpose pos') : Act (Traced σ) Phase) :=
    obeys_pure (Nat.le_succ 4)
  refine hrest ?_
  split
  · -- The line has ended.
    have haccept : Obeys Traced.OnlyWritten (·.rank ≤ 5) (accept : Act (Traced σ) Phase) :=
      obeys_accept.mono (by decide)
    have htake (v : Variable) (resume : Nat) :
        Obeys Traced.OnlyWritten (·.rank ≤ 5) (takeReply v resume : Act (Traced σ) Phase) := by
      refine (obeys_takeReply v resume).mono fun phase h => ?_
      simp only [List.mem_cons, List.not_mem_nil, or_false] at h
      rcases h with rfl | rfl
      · exact Nat.le_succ 4
      · exact Nat.le_refl 5
    cases purpose with
    | command =>
      cases t.interpreter.echo with
      | true => exact .bind (obeys_writeByte _) fun _ => .bind (obeys_onMemory _) fun _ => haccept
      | false => exact .bind (obeys_onMemory _) fun _ => haccept
    | reply v resume =>
      cases t.interpreter.echo with
      | true =>
        exact .bind (obeys_writeByte _) fun _ => .bind (obeys_onMemory _) fun _ => htake v resume
      | false => exact .bind (obeys_onMemory _) fun _ => htake v resume
  split
  · split
    · split
      · exact .bind (obeys_print _) fun _ => hedit _
      · exact hedit _
    · exact hedit _
  split
  · exact hedit _
  split
  · exact .bind (obeys_writeByte _) fun _ => hedit _
  · refine .bind (obeys_onMemory _) fun _ => ?_
    dsimp only
    split
    · exact .bind (obeys_writeByte _) fun _ => hedit _
    · exact hedit _

theorem execute_descends (hs : s.interpreter.Running l frames) : Descends 6 s (execute s) := by
  refine (execute_obeys (R := Traced.OnlyWritten) hs).mono (fun phase t ht => ?_) fun _ t ht =>
    ht.polls_eq
  obtain ⟨hwritten, hphase⟩ := ht
  have hrank : phase.rank < 6 := by
    obtain honwards | ⟨-, v, resume, rfl⟩ := hphase
    · exact Nat.lt_of_le_of_lt (Phase.rank_le_of_onwards honwards) (by decide)
    · exact Nat.le_refl 6
  refine ⟨?_, hwritten.polls_eq, by rw [hwritten.reads_eq]; omega⟩
  rintro rfl
  exact absurd hrank (Nat.lt_irrefl 6)

theorem step_descends {phase : Phase} (h : s.interpreter.Ready l frames phase)
    (hp : phase ≠ .poll) :
    Descends (if phase.pauses then 6 else phase.rank) s (step phase s) := by
  cases phase with
  | poll => exact absurd rfl hp
  | prompt =>
    have hstep : Obeys Traced.OnlyWritten (· = .ask .command)
        (step .prompt : Act (Traced σ) Phase) :=
      .bind (obeys_change _) fun _ => obeys_pure rfl
    refine hstep.descends (by decide) ?_
    rintro _ rfl
    decide
  | bye =>
    have hstep : Obeys Traced.OnlyWritten (· = .bye) (step .bye : Act (Traced σ) Phase) :=
      obeys_pure rfl
    refine hstep.descends (by decide) ?_
    rintro _ rfl
    decide
  | direct =>
    have hstep : Obeys Traced.OnlyWritten (· ∈ [.prompt, .poll])
        (step .direct : Act (Traced σ) Phase) :=
      .bind (obeys_look _) fun c => obeys_pure (by split <;> decide)
    exact hstep.descends (by decide) (by decide)
  | restart =>
    refine obeys_restart.descends (by decide) ?_
    rintro _ rfl
    decide
  | cold =>
    refine obeys_greet.descends (by decide) ?_
    rintro _ rfl
    decide
  | line => exact obeys_line.descends (by decide) (by decide)
  | nextLine => exact obeys_nextLine.descends (by decide) (by decide)
  | proceed => exact obeys_proceed.descends (by decide) (by decide)
  | ask purpose =>
    refine Obeys.descends (n := 5) (obeys_ask purpose) (by decide) ?_
    rintro _ ⟨pos, rfl⟩
    exact Nat.lt_succ_self 4
  | edit purpose pos => exact typeByte_descends purpose pos s
  | execute => exact execute_descends h

/-- A poll lets the next statement be executed, or it stops the program. -/
theorem poll_traced (s : Session (Traced σ)) :
    Ends (poll s)
      (fun phase t => t.host.polls = s.host.polls + 1 ∧ s.host.reads ≤ t.host.reads ∧
        (phase = .execute ∧ t.interpreter = s.interpreter ∧ s.host.Passes t.host ∨
          phase = .restart))
      fun _ t => t.host.polls = s.host.polls + 1 := by
  -- A poll reads a byte only if one waits, and the byte stops the program only if it is the
  -- interrupt.
  have hfound : Ends (interrupted s)
      (fun stop t => t.host.polls = s.host.polls + 1 ∧ s.host.reads ≤ t.host.reads ∧
        (stop = false → t.interpreter = s.interpreter ∧ s.host.Passes t.host))
      fun _ t => t.host.polls = s.host.polls + 1 := by
    refine Ends.bind ((onHost_traced .polled Host.poll s).mono (fun _ _ h => h) fun _ t h => ?_)
      fun waiting t ht => ?_
    · obtain ⟨e, -, he⟩ := h
      exact Traced.polls_append he
    have hpolls : t.host.polls = s.host.polls + 1 := Traced.polls_append ht.2
    have hreads : t.host.reads = s.host.reads := Traced.reads_append ht.2
    cases waiting with
    | false => exact ⟨hpolls, Nat.le_of_eq hreads.symm, fun _ => ⟨ht.1, Or.inl ht.2⟩⟩
    | true =>
      refine Ends.bind ((onHost_traced .read Host.read t).mono (fun _ _ h => h) fun _ u h => ?_)
        fun b u hu => ?_
      · obtain ⟨e, -, he⟩ := h
        exact (Traced.polls_append he).trans hpolls
      · have hmore : u.host.reads = t.host.reads + 1 := Traced.reads_append hu.2
        refine ⟨(Traced.polls_append hu.2).trans hpolls, by omega,
          fun hb => ⟨hu.1.trans ht.1, Or.inr ⟨b, ?_, ?_⟩⟩⟩
        · exact of_decide_eq_false hb
        · rw [hu.2, ht.2, List.append_assoc]
          rfl
  refine Ends.bind hfound fun stop t ht => ?_
  obtain ⟨hpolls, hreads, hpass⟩ := ht
  cases stop with
  | false => exact ⟨hpolls, hreads, Or.inl ⟨rfl, hpass rfl⟩⟩
  | true =>
    refine Ends.bind ((obeys_printLine (R := Traced.OnlyWritten) _ t).mono (fun _ _ h => h.1)
      fun _ u h => ?_) fun _ u h => ?_
    · exact h.polls_eq.trans hpolls
    · exact ⟨h.polls_eq.trans hpolls, h.reads_eq ▸ hreads, Or.inr rfl⟩

/-- A poll that finds the interrupt stops the program, and two steps later the session is at the
prompt. -/
theorem drive_of_interrupt {h h' : Traced σ} (hpoll : Host.poll s.host = .ok true h)
    (hread : Host.read h = .ok Byte.interrupt h') (call : Call) :
    Ends (drive call.atRest 2 .poll s)
      (fun phase t => phase = .prompt ∧ t.interpreter = s.interpreter.released ∧
        t.host.events = h'.events ++ HostEvent.written (ascii "break!\nOK\n"))
      fun cause t => ∃ e, cause = .io e ∧ h'.FailsWriting (ascii "break!\nOK\n") e t.host := by
  have hstop : interrupted s = .ok true { s with host := h' } := by
    have hpending : pending s = .ok true { s with host :=
        h } := by simp only [pending, onHost, hpoll]
    have hbyte : readByte { s with host := h } = .ok Byte.interrupt { s with host := h' } := by
      simp only [readByte, onHost, hread]
    exact (bind_of_ok hpending).trans (bind_of_ok hbyte)
  have hlines : ascii "break!\nOK\n" = (ascii "break!" ++ [Byte.marker]) ++
      (ascii "OK" ++ [Byte.marker]) := by decide
  rw [hlines]
  -- Neither call is at rest at a poll or a restart, so both steps are taken.
  have hbusy {phase : Phase} (h : phase ∈ [.poll, .restart]) : call.atRest phase ≠ true := by
    simp only [List.mem_cons, List.not_mem_nil, or_false] at h
    rcases h with rfl | rfl
    all_goals
      cases call with
      | enter | serve => decide
  refine drive_succ (fun hrest => absurd hrest (hbusy (by decide))) fun _ => Ends.after_ok hstop ?_
  have hbreak := prints_printLine (ascii "break!") ({ s with host := h' } : Session (Traced σ))
  refine Ends.bind (hbreak.mono (fun _ _ h => h) fun cause t ht => ?_) fun _ t ht => ?_
  · obtain ⟨-, e, hcause, hfailed⟩ := ht
    exact ⟨e, hcause, Traced.failsWriting (hfailed.append _)⟩
  refine drive_succ (fun hrest => absurd hrest (hbusy (by decide))) fun _ =>
    Ends.after_ok (dropPending_eq t) ?_
  have hok := prints_printLine (ascii "OK") ({ t with interpreter := t.interpreter.released } :
    Session (Traced σ))
  refine Ends.bind (hok.mono (fun _ _ h => h) fun cause u hu => ?_) fun _ u hu => ⟨rfl, ?_, ?_⟩
  · obtain ⟨-, e, hcause, hfailed⟩ := hu
    exact ⟨e, hcause, Traced.failsWriting (ht.2.failedAt hfailed)⟩
  · rw [hu.1, ht.1]
  · exact Traced.events_eq (ht.2.append hu.2)

section
variable {phase : Phase}

/-- Steps are taken towards the next pause, and it is not reached only if bytes were typed. -/
theorem drive_returns (h : s.interpreter.Ready l frames phase) (steps : Nat) :
    Ends (drive Phase.pauses steps phase s)
      (fun phase' t => phase'.pauses = true ∨ steps + phase'.rank + 2 * s.host.reads ≤ phase.rank +
        2 * t.host.reads)
      fun cause _ => ∃ e, cause = .io e := by
  -- Without a byte read the rank goes down with every step; each byte read allows for two steps
  -- more.
  induction steps generalizing l frames phase s with
  | zero => exact Or.inr (by rw [Nat.zero_add])
  | succ steps ih =>
    refine drive_succ Or.inl fun hrest => ?_
    have hp : phase ≠ .poll := by
      rintro rfl
      cases hrest
    have hstep := step_descends h hp
    rw [if_neg (ne_true_of_eq_false hrest)] at hstep
    refine ((step_ends h).and hstep).mono (fun phase' t ht => ?_) fun _ _ ht => ht.1.1
    obtain ⟨⟨l', frames', hready, -⟩, -, -, hrank⟩ := ht
    refine (ih hready).mono (fun phase'' u hu => hu.imp_right fun hle => ?_) fun _ _ hu => hu
    omega

/-- From one pause to the next: a step, and not many more unless bytes are typed. -/
theorem pauses_again (h : s.interpreter.Ready l frames phase) (k : Nat) :
    Ends ((step phase >>= drive Phase.pauses (6 + 2 * k)) s)
      (fun phase' t => phase'.pauses = true ∨ s.host.reads + k < t.host.reads)
      fun cause _ => ∃ e, cause = .io e := by
  -- A poll may lead up to a statement; it is the other steps that come closer.
  have hcloser : Ends (step phase s) (fun phase' t => phase'.rank + 2 * s.host.reads ≤ 6 + 2 *
    t.host.reads)
      fun _ _ => True := by
    by_cases hp : phase = .poll
    · subst hp
      refine (poll_traced s).mono (fun phase' t ht => ?_) fun _ _ _ => trivial
      have := phase'.rank_le
      have := ht.2.1
      omega
    · refine (step_descends h hp).mono (fun phase' t ht => ?_) fun _ _ _ => trivial
      have hbound : (if phase.pauses then 6 else phase.rank) ≤ 6 := by
        split
        · exact Nat.le_refl 6
        · exact phase.rank_le
      have := ht.2.2
      omega
  refine Ends.bind (((step_ends h).and hcloser).mono (fun _ _ h => h) fun _ _ h => h.1.1)
    fun phase' t ht => ?_
  obtain ⟨⟨l', frames', hready, -⟩, hrank⟩ := ht
  refine (drive_returns hready _).mono (fun phase'' u hu => ?_) fun _ _ hu => hu
  cases hpauses : phase''.pauses with
  | true => exact Or.inl rfl
  | false =>
    have hpos := Phase.rank_pos hpauses
    obtain hpause | hle := hu
    · exact absurd hpause (ne_true_of_eq_false hpauses)
    · exact Or.inr (by omega)

/-- What comes after a statement that asks for nothing leads on towards the next pause. -/
theorem step_onwards (h : phase.Onwards) (hrest : phase.pauses = false) :
    Obeys Traced.OnlyWritten (fun phase' => (phase'.Onwards ∨ phase' = .poll) ∧
      phase'.rank < phase.rank)
      (step phase : Act (Traced σ) Phase) := by
  simp only [Phase.Onwards, List.mem_cons, List.not_mem_nil, or_false] at h
  rcases h with rfl | rfl | rfl | rfl | rfl | rfl
  · exact obeys_proceed.mono (by decide)
  · exact obeys_nextLine.mono (by decide)
  · exact obeys_line.mono (by decide)
  · cases hrest
  · refine obeys_restart.mono ?_
    rintro _ rfl
    decide
  · cases hrest

theorem drive_onwards (h : s.interpreter.Ready l frames phase)
    (hphase : phase.Onwards ∨ phase = .poll) {steps : Nat} (hsteps : phase.rank ≤ steps) :
    Ends (drive Phase.pauses steps phase s) (fun phase' _ => phase'.pauses = true) fun cause _ =>
      ∃ e, cause = .io e := by
  -- On the steps, for every program and stack, as each step may change them. The rank goes down
  -- until the pause.
  induction steps generalizing l frames phase s with
  | zero =>
    cases hpauses : phase.pauses with
    | true => exact hpauses
    | false => exact absurd hsteps (Nat.not_le.2 (Phase.rank_pos hpauses))
  | succ steps ih =>
    refine drive_succ id fun hrest => ?_
    obtain honwards | rfl := hphase
    · refine ((step_ends h).and (step_onwards honwards hrest s)).mono (fun phase' t ht => ?_)
        fun _ _ ht => ht.1.1
      obtain ⟨⟨l', frames', hready, -⟩, -, hphase', hrank⟩ := ht
      exact ih hready hphase' (by omega)
    · cases hrest

/-- After a poll before a statement other than `INPUT` the next pause comes whatever the host does.
-/
theorem poll_pauses_again (h : s.interpreter.Ready l frames .poll)
    (hk : s.interpreter.keyword ≠ some .input) :
    Ends ((poll >>= drive Phase.pauses 5) s) (fun phase _ => phase.pauses = true) fun cause _ =>
      ∃ e, cause = .io e := by
  have hpoll : Ends (poll s) _ _ := (step_ends h).and (poll_traced s)
  refine Ends.bind (hpoll.mono (fun _ _ h => h) fun _ _ h => h.1.1) fun phase t ht => ?_
  obtain ⟨⟨l', frames', hready, -⟩, -, -, ⟨rfl, hsame, -⟩ | rfl⟩ := ht
  · refine drive_succ (fun hrest => absurd hrest (by decide)) fun _ => ?_
    have hrunning : t.interpreter.Running l' frames' := hready
    refine ((step_ends hready).and (execute_obeys (R := Traced.OnlyWritten) hrunning)).mono
      (fun phase u hu => ?_) fun _ _ hu => hu.1.1
    obtain ⟨⟨l'', frames'', hready', -⟩, -, honwards | ⟨hinput, -⟩⟩ := hu
    · have hrank := Phase.rank_le_of_onwards honwards
      exact drive_onwards hready' (Or.inl honwards) (by omega)
    · rw [hsame] at hinput
      exact absurd hinput hk
  · exact drive_onwards hready (Or.inl (by decide)) (by decide)

end

/-- A step polls once if it is a poll, and otherwise not at all. -/
theorem step_polls {phase : Phase} (h : s.interpreter.Ready l frames phase) :
    Ends (step phase s)
      (fun phase' t => t.host.polls = s.host.polls + (if phase = .poll then 1 else 0) ∧
        (phase' = .execute → phase = .poll))
      fun _ t => t.host.polls = s.host.polls + (if phase = .poll then 1 else 0) := by
  by_cases hp : phase = .poll
  · subst hp
    exact (poll_traced s).mono (fun _ _ h => ⟨h.1, fun _ => rfl⟩) fun _ _ h => h
  · rw [if_neg hp]
    exact (step_descends h hp).mono (fun _ _ h => ⟨h.2.1, fun he => absurd he h.1⟩) fun _ _ h => h

theorem submit_polls (line : List UInt8) (s : Session (Traced σ)) :
    Ends (submit line s) (fun phase t => t.host.polls = s.host.polls ∧ phase ≠ .execute)
      fun _ t => t.host.polls = s.host.polls := by
  refine (obeys_submit (R := Traced.OnlyWritten) line s).mono (fun phase t h => ⟨h.1.polls_eq, ?_⟩)
    fun _ _ h => h.polls_eq
  rintro rfl
  exact absurd h.2 (by decide)

end Session

/-- A session can be broken into at this moment, or at the next poll, and no poll is far off. -/
structure Breakable {σ : Type} [Host σ] (past : List (Moment (Traced σ))) (M : Moment (Traced σ)) :
    Prop where
  /-- A statement comes right after a poll that does not stop it. -/
  polled {call : Call} {s : Session (Traced σ)} : M = .busy call .execute s →
    ∃ s' older, past = .busy call .poll s' :: older ∧ s.interpreter = s'.interpreter ∧
    s'.host.Passes s.host
  /-- Between two statements there is a poll. -/
  between {call call' : Call} {s s' : Session (Traced σ)} {newer older : List (Moment (Traced σ))} :
    M = .busy call .execute s → past = newer ++ .busy call' .execute s' :: older →
    ∃ s'', .busy call .poll s'' ∈ newer
  /-- A poll asks the host once. No other step does, or leads to a statement. -/
  stepped {call : Call} {phase : Phase} {s : Session (Traced σ)} : M = .busy call phase s →
    Ends (Session.step phase s)
      (fun phase' t => t.host.polls = s.host.polls + (if phase = .poll then 1 else 0) ∧
        (phase' = .execute → phase = .poll))
      fun _ t => t.host.polls = s.host.polls + (if phase = .poll then 1 else 0)
  /-- Nor does taking a line. -/
  submitted {s : Session (Traced σ)} (line : List UInt8) : M = .idle s →
    Ends (Session.submit line s) (fun phase t => t.host.polls = s.host.polls ∧ phase ≠ .execute)
      fun _ t => t.host.polls = s.host.polls
  /-- A poll that is answered by an interrupt leads to the prompt with the stack empty and the
  program and the variables as they were. Two lines are written, unless a write fails. -/
  broken {call : Call} {s : Session (Traced σ)} {h h' : Traced σ} : M = .busy call .poll s →
    Host.poll s.host = .ok true h → Host.read h = .ok Byte.interrupt h' →
      h'.events = s.host.events ++ [.polled (.ok true), .read (.ok Byte.interrupt)] ∧
      Ends (Session.drive call.atRest 2 .poll s)
        (fun phase t => phase = .prompt ∧ t.interpreter = s.interpreter.released ∧
          t.interpreter.memory.lines = s.interpreter.memory.lines ∧
          (∀ v, t.interpreter.memory.fetch v = s.interpreter.memory.fetch v) ∧
          t.interpreter.memory.frames = [] ∧
          t.host.events = h'.events ++ HostEvent.written (ascii "break!\nOK\n"))
        fun cause t => ∃ e, cause = .io e ∧ h'.FailsWriting (ascii "break!\nOK\n") e t.host
  /-- From one pause to the next there are seven steps at most, and two more for each byte that is
  read. -/
  returns {call : Call} {phase : Phase} {s : Session (Traced σ)} (k : Nat) : M =
    .busy call phase s →
    Ends ((Session.step phase >>= Session.drive Phase.pauses (6 + 2 * k)) s)
      (fun phase' t => phase'.pauses = true ∨ s.host.reads + k < t.host.reads) fun cause _ =>
        ∃ e, cause = .io e
  /-- After a poll before another statement than `INPUT` there are six at most, whatever the host
  does. -/
  returns_without_input {call : Call} {s : Session (Traced σ)} : M = .busy call .poll s →
    s.interpreter.keyword ≠ some .input →
      Ends ((Session.step .poll >>= Session.drive Phase.pauses 5) s)
        (fun phase _ => phase.pauses = true)
        fun cause _ => ∃ e, cause = .io e

theorem History.execute_polled {σ : Type} [Host σ] {settings : Settings} {host : Traced σ}
    {threshold : Option Severity} {past : List (Moment (Traced σ))} {M : Moment (Traced σ)}
    (h : History (Session.start settings host threshold) past M) {call : Call}
    {s : Session (Traced σ)} (hM : M = .busy call .execute s) :
    ∃ s' older, past = .busy call .poll s' :: older ∧ s.interpreter = s'.interpreter ∧
      s'.host.Passes s.host := by
  subst hM
  cases h with
  | next hpast hn =>
    cases hn with
    | @enter s' _ line _ hrun =>
      have hsubmit := Session.submit_polls line s'
      rw [hrun] at hsubmit
      exact absurd rfl hsubmit.2
    | @step s' _ _ phase _ _ hrun =>
      obtain ⟨l, frames, hready⟩ := hpast.exists_ready
      have hstep := Session.step_polls hready
      rw [hrun] at hstep
      obtain rfl := hstep.2 rfl
      have hpoll := Session.poll_traced s'
      rw [show Session.poll s' = _ from hrun] at hpoll
      obtain ⟨-, -, ⟨-, hsame, hpass⟩ | hrestart⟩ := hpoll
      · exact ⟨s', _, rfl, hsame, hpass⟩
      · cases hrestart

/-- At every moment of every session, with any settings and any host, the session can be broken
into. -/
theorem History.breakable {σ : Type} [Host σ] {settings : Settings} {host : Traced σ}
    {threshold : Option Severity} {past : List (Moment (Traced σ))} {M : Moment (Traced σ)}
    (h : History (Session.start settings host threshold) past M) : Breakable past M := by
  obtain ⟨l, frames, hready⟩ := h.exists_ready
  refine ⟨h.execute_polled, ?_, ?_, ?_, ?_, ?_, ?_⟩
  · rintro call call' s s' newer older hM rfl
    obtain ⟨s'', older', hpast, -⟩ := h.execute_polled hM
    cases newer with
    | nil => cases hpast
    | cons last newer =>
      obtain rfl : last = .busy call .poll s'' := (List.cons.inj hpast).1
      exact ⟨s'', List.mem_cons_self⟩
  · rintro call phase s rfl
    exact Session.step_polls hready
  · rintro s line -
    exact Session.submit_polls line s
  · rintro call s polled read rfl hpoll hread
    have hsane : s.interpreter.memory.Sane l frames := hready.sane
    refine ⟨?_, (Session.drive_of_interrupt hpoll hread call).mono (fun phase t ht => ?_)
      fun _ _ ht => ht⟩
    · have hpolled := Traced.tracing_ends .polled Host.poll s.host
      have hreads := Traced.tracing_ends .read Host.read polled
      rw [show Traced.tracing .polled Host.poll s.host = _ from hpoll] at hpolled
      rw [show Traced.tracing .read Host.read polled = _ from hread] at hreads
      exact hreads.trans (by rw [show polled.events = _ from hpolled, List.append_assoc]; rfl)
    · obtain ⟨hphase, hreleased, hevents⟩ := ht
      refine ⟨hphase, hreleased, ?_, fun v => ?_, ?_, hevents⟩
      · rw [hreleased]
        exact (Memory.lines_eq hsane.released.layout hsane.released.holds).trans
          (Memory.lines_eq hsane.layout hsane.holds).symm
      · rw [hreleased]
        rfl
      · rw [hreleased, hsane.released.stack.frames_eq]
        rfl
  · rintro call phase s k rfl
    exact Session.pauses_again hready k
  · rintro call s rfl hk
    exact Session.poll_pauses_again hready hk

set_option linter.constructorNameAsVariable false in
/-- An interrupt that comes after a reply breaks into a loop before its end. -/
theorem History.breakable_in_loop :
    ∃ (past : List (Moment (Traced Script))) (s : Session (Traced Script)),
    History (Session.start { ramSize := 256 }
      (Traced.mk ({ input := [byte '5', Byte.carriageReturn, Byte.interrupt] } : Script) []) none)
        past
      (.busy .enter .poll s) ∧
    s.interpreter.keyword = some .next ∧ s.interpreter.memory.frames.length = 1 ∧
    s.host.host.input = [Byte.interrupt] ∧
    Ends ((Session.step .poll >>= Session.drive Phase.pauses 5) s)
      (fun phase _ => phase.pauses = true)
      (fun cause _ => ∃ e, cause = .io e) ∧
    Ends (Session.drive Phase.awaitsCommand 2 .poll s)
      (fun phase t => phase = .prompt ∧ t.interpreter.memory.frames = [] ∧
        t.interpreter.memory.lines = s.interpreter.memory.lines)
      fun cause _ => ∃ e, cause = .io e := by
  have hrun : Ends (Session.enter 1 (ascii "1FORI=1TO9:INPUTA:NEXT")
    (Session.start { ramSize := 256 }
        (Traced.mk ({ input := [byte '5', Byte.carriageReturn, Byte.interrupt] } : Script) [])
          none))
      (fun phase s => phase = .prompt ∧ Ends (Session.enter 13 (ascii "RUN") s)
        (fun phase s => phase = .poll ∧ s.interpreter.keyword = some .next ∧
          s.interpreter.memory.frames.length = 1 ∧
          s.host.host.input = [Byte.interrupt])
        fun _ _ => False)
      fun _ _ => False := by
    decide +kernel
  obtain ⟨_, s, hs, rfl, hrun⟩ := hrun.exists_ok
  obtain ⟨_, s', hs', rfl, hk, hframes, hinput⟩ := hrun.exists_ok
  obtain ⟨past, hstored⟩ := History.start.enter_of_ok hs
  obtain ⟨past', hpoll⟩ := (hstored.next (.rest rfl)).enter_of_ok hs'
  obtain ⟨h, h', hpolled, hread⟩ : ∃ h h', Host.poll s'.host = .ok true h ∧
      Host.read h = .ok Byte.interrupt h' := by
    generalize s'.host = host at hinput ⊢
    obtain ⟨⟨input, output⟩, events⟩ := host
    obtain rfl : input = [Byte.interrupt] := hinput
    exact ⟨_, _, rfl, rfl⟩
  have hbreakable := breakable hpoll
  have hbroken := (hbreakable.broken rfl hpolled hread).2
  refine ⟨past', s', hpoll, hk, hframes, hinput, hbreakable.returns_without_input rfl
    (by rw [hk]; decide), ?_⟩
  refine hbroken.mono (fun phase t ht => ⟨ht.1, ht.2.2.2.2.1, ht.2.2.1⟩) fun cause t ht => ?_
  obtain ⟨e, hcause, -⟩ := ht
  exact ⟨e, hcause⟩

end LineBasic
