import LineBasic.Proofs.Session.History

namespace LineBasic

/-- A phase of taking or executing one line: no command is asked for, and nothing is forgotten. -/
def Phase.WithinLine : Phase → Prop
  | .cold | .ask .command | .edit .command _ => False
  | _ => True

theorem Effect.withinLine {l : Listing} {frames frames' : List Frame} {i j : Interpreter}
    {phase : Phase} (h : Effect l frames i phase frames' j) : phase.WithinLine := by
  cases h with
  | pass _ hp =>
    simp only [List.mem_cons, List.not_mem_nil, or_false] at hp
    rcases hp with rfl | rfl | rfl | rfl
    all_goals exact trivial
  | _ => exact trivial

namespace Session
variable {σ α : Type} {l : Listing} {frames : List Frame}

def LeadsInto (phases : Phase → Prop) (act : Act σ Phase) : Prop :=
  ∀ s, Ends (act s) (fun phase _ => phases phase) fun _ _ => True

theorem leadsInto_pure {phases : Phase → Prop} {phase : Phase} (h : phases phase) :
    LeadsInto phases (pure phase : Act σ Phase) :=
  fun _ => h

theorem LeadsInto.bind {phases : Phase → Prop} {x : Act σ α} {f : α → Act σ Phase}
    (h : ∀ a, LeadsInto phases (f a)) :
    LeadsInto phases (x >>= f) := by
  intro s
  cases hx : x s with
  | ok a s' => exact Ends.after_ok hx (h a s')
  | error e s' => exact Ends.after_error hx trivial

abbrev StaysWithin (act : Act σ Phase) : Prop :=
  LeadsInto Phase.WithinLine act

theorem staysWithin_takeReply (v : Variable) (resume : Nat) :
    StaysWithin (takeReply v resume : Act σ Phase) := by
  refine .bind fun _ => ?_
  refine .bind fun _ => ?_
  refine .bind fun _ => ?_
  refine .bind fun result => ?_
  cases result with
  | ok x => exact .bind fun _ => .bind fun _ => leadsInto_pure trivial
  | error e => exact .bind fun _ => leadsInto_pure trivial

theorem staysWithin_proceed : StaysWithin (proceed : Act σ Phase) := by
  refine .bind fun c => .bind fun _ => leadsInto_pure ?_
  split
  · exact trivial
  · exact trivial

theorem staysWithin_nextLine : StaysWithin (nextLine : Act σ Phase) := by
  refine .bind fun current => ?_
  cases current with
  | none => exact leadsInto_pure trivial
  | some address => exact .bind fun _ => .bind fun _ => leadsInto_pure trivial

theorem staysWithin_line : StaysWithin (line : Act σ Phase) := by
  refine .bind fun current => ?_
  cases current with
  | none => exact leadsInto_pure trivial
  | some address =>
    refine .bind fun programEnd => ?_
    split
    · exact .bind fun _ => leadsInto_pure trivial
    · exact leadsInto_pure trivial

variable [Host σ]

theorem staysWithin_poll : StaysWithin (poll : Act σ Phase) := by
  refine .bind fun stop => ?_
  cases stop with
  | true => exact .bind fun _ => leadsInto_pure trivial
  | false => exact leadsInto_pure trivial

theorem staysWithin_typeByte (v : Variable) (resume pos : Nat) :
    StaysWithin (typeByte (.reply v resume) pos : Act σ Phase) := by
  refine .bind fun start => ?_
  refine .bind fun limit => ?_
  refine .bind fun echo => ?_
  refine .bind fun b => ?_
  have hedit (pos' : Nat) : StaysWithin (pure (.edit (.reply v resume) pos') : Act σ Phase) :=
    leadsInto_pure trivial
  by_cases hend : b = Byte.carriageReturn ∨ b = Byte.marker
  · have htake : StaysWithin (onMemory (Memory.write pos [Byte.marker]) >>=
        fun _ => takeReply v resume : Act σ Phase) :=
      .bind fun _ => staysWithin_takeReply v resume
    rw [if_pos hend]
    cases echo with
    | true => exact .bind fun _ => htake
    | false => exact htake
  rw [if_neg hend]
  by_cases herase : b = Byte.backspace ∨ b = Byte.delete
  · rw [if_pos herase]
    by_cases hlt : start < pos
    · rw [if_pos hlt]
      cases echo with
      | true => exact .bind fun _ => hedit _
      | false => exact hedit _
    · rw [if_neg hlt]
      exact hedit _
  rw [if_neg herase]
  by_cases hcontrol : b < Byte.blank ∧ b ≠ Byte.tab
  · rw [if_pos hcontrol]
    exact hedit _
  rw [if_neg hcontrol]
  by_cases hfull : limit ≤ pos
  · rw [if_pos hfull]
    exact .bind fun _ => hedit _
  · rw [if_neg hfull]
    refine .bind fun _ => ?_
    cases echo with
    | true => exact .bind fun _ => hedit _
    | false => exact hedit _

/-- Whether its statement goes through or fails, what is executed stays within the line. -/
theorem execute_withinLine {s : Session σ} (hs : s.interpreter.Running l frames) :
    Ends (execute s) (fun phase _ => phase.WithinLine) fun _ _ => True := by
  refine (execute_executed hs).mono (fun phase s' h => ?_) fun _ _ _ => trivial
  cases h with
  | done he => exact he.withinLine
  | emptied hc => exact hc.phase_eq ▸ trivial
  | reported hp =>
    simp only [List.mem_cons, List.not_mem_nil, or_false] at hp
    rcases hp with rfl | rfl
    · exact trivial
    · exact trivial

theorem step_withinLine {s : Session σ} {phase : Phase} (hs : s.interpreter.Ready l frames phase)
    (hw : phase.WithinLine) (hrest : phase.awaitsCommand = false) :
    Ends (step phase s) (fun phase' _ => phase'.WithinLine) fun _ _ => True := by
  cases phase with
  | cold => exact absurd hw id
  | restart => exact (.bind fun _ => .bind fun _ => leadsInto_pure trivial : StaysWithin restart) s
  | prompt | bye => cases hrest
  | direct =>
    refine Ends.of_ok (a := if s.interpreter.cursor.atEndOfLine = true then .prompt else .poll) rfl
      ?_
    split
    · exact trivial
    · exact trivial
  | line => exact staysWithin_line s
  | poll => exact staysWithin_poll s
  | execute => exact execute_withinLine hs
  | proceed => exact staysWithin_proceed s
  | nextLine => exact staysWithin_nextLine s
  | ask purpose =>
    cases purpose with
    | command => exact absurd hw id
    | reply v resume =>
      exact (.bind fun _ => .bind fun _ => leadsInto_pure trivial :
        StaysWithin (ask (.reply v resume))) s
  | edit purpose pos =>
    cases purpose with
    | command => exact absurd hw id
    | reply v resume => exact staysWithin_typeByte v resume pos s

/-- Within a line the program stays as it is, unless `NEW` empties it. -/
theorem step_keeps {s : Session σ} {phase : Phase} (hs : s.interpreter.Ready l frames phase)
    (hw : phase.WithinLine) :
    Ends (step phase s)
      (fun phase' s' => ∃ l' frames', s'.interpreter.Ready l' frames' phase' ∧
        (l' = l ∨ l' = .empty))
      fun _ s' => ∃ frames', s'.interpreter.memory.Sane l frames' := by
  -- Of what may change the program only `NEW` is left: starting up and taking a command are not
  -- within a line.
  by_cases hk : phase.Keeps s.interpreter
  · refine (step_ends hs).mono (fun phase' s' h => ?_) fun h s' hh => ?_
    · obtain ⟨l', frames', hready, -, hl⟩ := h
      exact ⟨l', frames', hready, Or.inl (hl hk)⟩
    · obtain ⟨-, l', frames', hsane, -, hl⟩ := hh
      exact ⟨frames', hl hk ▸ hsane⟩
  cases phase with
  | execute =>
    have hnew : s.interpreter.keyword = some .new := Decidable.byContradiction hk
    refine (takes_execute_new s ⟨hs, hnew⟩).mono (fun phase' s' h => ?_) fun h s' hh => ?_
    · obtain h | ⟨frames', h, -⟩ := h
      · exact ⟨_, _, h, Or.inr rfl⟩
      · exact ⟨_, _, h, Or.inl rfl⟩
    · obtain ⟨-, frames', hsane, -⟩ := hh
      exact ⟨frames', hsane⟩
  | cold => exact absurd hw id
  | edit purpose pos =>
    cases purpose with
    | command => exact absurd hw id
    | reply => exact absurd trivial hk
  | _ => exact absurd trivial hk

/-- What holds of the empty program and of the one that a line is entered into holds of whatever
program the call leaves. -/
theorem drive_keeps {s : Session σ} {P : Listing → Prop} (hempty : P .empty) (hl : P l)
    {phase : Phase}
    (hs : s.interpreter.Ready l frames phase) (hw : phase.WithinLine) (steps : Nat) :
    Ends (drive Phase.awaitsCommand steps phase s)
      (fun _ s' => ∃ l' frames', s'.interpreter.memory.Sane l' frames' ∧ P l')
      fun _ s' => ∃ l' frames', s'.interpreter.memory.Sane l' frames' ∧ P l' := by
  induction steps generalizing l frames phase s with
  | zero => exact ⟨l, frames, hs.sane, hl⟩
  | succ steps ih =>
    refine drive_succ (fun _ => ⟨l, frames, hs.sane, hl⟩) fun hrest => ?_
    have hwithin := step_withinLine hs hw hrest
    have hkeeps := step_keeps hs hw
    cases hrun : step phase s with
    | ok phase' s' =>
      rw [hrun] at hwithin hkeeps
      obtain ⟨l', frames', hready, rfl | rfl⟩ := hkeeps
      · exact ih hl hready hwithin
      · exact ih hempty hready hwithin
    | error cause s' =>
      rw [hrun] at hkeeps
      obtain ⟨frames', hsane⟩ := hkeeps
      exact ⟨l, frames', hsane, hl⟩

theorem enter_keeps {s : Session σ} {P : Listing → Prop} {bytes : List UInt8} (hempty : P .empty)
    (hs : s.interpreter.memory.Sane l frames)
    (hl : P (entered l s.interpreter.memory.variablesBegin (s.interpreter.memory.cutLine bytes)))
    (steps : Nat) :
    Ends (enter steps bytes s) (fun _ s' => ∃ l' frames', s'.interpreter.memory.Sane l' frames' ∧
      P l')
      fun _ s' => ∃ l' frames', s'.interpreter.memory.Sane l' frames' ∧ P l' := by
  refine Ends.bind ((submit_ends bytes hs).mono (fun _ _ h => h) fun h s' hh => ?_)
    fun phase s' h => ?_
  · obtain ⟨-, frames', hsane, -⟩ := hh
    exact ⟨_, frames', hsane, hl⟩
  · obtain ⟨hanswered, frames', hready, -⟩ := h
    refine drive_keeps hempty hl hready ?_ steps
    obtain ⟨-, rfl⟩ | ⟨-, rfl⟩ | ⟨-, -, rfl⟩ | ⟨-, -, rfl⟩ := hanswered
    all_goals exact trivial

end Session
end LineBasic
