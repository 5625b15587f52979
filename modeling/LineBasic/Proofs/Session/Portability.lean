import LineBasic.Proofs.Session.Alongside
import LineBasic.Proofs.Session.Lockstep
import LineBasic.Proofs.Session.Storing

namespace LineBasic
variable {σ τ ρ π : Type}

/-- What starts a program. -/
def runCommand : List UInt8 :=
  ascii "RUN"

namespace Interpreter

structure RunsNext (l : Listing) (i : Interpreter) : Prop where
  running : i.Running l []
  rest_eq : i.cursor.rest = runCommand

/-- The program is run in both interpreters: `RUN` is executed next, or what is executed is in both
at the same place of the program. -/
inductive RunAlike (phase : Phase) (i j : Interpreter) : Prop
  | opening {l : Listing} (hp : phase ∈ [.direct, .poll, .execute]) (h : RunsNext l i)
    (h' : RunsNext l j)
      (hc : Coupled .kin False i j)
  | underway {l : Listing} {frames : List Frame} (hw : phase.WithinLine)
    (h : Level .kin False l frames phase i j)

theorem RunAlike.coupled {phase : Phase} {i j : Interpreter} (h : RunAlike phase i j) :
    Coupled .kin False i j := by
  cases h with
  | opening _ _ _ hc => exact hc
  | underway _ h => exact h.coupled

end Interpreter

namespace Session

/-- The statement that is executed next does not ask how many bytes are free. -/
def AsksNoRoom (phase : Phase) (s : Session σ) : Prop :=
  phase = .execute → s.interpreter.keyword ≠ some .mem

/-- There is room for the byte that is typed next, if it is one that is put into the line. -/
def HasRoom [Host σ] : Phase → Session σ → Prop
  | .edit _ pos, s =>
    Ends (Host.read s.host) (fun b _ => Byte.IsText b → pos < s.interpreter.entryEnd) fun _ _ =>
    True
  | _, _ => True

instance (phase : Phase) (s : Session σ) : Decidable (AsksNoRoom phase s) :=
  inferInstanceAs (Decidable (_ → _))

instance [Host σ] (phase : Phase) (s : Session σ) : Decidable (HasRoom phase s) :=
  match phase with
  | .edit .. => inferInstanceAs (Decidable (Ends ..))
  | .cold | .restart | .prompt | .direct | .line | .poll | .execute | .proceed | .nextLine | .ask
    _ | .bye =>
    isTrue trivial

def Throughout [Host σ] (P : Phase → Session σ → Prop) : Nat → Phase → Session σ → Prop
  | 0, _, _ => True
  | steps + 1, phase, s => phase.awaitsCommand = false →
    P phase s ∧ Ends (step phase s) (fun phase' s' => Throughout P steps phase' s') fun _ _ => True

/-- This holds before each step that is taken when a line is entered. -/
def ThroughoutEntry [Host σ] (P : Phase → Session σ → Prop) (steps : Nat) (line : List UInt8)
    (s : Session σ) : Prop :=
  Ends (submit line s) (fun phase s' => Throughout P steps phase s') fun _ _ => True

def decidableThroughout [Host σ] {P : Phase → Session σ → Prop} [∀ phase s, Decidable (P phase s)] :
    ∀ steps phase (s : Session σ), Decidable (Throughout P steps phase s)
  | 0, _, _ => isTrue trivial
  | steps + 1, phase, s =>
    have : ∀ phase' s', Decidable (Throughout P steps phase' s') := decidableThroughout steps
    inferInstanceAs (Decidable (phase.awaitsCommand = false →
      P phase s ∧ Ends (step phase s) (fun phase' s' => Throughout P steps phase' s') fun _ _ =>
        True))

instance [Host σ] {P : Phase → Session σ → Prop} [∀ phase s, Decidable (P phase s)] (steps : Nat)
    (line : List UInt8) (s : Session σ) : Decidable (ThroughoutEntry P steps line s) :=
  have : ∀ phase' s', Decidable (Throughout P steps phase' s') := decidableThroughout steps
  inferInstanceAs (Decidable (Ends ..))

/-- The same has been written, and the sessions agree on the program, the variables, the frames and
the place where they are. -/
structure SameResults (s : Session (Recorded ρ)) (t : Session (Recorded π)) : Prop where
  written_eq : t.host.written = s.host.written
  program_eq : t.interpreter.memory.program = s.interpreter.memory.program
  fetch_eq : ∀ v, t.interpreter.memory.fetch v = s.interpreter.memory.fetch v
  frames_eq : t.interpreter.memory.frames.map Prod.snd = s.interpreter.memory.frames.map Prod.snd
  currentLine_eq : t.interpreter.currentLine = s.interpreter.currentLine
  generator_eq : t.interpreter.generator = s.interpreter.generator

theorem SameResults.of_coupled {s : Session (Recorded ρ)} {t : Session (Recorded π)}
    (h : Interpreter.Coupled .kin False s.interpreter t.interpreter)
    (hw : t.host.written = s.host.written) :
    s.SameResults t := by
  obtain ⟨l, frames, hs, hs'⟩ := h.memory.sounds
  refine ⟨hw, ?_, fun v => ?_, ?_, h.currentLine_eq, h.generator_eq⟩
  · rw [hs'.holds.program_eq hs'.programEnd_le, hs.holds.program_eq hs.programEnd_le]
  · rw [Memory.fetch_eq hs'.layout, Memory.fetch_eq hs.layout,
      Coupling.value_eq _ h.memory hs.layout]
  · rw [hs'.stack.frames_eq, hs.stack.frames_eq, map_snd_addressed, map_snd_addressed]

open Interpreter (Coupled Level RunsNext RunAlike Abreast)

section
variable [Host σ] {s : Session σ} {l : Listing}

/-- A line without a number, blanks and all, is what is executed next. -/
theorem submit_unnumbered {line : List UInt8} (hs : s.interpreter.memory.Sane l [])
    (hcut : s.interpreter.memory.cutLine line = line) (hzero : entryNumber line = 0)
    (htext : entryText line = Case.fold line) :
    ∃ i, submit line s = .ok .direct { s with interpreter := i } ∧
      i.Running l [] ∧ i.cursor.rest = Case.fold line ∧ i.currentLine = none ∧
      s.interpreter.memory.SameBounds i.memory ∧ s.interpreter.Undisturbed i ∧
      i.echo = s.interpreter.echo := by
  have hm := hs.layout
  have hgap := Memory.onlyGap_placed line hm
  have htyped := Memory.typed_placed line hm
  have hsubmit := submit_eq line hm
  have hends := submit_ends line hs
  rw [hcut] at hgap htyped hsubmit hends
  have hplaced := hs.onlyGap hgap
  have hgap' := hgap.trans (htyped.onlyGap_taken hplaced.layout)
  have hrun := hsubmit.trans (accept_direct hplaced.toSound htyped hzero)
  refine ⟨_, hrun, ?_, ?_, rfl, hgap'.toSameRegions.bounds,
    ⟨⟨l, hs.onlyGap hgap'⟩, fun v => hgap'.value_eq hm, rfl⟩,
    rfl⟩
  · rw [hrun, entered, Listing.enter_of_not fun h => h.1.number_ne_zero hzero] at hends
    obtain ⟨-, frames', hready, rfl | ⟨rfl, -⟩⟩ := hends
    · exact hready
    · exact hready
  · have hstands := htyped.stands_taken hplaced.layout
    have hbody : Memory.bodyStart (s.interpreter.memory.placed line) line =
        Memory.stagingStart (s.interpreter.memory.placed line) line := by
      simp only [Memory.bodyStart, Memory.stagingStart, htext, Case.length_fold]
      omega
    rw [← hbody] at hstands
    exact Cursor.rest_of_stands hstands (Case.marker_notMem_fold htyped.marker_notMem)

/-- `RUN` gets ready to be executed if there is room for it. -/
theorem submit_run (hs : s.interpreter.memory.Sane l [])
    (hroom : runCommand.length ≤ s.interpreter.memory.entryRoom) :
    ∃ i, submit runCommand s = .ok .direct { s with interpreter := i } ∧ i.RunsNext l ∧
    i.currentLine = none ∧
      s.interpreter.memory.SameBounds i.memory ∧ s.interpreter.Undisturbed i ∧
      i.echo = s.interpreter.echo := by
  have hcut : s.interpreter.memory.cutLine runCommand = runCommand := by
    rw [Memory.cutLine_eq _ (by decide), List.take_of_length_le hroom]
  obtain ⟨i, hrun, hrunning, hrest, hkept⟩ := submit_unnumbered hs hcut (by decide) (by decide)
  exact ⟨i, hrun, ⟨hrunning, hrest.trans (by decide)⟩, hkept⟩

/-- `RUN` drops all frames and goes on at the start of the program. -/
theorem execute_run (h : s.interpreter.cursor.rest = runCommand) : ∃ pos journal, execute s =
    .ok .line { s with
      interpreter := { s.interpreter with
        memory := { s.interpreter.memory with stackTop := s.interpreter.memory.size }
        textPos := pos
        currentLine := some 0 }
      journal } := by
  have hword : (s.interpreter.cursor.token Keyword.vocabulary).1 = some .run := by
    show (Lexeme.token Keyword.vocabulary s.interpreter.cursor.rest).1 = _
    rw [h]
    decide
  rcases ht : s.interpreter.cursor.token Keyword.vocabulary with ⟨word, c⟩
  rw [ht] at hword
  obtain rfl : word = some .run := hword
  have hstatement : statement s = run ((s.movedTo c.pos).noted (.statement (some .run) c.pos)) := by
    unfold statement
    rw [bind_of_ok (cursor_eq s), ht]
    exact bind_of_ok (goTo_eq c s)
  exact ⟨c.pos, _, bind_of_ok (attempt_of_ok (hstatement.trans rfl))⟩

end

section
variable [Host σ] [Host τ] {R : σ → τ → Prop} (hR : Mirrors R) {phase : Phase} {s : Session σ}
  {t : Session τ}
include hR

theorem pairs_opening {l : Listing} (hhosts : R s.host t.host)
    (hp : phase ∈ [.direct, .poll, .execute]) (h : s.interpreter.RunsNext l)
    (h' : t.interpreter.RunsNext l) (hc : Coupled .kin False s.interpreter t.interpreter)
    (hpeeks : (final (step phase s)).journal.peeks = s.journal.peeks) :
    Pairs (step phase s) (step phase t)
      (fun phase' s' t' => R s'.host t'.host ∧ RunAlike phase' s'.interpreter t'.interpreter)
      fun _ s' t' => R s'.host t'.host ∧ Coupled .kin False s'.interpreter t'.interpreter := by
  simp only [List.mem_cons, List.not_mem_nil, or_false] at hp
  rcases hp with rfl | rfl | rfl
  · have hgoes {υ : Type} [Host υ] {u : Session υ} (hu : u.interpreter.RunsNext l) :
        step .direct u = .ok .poll u := by
      show EStateM.Result.ok (if u.interpreter.cursor.atEndOfLine =
        true then Phase.prompt else .poll) u = _
      rw [if_neg]
      intro hend
      have hmarker : u.interpreter.cursor.peek = Byte.marker := of_decide_eq_true hend
      rw [Cursor.peek_eq_head?, hu.rest_eq] at hmarker
      exact absurd hmarker (by decide)
    exact .of_ok (hgoes h) (hgoes h') ⟨hhosts, .opening (by decide) h h' hc⟩
  · let pre (i j : Interpreter) : Prop := i.RunsNext l ∧ j.RunsNext l ∧ Coupled .kin False i j
    have hpoll : Tracks R False pre (fun phase' i j => RunAlike phase' i j) pre (poll : Act σ Phase)
        (poll : Act τ Phase) := by
      refine (tracks_interrupted hR fun _ _ h => h).bind fun stop => ?_
      cases stop with
      | true =>
        refine (tracks_printLine hR (fun _ _ h => h) _).bind fun _ => tracks_pure fun i j h => ?_
        exact .underway trivial ⟨h.1.running.sane, h.2.2, Coupling.continues_nil _⟩
      | false => exact tracks_pure fun i j h => .opening (by decide) h.1 h.2.1 h.2.2
    exact (hpoll.pairs s t hhosts ⟨h, h', hc⟩ (Or.inr hpeeks)).mono (fun _ _ _ h => h)
      fun _ _ _ h => ⟨h.1, h.2.2.2⟩
  · obtain ⟨pos, journal, hrun⟩ := execute_run h.rest_eq
    obtain ⟨pos', journal', hrun'⟩ := execute_run h'.rest_eq
    -- `RUN` clears the stack, so it no longer matters which frames there were.
    have hunstacked := Coupling.unstacked _ hc.memory h.running.layout
    refine .of_ok hrun hrun' ⟨hhosts, .underway (l := l) trivial
      ⟨⟨h.running.toExecuting.unstacked, ?_⟩,
      ⟨hunstacked, rfl, trivial, hc.generator_eq, hc.echo_eq, False.elim⟩,
        Coupling.continues_nil _⟩⟩
    intro address ha
    cases ha
    exact l.begins_zero

/-- A step within the program: replies have room in both, or there is none to be given. -/
theorem pairs_underway {l : Listing} {frames : List Frame} (hhosts : R s.host t.host)
    (hw : phase.WithinLine) (hrest : phase.awaitsCommand = false)
    (h : Level .kin False l frames phase s.interpreter t.interpreter)
    (hpeeks : (final (step phase s)).journal.peeks = s.journal.peeks) (hmem : AsksNoRoom phase s)
    (hroom : HasRoom phase s) (hroom' : HasRoom phase t) :
    Pairs (step phase s) (step phase t)
      (fun phase' s' t' => R s'.host t'.host ∧ RunAlike phase' s'.interpreter t'.interpreter)
      fun _ s' t' => R s'.host t'.host ∧ Coupled .kin False s'.interpreter t'.interpreter := by
  have hpairs : Pairs (step phase s) (step phase t)
      (fun phase' s' t' => R s'.host t'.host ∧ Abreast .kin False s'.interpreter
        t'.interpreter phase')
      fun _ s' t' => R s'.host t'.host ∧ Coupled .kin False s'.interpreter t'.interpreter := by
    by_cases hp : phase.Moves
    · exact (tracks_moves hR hp).pairs s t hhosts ⟨h, fun he hk => absurd hk (hmem he)⟩
        (Or.inr hpeeks)
    cases phase with
    | cold => exact absurd hw id
    | edit purpose pos =>
      cases purpose with
      | command => exact absurd hw id
      | reply v resume =>
        refine pairs_typeByte hR hhosts h (Or.inr hpeeks) ?_ (fun _ _ _ h => h) (fun _ _ h => h)
          (tracks_takeReply.mono (fun i j h => ?_) (fun _ _ _ h => h) fun _ _ h => h)
        · -- The hosts are read the same, so that the byte has room in both.
          have hroom : Ends (Host.read s.host) _ _ := hroom
          have hroom' : Ends (Host.read t.host) _ _ := hroom'
          obtain ⟨b, host, host', hr, hr', -⟩ | ⟨e, host, host', hr, -⟩ :=
            (hR.read _ _ hhosts).exists_results
          · rw [hr] at hroom ⊢
            rw [hr'] at hroom'
            intro htext
            have hlt := hroom htext
            have hlt' := hroom' htext
            omega
          · rw [hr]
            exact trivial
        · obtain ⟨⟨line, htyped⟩, hasking, hshares⟩ := h
          exact ⟨line, htyped, hasking.sane.layout, hshares⟩
    | _ => exact absurd trivial hp
  refine ((hpairs.and_ends (step_ends h.ready)).and_ends (step_withinLine h.ready hw hrest)).mono
    (fun phase' s' t' hr => ?_) fun _ s' t' hr => hr.1.1
  obtain ⟨⟨⟨hhosts', habreast⟩, hsuccessor⟩, hw'⟩ := hr
  obtain ⟨l', frames', hlevel⟩ := h.next hsuccessor habreast
  exact ⟨hhosts', .underway hw' hlevel⟩

theorem pairs_run (steps : Nat) (hhosts : R s.host t.host)
    (h : RunAlike phase s.interpreter t.interpreter)
    (hpeeks : (final (drive Phase.awaitsCommand steps phase s)).journal.peeks = s.journal.peeks)
    (hmem : Throughout AsksNoRoom steps phase s) (hroom : Throughout HasRoom steps phase s)
    (hroom' : Throughout HasRoom steps phase t) :
    Pairs (drive Phase.awaitsCommand steps phase s) (drive Phase.awaitsCommand steps phase t)
      (fun phase' s' t' => R s'.host t'.host ∧ RunAlike phase' s'.interpreter t'.interpreter)
      fun _ s' t' => R s'.host t'.host ∧ Coupled .kin False s'.interpreter t'.interpreter := by
  -- On the steps: the runs are opening until `RUN` has been executed, and level from then on.
  induction steps generalizing phase s t with
  | zero => exact ⟨rfl, hhosts, h⟩
  | succ steps ih =>
    rw [drive_succ_eq] at hpeeks ⊢
    rw [drive_succ_eq]
    cases hrest : phase.awaitsCommand with
    | true =>
      rw [if_pos rfl, if_pos rfl]
      exact ⟨rfl, hhosts, h⟩
    | false =>
      rw [hrest, if_neg Bool.false_ne_true] at hpeeks
      rw [if_neg Bool.false_ne_true, if_neg Bool.false_ne_true]
      obtain ⟨hnow, hmem⟩ := hmem hrest
      obtain ⟨hfits, hroom⟩ := hroom hrest
      obtain ⟨hfits', hroom'⟩ := hroom' hrest
      obtain ⟨hfirst, hlater⟩ :=
        (drifts_step phase).peeks_eq (fun phase' => drifts_drive Phase.awaitsCommand steps phase')
          hpeeks
      have hpairs : Pairs (step phase s) (step phase t)
          (fun phase' s' t' => R s'.host t'.host ∧ RunAlike phase' s'.interpreter t'.interpreter)
          fun _ s' t' => R s'.host t'.host ∧ Coupled .kin False s'.interpreter t'.interpreter := by
        cases h with
        | opening hp h h' hc => exact pairs_opening hR hhosts hp h h' hc hfirst
        | underway hw h => exact pairs_underway hR hhosts hw hrest h hfirst hnow hfits hfits'
      refine hpairs.bind fun phase' s' t' hr hr' hnext => ?_
      rw [hr] at hmem hroom
      rw [hr'] at hroom'
      exact ih hnext.1 hnext.2 (hlater phase' s' hr) hmem hroom hroom'

theorem pairs_enter_run {l : Listing} (steps : Nat) (hhosts : R s.host t.host)
    (hs : s.interpreter.memory.Sane l []) (ht : t.interpreter.memory.Sane l [])
    (hkin : s.interpreter.memory.Kin t.interpreter.memory)
    (hgenerator : t.interpreter.generator = s.interpreter.generator)
    (hecho : t.interpreter.echo = s.interpreter.echo)
    (hfits : runCommand.length ≤ s.interpreter.memory.entryRoom)
    (hfits' : runCommand.length ≤ t.interpreter.memory.entryRoom)
    (hpeeks : (final (enter steps runCommand s)).journal.peeks = s.journal.peeks)
    (hmem : ThroughoutEntry AsksNoRoom steps runCommand s)
    (hroom : ThroughoutEntry HasRoom steps runCommand s)
    (hroom' : ThroughoutEntry HasRoom steps runCommand t) :
    Pairs (enter steps runCommand s) (enter steps runCommand t)
      (fun _ s' t' => R s'.host t'.host ∧ Coupled .kin False s'.interpreter t'.interpreter)
      fun _ s' t' => R s'.host t'.host ∧ Coupled .kin False s'.interpreter t'.interpreter := by
  obtain ⟨i, hrun, hnext, hcurrent, hbounds, hi, hecho₁⟩ := submit_run hs hfits
  obtain ⟨j, hrun', hnext', hcurrent', hbounds', hj, hecho₂⟩ := submit_run ht hfits'
  have hcoupled : Coupled .kin False i j := by
    refine ⟨hkin.of_sounds hbounds hbounds' hnext.running.toSound hnext'.running.toSound
      fun v => ?_,
      hcurrent'.trans hcurrent.symm, trivial, ?_, hecho₂.trans (hecho.trans hecho₁.symm),
        False.elim⟩
    · rw [hj.value_eq, hi.value_eq, hkin.value_eq]
    · rw [hj.generator_eq, hi.generator_eq, hgenerator]
  rw [enter, bind_of_ok hrun] at hpeeks ⊢
  rw [enter, bind_of_ok hrun']
  rw [ThroughoutEntry, hrun] at hmem hroom
  rw [ThroughoutEntry, hrun'] at hroom'
  exact (pairs_run (s := { s with interpreter := i }) (t := { t with interpreter := j }) hR
    steps hhosts
    (.opening (by decide) hnext hnext' hcoupled) hpeeks hmem hroom hroom').mono (fun _ _ _ h =>
      ⟨h.1, h.2.coupled⟩)
    fun _ _ _ h => h

end

theorem drifts_enters [Host σ] (steps : Nat) (lines : List (List UInt8)) :
    Drifts (lines.mapM (enter steps) : Act σ (List Phase)) := by
  induction lines with
  | nil => exact .pure []
  | cons line rest ih =>
    rw [List.mapM_cons]
    exact .bind (drifts_enter steps line) fun phase => .bind ih fun phases => .pure _

/-- What is left of a fresh session into which numbered lines have been entered: lines, and nothing
else. -/
theorem stored_lines [Host σ] {settings : Settings} {first : σ} {threshold : Option Severity}
    {lines : List (List UInt8)} (hlines : ∀ line ∈ lines, entryNumber line ≠ 0) {steps : Nat}
    {phases : List Phase} {s : Session σ}
    (hs : lines.mapM (enter steps) (Session.start settings first threshold) = .ok phases s) :
    (∃ l, s.interpreter.memory.Sane l []) ∧ (∀ v, s.interpreter.memory.value v = 0) ∧
      s.interpreter.generator = Generator.ofSeed settings.random 0 ∧
      s.interpreter.echo = settings.echo ∧
      (Interpreter.create settings).memory.SameBounds s.interpreter.memory := by
  have hends := enters_undisturbed (sane_start settings first threshold) hlines steps
  have hdrift := drifts_enters steps lines (Session.start settings first threshold)
  rw [hs] at hends hdrift
  exact ⟨hends.sane, fun v => (hends.value_eq v).trans (Memory.value_create _ _ v),
    hends.generator_eq,
    hdrift.echo_eq, hdrift.bounds⟩

end Session

/-- Numbered lines that are stored alike in two fresh sessions, with buffers of any sizes and as
much room for frames, make a program that runs alike in both. With hosts that cannot be told apart
`RUN` has the same outcome after any number of steps, the same phase or the same failure, the same
output and the same variables, as long as no `PEEK` is applied, no `MEM` is executed, and there is
room in both buffers for `RUN` and for all that is typed. -/
theorem Session.run_in_any_buffer [Host σ] [Host τ] [Host ρ] [Host π]
    {settings settings' : Settings} {first : σ} {first' : τ}
    {threshold threshold' : Option Severity} (hecho : settings'.echo = settings.echo)
    (hrandom : settings'.random = settings.random)
    (hcapacity : (Interpreter.create settings').memory.stackCapacity =
      (Interpreter.create settings).memory.stackCapacity) {lines : List (List UInt8)}
    (hlines : ∀ line ∈ lines, entryNumber line ≠ 0) {before before' : Nat}
    {phases phases' : List Phase} {s : Session σ} {t : Session τ}
    (hs : lines.mapM (Session.enter before) (Session.start settings first threshold) = .ok phases s)
    (ht : lines.mapM (Session.enter before') (Session.start settings' first' threshold') =
      .ok phases' t) (hprogram : t.interpreter.memory.program = s.interpreter.memory.program)
    {R : ρ → π → Prop} (hR : Mirrors R) {host : ρ} {host' : π} (hhosts : R host host') (steps : Nat)
    (hpeeks : (final (Session.enter steps runCommand (s.on (Recorded.mk host [])))).journal.peeks =
      s.journal.peeks)
    (hmem : Session.ThroughoutEntry Session.AsksNoRoom steps runCommand
      (s.on (Recorded.mk host []))) (hfits : runCommand.length ≤ s.interpreter.memory.entryRoom)
    (hfits' : runCommand.length ≤ t.interpreter.memory.entryRoom)
    (hroom : Session.ThroughoutEntry Session.HasRoom steps runCommand (s.on (Recorded.mk host [])))
    (hroom' : Session.ThroughoutEntry Session.HasRoom steps runCommand
      (t.on (Recorded.mk host' []))) :
    Pairs (Session.enter steps runCommand (s.on (Recorded.mk host [])))
      (Session.enter steps runCommand (t.on (Recorded.mk host' []))) (fun _ => Session.SameResults)
      fun _ => Session.SameResults := by
  obtain ⟨⟨l, hsane⟩, hvalue, hgenerator, hset, hbounds⟩ := Session.stored_lines hlines hs
  obtain ⟨⟨l', hsane'⟩, hvalue', hgenerator', hset', hbounds'⟩ := Session.stored_lines hlines ht
  have hholds := hsane'.holds.of_program hsane.holds hsane'.toSound.programEnd_le
    hsane.toSound.programEnd_le hprogram
  have hsane' : t.interpreter.memory.Sane l [] :=
    ⟨⟨hsane'.layout, hholds, hsane'.stack⟩, fun _ hm => absurd hm List.not_mem_nil⟩
  have hkin : s.interpreter.memory.Kin t.interpreter.memory := by
    refine ⟨⟨l, [], hsane.toSound, hsane'.toSound⟩, fun v => (hvalue' v).trans (hvalue v).symm, ?_⟩
    rw [Memory.stackCapacity, Memory.stackCapacity, hbounds.size_eq, hbounds.stackLimit_eq,
      hbounds'.size_eq,
      hbounds'.stackLimit_eq]
    exact hcapacity
  have hbeside : Recorded.Beside R [] [] ⟨host, []⟩ ⟨host', []⟩ := ⟨hhosts, [], rfl, rfl⟩
  have hwritten {k : Recorded ρ} {k' : Recorded π} (hk : Recorded.Beside R [] [] k k') :
      k'.written = k.written := by
    obtain ⟨-, out, hout, hout'⟩ := hk
    exact hout'.trans hout.symm
  have hsame : t.interpreter.generator = s.interpreter.generator := by rw [hgenerator,
    hgenerator', hrandom]
  refine (Session.pairs_enter_run (s := s.on ⟨host, []⟩) (t := t.on ⟨host', []⟩)
    (Recorded.mirrors_beside [] [] hR)
    steps hbeside hsane hsane' hkin hsame (hset'.trans (hecho.trans hset.symm)) hfits hfits'
    hpeeks hmem hroom hroom').mono (fun _ _ _ h => ?_) fun _ _ _ h => ?_
  · exact .of_coupled h.2 (hwritten h.1)
  · exact .of_coupled h.2 (hwritten h.1)

/-- A program that asks for a number runs alike in a larger buffer. -/
theorem Session.run_in_larger_buffer : ∃ s t : Session Script,
    s.interpreter.memory.size = 1024 ∧ t.interpreter.memory.size = 1032 ∧
    (final
      (Session.enter 16 runCommand (s.on (Recorded.mk ({ input := ascii "7\r" } : Script)
        [])))).host.written =
      ascii "?7\nOK\n" ∧
    Pairs (Session.enter 16 runCommand (s.on (Recorded.mk ({ input := ascii "7\r" } : Script) [])))
      (Session.enter 16 runCommand (t.on (Recorded.mk ({ input := ascii "7\r" } : Script) [])))
      (fun _ => Session.SameResults) fun _ => Session.SameResults := by
  have hlines : ∀ line ∈ [ascii "1INPUTA"], entryNumber line ≠ 0 := by decide
  have hecho : ({ ramSize := 1032, stackFrames := 51 } : Settings).echo =
      ({ ramSize := 1024, stackFrames := 51 } : Settings).echo := rfl
  have hcapacity : (Interpreter.create ({ ramSize := 1032, stackFrames := 51 } :
    Settings)).memory.stackCapacity =
      (Interpreter.create ({ ramSize := 1024, stackFrames := 51 } :
        Settings)).memory.stackCapacity := by
    decide +kernel
  obtain ⟨fresh, fresh', hfresh, hfresh', hrun⟩ : ∃ fresh fresh' : Session Script,
      fresh = Session.start ({ ramSize := 1024, stackFrames := 51 } : Settings) {} none ∧
      fresh' = Session.start ({ ramSize := 1032, stackFrames := 51 } : Settings) {} none ∧
      Ends ([ascii "1INPUTA"].mapM (Session.enter 1) fresh) (fun _ s =>
        Ends ([ascii "1INPUTA"].mapM (Session.enter 1) fresh') (fun _ t =>
          s.interpreter.memory.size = 1024 ∧ t.interpreter.memory.size = 1032 ∧
          t.interpreter.memory.program = s.interpreter.memory.program ∧
          runCommand.length ≤ s.interpreter.memory.entryRoom ∧
          runCommand.length ≤ t.interpreter.memory.entryRoom ∧
          (final (Session.enter 16 runCommand
            (s.on (Recorded.mk ({ input := ascii "7\r" } : Script) [])))).host.written =
              ascii "?7\nOK\n" ∧
          (final (Session.enter 16 runCommand
            (s.on (Recorded.mk ({ input := ascii "7\r" } : Script) [])))).journal.peeks =
              s.journal.peeks ∧
          Session.ThroughoutEntry Session.AsksNoRoom 16 runCommand
            (s.on (Recorded.mk ({ input := ascii "7\r" } : Script) [])) ∧
          Session.ThroughoutEntry Session.HasRoom 16 runCommand
            (s.on (Recorded.mk ({ input := ascii "7\r" } : Script) [])) ∧
          Session.ThroughoutEntry Session.HasRoom 16 runCommand
            (t.on (Recorded.mk ({ input := ascii "7\r" } : Script) [])))
          fun _ _ => False)
        fun _ _ => False :=
    ⟨_, _, rfl, rfl, by decide +kernel⟩
  obtain ⟨phases, s, hs, hrun⟩ := hrun.exists_ok
  obtain ⟨phases', t, ht, hsize, hsize', hprogram, hfits, hfits', hwritten, hpeeks, hmem, hroom,
      hroom'⟩ := hrun.exists_ok
  rw [hfresh] at hs
  rw [hfresh'] at ht
  exact ⟨s, t, hsize, hsize', hwritten, Session.run_in_any_buffer hecho rfl hcapacity hlines
    hs ht hprogram
    Mirrors.refl rfl 16 hpeeks hmem hfits hfits' hroom hroom'⟩

end LineBasic
