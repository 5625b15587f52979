import LineBasic.Host.Script
import LineBasic.Proofs.Session.History
import LineBasic.Proofs.Session.Lockstep

namespace LineBasic
variable {σ τ ρ π : Type}

/-- The same has been written, and the sessions agree on the program, the variables, the stack and
the registers. -/
structure Session.SameState (s : Session (Recorded ρ)) (t : Session (Recorded π)) : Prop where
  written_eq : t.host.written = s.host.written
  program_eq : t.interpreter.memory.program = s.interpreter.memory.program
  lines_eq : t.interpreter.memory.lines = s.interpreter.memory.lines
  fetch_eq : ∀ v, t.interpreter.memory.fetch v = s.interpreter.memory.fetch v
  frames_eq : t.interpreter.memory.frames = s.interpreter.memory.frames
  currentLine_eq : t.interpreter.currentLine = s.interpreter.currentLine
  directText_eq : t.interpreter.directText = s.interpreter.directText
  generator_eq : t.interpreter.generator = s.interpreter.generator

namespace Interpreter
variable {exact : Prop}

/-- Sessions whose interpreters are level have the same state as far as it is of use. -/
theorem AtPar.sameState {phase : Phase} {s : Session (Recorded ρ)} {t : Session (Recorded π)}
    (h : AtPar exact phase s.interpreter t.interpreter) (hw : t.host.written = s.host.written) :
    s.SameState t := by
  obtain ⟨floor, l, frames, hlevel⟩ := h
  have htwin := hlevel.coupled
  have hs := hlevel.ready.sane.toSound
  have hs' := htwin.memory.sound hs
  refine ⟨hw, ?_, ?_, fun v => ?_, htwin.memory.frames_eq hs, htwin.currentLine_eq, htwin.direct,
    htwin.generator_eq⟩
  · rw [hs'.holds.program_eq hs'.programEnd_le, hs.holds.program_eq hs.programEnd_le]
  · rw [Memory.lines_eq hs'.layout hs'.holds, Memory.lines_eq hs.layout hs.holds]
  · rw [Memory.fetch_eq hs'.layout, Memory.fetch_eq hs.layout, htwin.memory.value_eq hs.layout]

end Interpreter

section
variable [Host σ] [Host τ]

theorem Next.drift {M M' : Moment σ} (hn : Next M M') : M.session.Drift M'.session := by
  cases hn with
  | host host => exact ⟨.refl _, rfl, rfl, Nat.le_refl _⟩
  | serve => exact .refl _
  | @enter s s' line phase hrun =>
    have hdrift := Session.drifts_submit line s
    rwa [hrun] at hdrift
  | @refuse s s' line cause hrun =>
    have hdrift := Session.drifts_submit line s
    rwa [hrun] at hdrift
  | @step s s' call phase phase' _ hrun =>
    have hdrift := Session.drifts_step phase s
    rwa [hrun] at hdrift
  | @stop s s' call phase cause _ hrun =>
    have hdrift := Session.drifts_step phase s
    rwa [hrun] at hdrift
  | rest => exact .refl _

/-- Whatever happens in a session, it stays as it was set up. -/
theorem History.drift {first : Session σ} {past : List (Moment σ)} {M : Moment σ}
    (h : History first past M) :
    first.Drift M.session := by
  induction h with
  | start => exact .refl _
  | next _ hn ih => exact ih.trans hn.drift

theorem History.setAlike {settings : Settings} {first : σ} {first' : τ}
    {threshold threshold' : Option Severity} {past : List (Moment σ)} {past' : List (Moment τ)}
    {s : Session σ} {t : Session τ}
    (h : History (Session.start settings first threshold) past (.idle s))
    (h' : History (Session.start settings first' threshold') past' (.idle t)) :
    Interpreter.SetAlike False s.interpreter t.interpreter := by
  obtain ⟨l, frames, hready⟩ := h.exists_ready
  obtain ⟨l', frames', hready'⟩ := h'.exists_ready
  have hbounds := h.drift.bounds.symm.trans h'.drift.bounds
  exact ⟨hready.sane.layout, hready'.sane.layout, hbounds, h'.drift.echo_eq.trans
    h.drift.echo_eq.symm,
    h'.drift.random_eq.trans h.drift.random_eq.symm, False.elim⟩

end

/-- Two sessions with the same settings that are served anew, with hosts that cannot be told apart,
have the same outcome after any number of steps, the greeting at least, if no `PEEK` is applied: the
same phase or the same failure, the same output and the same state. -/
theorem History.serve_forgets [Host σ] [Host τ] [Host ρ] [Host π] {settings : Settings} {first : σ}
    {first' : τ} {threshold threshold' : Option Severity} {past : List (Moment σ)}
    {past' : List (Moment τ)} {s : Session σ} {t : Session τ}
    (h : History (Session.start settings first threshold) past (.idle s))
    (h' : History (Session.start settings first' threshold') past' (.idle t)) {R : ρ → π → Prop}
    (hR : Mirrors R) {host : ρ} {host' : π} (hhosts : R host host') (steps : Nat)
    (hpeeks : (final (Session.serve (steps + 1) (s.on (Recorded.mk host [])))).journal.peeks =
      s.journal.peeks) :
    Pairs (Session.serve (steps + 1) (s.on (Recorded.mk host [])))
      (Session.serve (steps + 1) (t.on (Recorded.mk host' [])))
      (fun _ => Session.SameState) fun _ => Session.SameState := by
  obtain ⟨l, frames, hready⟩ := h.exists_ready
  have hbeside : Recorded.Beside R [] [] ⟨host, []⟩ ⟨host', []⟩ := ⟨hhosts, [], rfl, rfl⟩
  have hserve := @Session.tracks_serve _ _ _ False _ _ (Recorded.mirrors_beside [] [] hR) steps
  have hset : Interpreter.SetAlike False s.interpreter t.interpreter := h.setAlike h'
  have hwritten {k : Recorded ρ} {k' : Recorded π} (hk : Recorded.Beside R [] [] k k') :
      k'.written = k.written := by
    obtain ⟨-, out, hout, hout'⟩ := hk
    exact hout'.trans hout.symm
  refine (hserve.pairs (s.on ⟨host, []⟩) (t.on ⟨host', []⟩) hbeside ⟨hset, l, frames, hready⟩
    (Or.inr hpeeks)).mono (fun phase s' t' hr => ?_) fun e s' t' hr => ?_
  · exact hr.2.sameState (hwritten hr.1)
  · exact hr.2.sameState (hwritten hr.1)

/-- A session in which a line was stored is served the same as one in which nothing happened. -/
theorem History.serve_forgets_line : ∃ fresh used : Session Script,
    fresh.interpreter.memory.lines.toOption = some [] ∧
    used.interpreter.memory.lines.toOption = some [⟨1, ascii "END"⟩] ∧
    Pairs (Session.serve 11 (fresh.on (Recorded.mk ({ input := ascii "BYE\r" } : Script) [])))
      (Session.serve 11 (used.on (Recorded.mk ({ input := ascii "BYE\r" } : Script) [])))
      (fun _ => Session.SameState) fun _ => Session.SameState := by
  obtain ⟨fresh, hfresh, hempty, hpeeks, hrun⟩ : ∃ fresh,
      History (Session.start { ramSize := 1024 } ({} : Script) none) [] (.idle fresh) ∧
      fresh.interpreter.memory.lines.toOption = some [] ∧
      (final
        (Session.serve 11 (fresh.on (Recorded.mk ({ input := ascii "BYE\r" } : Script)
        [])))).journal.peeks =
        fresh.journal.peeks ∧
      Ends (Session.enter 1 (ascii "1END") fresh)
        (fun phase s => phase = .prompt ∧ s.interpreter.memory.lines.toOption =
          some [⟨1, ascii "END"⟩])
        fun _ _ => False :=
    ⟨_, .start, by decide +kernel, by decide +kernel, by decide +kernel⟩
  obtain ⟨_, used, hused, rfl, hlines⟩ := hrun.exists_ok
  obtain ⟨past, hentered⟩ := hfresh.enter_of_ok hused
  have hidle := hentered.next (.rest rfl)
  exact ⟨fresh, used, hempty, hlines, hfresh.serve_forgets hidle Mirrors.refl rfl 10 hpeeks⟩

end LineBasic
