import LineBasic.Proofs.Session.Step

namespace LineBasic
variable {σ : Type}

/-- What a step belongs to: taking one line, or serving the prompt until the session is over. -/
inductive Call
  | enter | serve

def Call.atRest : Call → Phase → Bool
  | enter => Phase.awaitsCommand
  | serve => (· = .bye)

/-- A moment of a session: between two calls, or within one and before a phase. -/
inductive Moment (σ : Type)
  | idle (s : Session σ)
  | busy (call : Call) (phase : Phase) (s : Session σ)

namespace Moment

def session : Moment σ → Session σ
  | idle s | busy _ _ s => s

def memory (M : Moment σ) : Memory :=
  M.session.interpreter.memory

/-- The frames on the stack, the innermost first. -/
def frames (M : Moment σ) : List Frame :=
  M.memory.frames.map Prod.snd

def Ready (l : Listing) (frames : List Frame) : Moment σ → Prop
  | idle s => s.interpreter.memory.Sane l frames
  | busy _ phase s => s.interpreter.Ready l frames phase

def Keeps : Moment σ → Prop
  | idle _ => False
  | busy _ phase s => phase.Keeps s.interpreter

def Pushes (M : Moment σ) (frame : Frame) (j : Interpreter) : Prop :=
  ∃ call s, M = .busy call .execute s ∧ s.interpreter.Pushes frame j

variable {l : Listing} {frames : List Frame} {M : Moment σ}

theorem Ready.sane (h : M.Ready l frames) : M.memory.Sane l frames := by
  cases M with
  | idle s => exact h
  | busy call phase s => exact Interpreter.Ready.sane h

theorem Ready.frames_eq (h : M.Ready l frames) : M.frames = frames := by
  rw [Moment.frames, h.sane.stack.frames_eq]
  exact map_snd_addressed _ _

end Moment

theorem Successor.next {l : Listing} {frames : List Frame} {call : Call} {phase phase' : Phase}
    {s : Session σ} {j : Interpreter} (h : Successor phase s.interpreter l frames phase' j) :
    ∃ l' frames', j.Ready l' frames' phase' ∧ Follows ((Moment.busy call phase s).Pushes · j) l
      frames l' frames' ∧
      (phase.Keeps s.interpreter → l' = l) := by
  obtain ⟨l', frames', hready, hfollows, hl⟩ := h
  refine ⟨l', frames', hready, hfollows.mono fun frame hpush => ?_, hl⟩
  obtain ⟨rfl, hpush⟩ := hpush
  exact ⟨call, s, rfl, hpush⟩

theorem Session.sane_start (settings : Settings) (host : σ) (threshold : Option Severity) :
    (Session.start settings host threshold).interpreter.memory.Sane .empty [] :=
  ⟨Memory.sound_create _ _, fun _ hf => absurd hf List.not_mem_nil⟩

/-- What is launched is a fresh session, unless the room for frames is caught passing 64 bits. -/
theorem Session.launch_eq (overflow : Overflow) (settings : Settings) (host : σ)
    (threshold : Option Severity) :
    launch overflow settings host threshold =
      if overflow = .caught ∧ UInt64.size ≤ 10 * max settings.stackFrames.toNat 1 then
        .error ⟨10 * max settings.stackFrames.toNat 1, UInt64.size⟩
      else .ok (start settings host threshold) := by
  rw [launch, Memory.allocate_eq]
  split
  · rfl
  · rfl

variable [Host σ]

/-- What may come next. Between calls the host may be another one, as when more input is queued. -/
inductive Next : Moment σ → Moment σ → Prop
  | host {s : Session σ} (host : σ) : Next (.idle s) (.idle { s with host })
  | serve {s : Session σ} : Next (.idle s) (.busy .serve .cold s)
  | enter {s s' : Session σ} {line : List UInt8} {phase : Phase} :
      Session.submit line s = .ok phase s' → Next (.idle s) (.busy .enter phase s')
  | refuse {s s' : Session σ} {line : List UInt8} {h : Halt} :
      Session.submit line s = .error h s' → Next (.idle s) (.idle s')
  | step {s s' : Session σ} {call : Call} {phase phase' : Phase} : call.atRest phase = false →
      Session.step phase s = .ok phase' s' → Next (.busy call phase s) (.busy call phase' s')
  | stop {s s' : Session σ} {call : Call} {phase : Phase} {h : Halt} : call.atRest phase = false →
      Session.step phase s = .error h s' → Next (.busy call phase s) (.idle s')
  | rest {s : Session σ} {call : Call} {phase : Phase} : call.atRest phase = true →
      Next (.busy call phase s) (.idle s)

/-- A session that began with `first` is at a moment, after those that are past, the latest first.
-/
inductive History (first : Session σ) : List (Moment σ) → Moment σ → Prop
  | start : History first [] (.idle first)
  | next {past : List (Moment σ)} {M M' : Moment σ} :
      History first past M → Next M M' → History first (M :: past) M'

section
variable {l l' : Listing} {frames frames' : List Frame} {M M' : Moment σ}

/-- Whatever comes next is ready, and it keeps program and frames as a step does. -/
theorem Next.ready (hn : Next M M') (h : M.Ready l frames) :
    ∃ l' frames', M'.Ready l' frames' ∧ Follows (M.Pushes · M'.session.interpreter) l frames
      l' frames' ∧
      (M.Keeps → l' = l) := by
  cases hn with
  | host host => exact ⟨l, frames, h, .refl _ _ _, fun _ => rfl⟩
  | serve => exact ⟨l, frames, h, .refl _ _ _, fun _ => rfl⟩
  | @enter s s' line phase hrun =>
    have hends := Session.submit_ends line h
    rw [hrun] at hends
    obtain ⟨-, frames', hready, hunstacked⟩ := hends
    exact ⟨_, frames', hready, hunstacked.follows _ (.entered _ _), fun hkeeps => absurd hkeeps id⟩
  | @refuse s s' line cause hrun =>
    have hends := Session.submit_ends line h
    rw [hrun] at hends
    obtain ⟨-, frames', hsane, hunstacked⟩ := hends
    exact ⟨_, frames', hsane, hunstacked.follows _ (.entered _ _), fun hkeeps => absurd hkeeps id⟩
  | step _ hrun =>
    have hends := Session.step_ends h
    rw [hrun] at hends
    exact Successor.next hends
  | stop _ hrun =>
    have hends := Session.step_ends h
    rw [hrun] at hends
    exact Successor.next hends.2
  | rest => exact ⟨l, frames, Interpreter.Ready.sane h, .refl _ _ _, fun _ => rfl⟩

end

/-- Taking steps: none at rest, and otherwise one step and then the others. -/
theorem Session.drive_succ_eq (atRest : Phase → Bool) (steps : Nat) (phase : Phase) :
    (drive atRest (steps + 1) phase : Act σ Phase) =
      if atRest phase then pure phase else step phase >>= drive atRest steps := by
  funext s
  rw [drive]
  split
  · rfl
  · cases hr : step phase s with
    | ok phase' s' => exact (bind_of_ok hr).symm
    | error e s' => exact (bind_of_error hr).symm

/-- Taking steps: one step, unless the session is at rest, and then the others. -/
theorem Session.drive_succ {atRest : Phase → Bool} {steps : Nat} {phase : Phase} {s : Session σ}
    {ok : Phase → Session σ → Prop} {stop : Halt → Session σ → Prop}
    (hrest : atRest phase = true → ok phase s)
    (hstep : atRest phase = false → Ends (step phase s)
      (fun phase s => Ends (drive atRest steps phase s) ok stop) stop) :
    Ends (drive atRest (steps + 1) phase s) ok stop := by
  unfold drive
  cases ha : atRest phase with
  | true => exact hrest ha
  | false =>
    have hends := hstep ha
    cases hrun : step phase s with
    | ok phase' s' =>
      rw [hrun] at hends
      exact hends
    | error cause s' =>
      rw [hrun] at hends
      exact hends

namespace History
variable {first s : Session σ} {past : List (Moment σ)} {M : Moment σ}

/-- Every moment of a history is ready if its first one is. -/
theorem ready (h : History first past M)
    (hfirst : ∃ l frames, first.interpreter.memory.Sane l frames) :
    ∃ l frames, M.Ready l frames := by
  induction h with
  | start => exact hfirst
  | next _ hn ih =>
    obtain ⟨l, frames, hready⟩ := ih
    obtain ⟨l', frames', hready', -⟩ := hn.ready hready
    exact ⟨l', frames', hready'⟩

theorem drive {call : Call} {phase : Phase} (h : History first past (.busy call phase s))
    (steps : Nat) :
    Ends (Session.drive call.atRest steps phase s)
      (fun phase' s' => ∃ past', History first past' (.busy call phase' s'))
      fun _ s' => ∃ past', History first past' (.idle s') := by
  induction steps generalizing past phase s with
  | zero => exact ⟨past, h⟩
  | succ steps ih =>
    refine Session.drive_succ (fun _ => ⟨past, h⟩) fun hrest => ?_
    cases hrun : Session.step phase s with
    | ok phase' s' => exact ih (h.next (.step hrest hrun))
    | error cause s' => exact ⟨_, h.next (.stop hrest hrun)⟩

theorem enter (h : History first past (.idle s)) (steps : Nat) (line : List UInt8) :
    Ends (Session.enter steps line s) (fun phase s' => ∃ past',
      History first past' (.busy .enter phase s'))
      fun _ s' => ∃ past', History first past' (.idle s') := by
  cases hrun : Session.submit line s with
  | ok phase s' => exact Ends.after_ok hrun ((h.next (.enter hrun)).drive steps)
  | error cause s' =>
    rw [Session.enter, bind_of_error hrun]
    exact ⟨_, h.next (.refuse hrun)⟩

theorem enter_of_ok (h : History first past (.idle s)) {steps : Nat} {line : List UInt8}
    {phase : Phase} {s' : Session σ} (hrun : Session.enter steps line s = .ok phase s') :
    ∃ past', History first past' (.busy .enter phase s') := by
  have hends := h.enter steps line
  rw [hrun] at hends
  exact hends

theorem serve (h : History first past (.idle s)) (steps : Nat) :
    Ends (Session.serve steps s) (fun phase s' => ∃ past',
      History first past' (.busy .serve phase s'))
      fun _ s' => ∃ past', History first past' (.idle s') :=
  (h.next .serve).drive steps

theorem serve_of_ok (h : History first past (.idle s)) {steps : Nat} {phase : Phase}
    {s' : Session σ} (hrun : Session.serve steps s = .ok phase s') :
    ∃ past', History first past' (.busy .serve phase s') := by
  have hends := h.serve steps
  rw [hrun] at hends
  exact hends

end History

theorem History.exists_ready {settings : Settings} {host : σ} {threshold : Option Severity}
    {past : List (Moment σ)} {M : Moment σ}
    (h : History (Session.start settings host threshold) past M) : ∃ l frames, M.Ready l frames :=
  h.ready ⟨_, _, Session.sane_start settings host threshold⟩

end LineBasic
