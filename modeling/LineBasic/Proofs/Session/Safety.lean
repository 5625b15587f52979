import LineBasic.Host.Script
import LineBasic.Proofs.Session.History

namespace LineBasic
variable {σ : Type}

/-- What stops short stops where the host fails: no access is outside the buffer, and no difference
is negative. -/
def OnlyHostFails {α : Type} (r : EStateM.Result Halt (Session σ) α) : Prop :=
  Ends r (fun _ _ => True) fun h _ => ∃ e, h = .io e

variable [Host σ]

/-- Nothing but the host fails from this moment on, whatever line is submitted and however many
steps are taken. -/
def Moment.Safe : Moment σ → Prop
  | idle s =>
    (∀ line, OnlyHostFails (Session.submit line s)) ∧
    (∀ steps line, OnlyHostFails (Session.enter steps line s)) ∧
    ∀ steps, OnlyHostFails (Session.serve steps s)
  | busy call phase s =>
    OnlyHostFails (Session.step phase s) ∧ ∀ steps, OnlyHostFails
      (Session.drive call.atRest steps phase s)

section
variable {l : Listing} {frames : List Frame} {phase : Phase} {s : Session σ}

theorem Session.onlyHostFails_step (h : s.interpreter.Ready l frames phase) :
    OnlyHostFails (step phase s) :=
  (step_ends h).mono (fun _ _ _ => trivial) fun _ _ h => h.1

theorem Session.onlyHostFails_drive (h : s.interpreter.Ready l frames phase) (atRest : Phase → Bool)
    (steps : Nat) :
    OnlyHostFails (drive atRest steps phase s) := by
  induction steps generalizing l frames phase s with
  | zero => exact trivial
  | succ steps ih =>
    refine drive_succ (fun _ => trivial) fun _ => (step_ends h).mono (fun phase' s' h' => ?_)
      fun _ _ h' => h'.1
    obtain ⟨l', frames', hready, -⟩ := h'
    exact ih hready

theorem Session.onlyHostFails_enter (h : s.interpreter.memory.Sane l frames) (steps : Nat)
    (line : List UInt8) :
    OnlyHostFails (enter steps line s) :=
  Ends.bind ((submit_ends line h).mono (fun _ _ h => h.2) fun _ _ h => h.1)
    fun _ _ ⟨_, hready, _⟩ => onlyHostFails_drive hready _ steps

theorem Moment.Ready.safe {M : Moment σ} (h : M.Ready l frames) : M.Safe := by
  cases M with
  | idle s =>
    have hcold : s.interpreter.Ready l frames .cold := h
    refine ⟨fun line => ?_, fun steps line => Session.onlyHostFails_enter h steps line, fun steps =>
      Session.onlyHostFails_drive hcold _ steps⟩
    exact (Session.submit_ends line h).mono (fun _ _ _ => trivial) fun _ _ h => h.1
  | busy call phase s => exact ⟨Session.onlyHostFails_step h, Session.onlyHostFails_drive h _⟩

end

/-- At every moment of every session, with any settings and any host, the buffer is laid out well
and nothing but the host fails. -/
theorem History.layout_and_safe {settings : Settings} {host : σ} {threshold : Option Severity}
    {past : List (Moment σ)} {M : Moment σ}
    (h : History (Session.start settings host threshold) past M) :
    M.memory.Layout ∧ M.Safe := by
  obtain ⟨l, frames, hready⟩ := h.exists_ready
  exact ⟨hready.sane.layout, hready.safe⟩

set_option linter.constructorNameAsVariable false in
/-- The room asked for the stack is reckoned in 64 bits, and here it comes to 24 bytes. A line that
calls itself is stored, and has been called twice. -/
theorem History.layout_and_safe_of_wrapped : ∃ past, ∃ s : Session Script,
    History (Session.start { ramSize := 0, stackFrames := 1844674407370955164 } {} none) past
      (.busy .enter .execute s) ∧
    s.interpreter.memory.lines = .ok [⟨1, ascii "GOSUB1"⟩] ∧
    (Moment.busy .enter .execute s).frames = [.gosub (some 0) 9, .gosub none 947] ∧
    s.interpreter.memory.Layout ∧ (Moment.busy .enter .execute s).Safe := by
  have hrun : Ends (Session.submit (ascii "1GOSUB1")
        (Session.start { ramSize := 0, stackFrames := 1844674407370955164 } ({} : Script) none))
      (fun phase s => Call.enter.atRest phase = true ∧ Ends (Session.enter 8 (ascii "GOSUB1") s)
        (fun phase s => phase = .execute ∧ s.interpreter.memory.lines = .ok [⟨1, ascii "GOSUB1"⟩] ∧
          (Moment.busy .enter .execute s).frames = [.gosub (some 0) 9, .gosub none 947])
        fun _ _ => False) fun _ _ => False := by
    decide +kernel
  obtain ⟨phase, s, hs, hrest, hline⟩ := hrun.exists_ok
  obtain ⟨_, s', hs', rfl, hlines, hframes⟩ := hline.exists_ok
  obtain ⟨past, hexecute⟩ := ((History.start.next (.enter hs)).next (.rest hrest)).enter_of_ok hs'
  obtain ⟨hlayout, hsafe⟩ := layout_and_safe hexecute
  exact ⟨past, s', hexecute, hlines, hframes, hlayout, hsafe⟩

end LineBasic
