import LineBasic.Proofs.Memory.ControlStack
import LineBasic.Proofs.Session.Continuation

namespace LineBasic
variable {σ : Type}

/-- The frame was pushed as it is by a statement executed at one of these moments, the latest of
which comes first, and has been on the stack since. -/
def PushedAsIs (frame : Frame) (moments : List (Moment σ)) : Prop :=
  ∃ after Q P before, moments = after ++ Q :: P :: before ∧ P.Pushes frame Q.session.interpreter ∧
    Q.frames = frame :: P.frames ∧ Standing frame (after ++ [Q])

variable [Host σ]

/-- Of two moments that follow one another the first ends a history. -/
theorem History.next_of_eq {first : Session σ} {past after before : List (Moment σ)}
    {M P Q : Moment σ} (h : History first past M) (he : M :: past = after ++ Q :: P :: before) :
    History first before P ∧ Next P Q := by
  induction h generalizing after with
  | start =>
    have hlength := congrArg List.length he
    simp only [List.length_cons, List.length_append, List.length_nil] at hlength
    omega
  | @next past M M' h hn ih =>
    cases after with
    | nil =>
      cases he
      exact ⟨h, hn⟩
    | cons N after => exact ih (List.cons.inj he).2

/-- A frame that comes onto the stack is one that has been pushed. -/
theorem Next.pushes {l : Listing} {frames : List Frame} {P Q : Moment σ} {frame : Frame}
    (hn : Next P Q) (hP : P.Ready l frames) (hQ : Q.frames = frame :: P.frames) :
    P.Pushes frame Q.session.interpreter := by
  obtain ⟨l', frames', hready, hfollows, -⟩ := hn.ready hP
  rw [hready.frames_eq, hP.frames_eq] at hQ
  -- A step that pushes nothing leaves no more frames than there were.
  obtain hnone | ⟨-, hsub | ⟨pushed, hpush, he⟩⟩ := hfollows.kept
  · rw [hnone] at hQ
    cases hQ
  · have hlength := hsub.length_le
    rw [hQ, List.length_cons] at hlength
    omega
  · rw [hQ] at he
    cases he
    exact hpush

/-- Such a frame is the effect of the statement that pushed it. -/
theorem Next.effect_of_push {l : Listing} {frames : List Frame} {P Q : Moment σ} {frame : Frame}
    (hn : Next P Q) (hP : P.Ready l frames) (hQ : Q.frames = frame :: P.frames) :
    ∃ call s phase s', P = .busy call .execute s ∧ Q = .busy call phase s' ∧
      Effect l frames s.interpreter phase (frame :: frames) s'.interpreter := by
  obtain ⟨call, s, rfl, -⟩ := hn.pushes hP hQ
  have hs : s.interpreter.Running l frames := hP
  rw [hP.frames_eq] at hQ
  -- No other step leaves more frames than there were.
  have hmore {l' : Listing} {frames' : List Frame} (hready : Q.Ready l' frames')
      (hsub : frames'.Sublist frames) : False := by
    have hlength := hsub.length_le
    rw [← hready.frames_eq, hQ, List.length_cons] at hlength
    omega
  have hends := Session.execute_executed hs
  cases hn with
  | rest hrest => cases call <;> cases hrest
  | stop _ hrun =>
    rw [show Session.execute s = .error _ _ from hrun] at hends
    obtain ⟨-, frames', hready, hsub⟩ := hends
    exact (hmore hready hsub).elim
  | @step _ s' _ _ phase' _ hrun =>
    rw [show Session.execute s = .ok _ _ from hrun] at hends
    cases hends with
    | done he =>
      have hframes := Moment.Ready.frames_eq (M := .busy call phase' s') (hs.effect he).1
      obtain rfl := hframes.symm.trans hQ
      exact ⟨call, s, phase', s', rfl, rfl, he⟩
    | emptied hc => exact (hmore (hs.cleared hc) (List.nil_sublist _)).elim
    | reported _ ho =>
      obtain ⟨frames', hready, hsub⟩ := ho
      exact (hmore hready hsub).elim

theorem History.pushedAsIs {settings : Settings} {host : σ} {threshold : Option Severity}
    {past : List (Moment σ)} {M : Moment σ}
    (h : History (Session.start settings host threshold) past M) {frame : Frame}
    (hf : frame ∈ M.frames) : PushedAsIs frame (M :: past) := by
  obtain ⟨l, frames, hready, hpushed, -⟩ := h.accounted
  rw [hready.frames_eq] at hf
  obtain ⟨after, Q, P, before, he, hpush, hstanding⟩ := hpushed frame hf
  obtain ⟨hP, hn⟩ := h.next_of_eq he
  obtain ⟨l', frames', hready'⟩ := hP.exists_ready
  exact ⟨after, Q, P, before, he, hn.pushes hready' hpush, hpush, hstanding⟩

/-- The control stack is a list of frames. Wherever frames were pushed, found, removed and unwound,
its bytes are the encodings of the list, and every operation is that of a list. At every moment of a
session, whatever is done to the stack from there on, this holds, and every frame is as some
statement pushed it. -/
theorem control_stack_list :
    (∀ (ramSize stackFrames : UInt64) (m : Memory) (frames : List Frame),
      Memory.Stacked (.create ramSize stackFrames) m frames → m.ControlStack frames) ∧
    ∀ {σ : Type} [Host σ] (settings : Settings) (host : σ) (threshold : Option Severity)
      (past : List (Moment σ)) (M : Moment σ),
      History (Session.start settings host threshold) past M →
      M.memory.ControlStack M.frames ∧
      (∀ m frames, Memory.Stacked M.memory m frames → m.ControlStack frames) ∧
      ∀ frame ∈ M.frames, frame.Plain ∧ PushedAsIs frame (M :: past) := by
  refine ⟨fun ramSize stackFrames m frames h => ?_, fun settings host threshold past M h => ?_⟩
  · exact h.controlStack ⟨_, _, Memory.sound_create ramSize stackFrames⟩
  · obtain ⟨l, frames, hready⟩ := h.exists_ready
    have hsane := hready.sane
    refine ⟨?_, fun m frames' hstacked => hstacked.controlStack ⟨l, frames, hsane.toSound⟩,
      fun frame hf => ?_⟩
    · rw [hready.frames_eq]
      exact hsane.toSound.controlStack
    · have hpushed := h.pushedAsIs hf
      rw [hready.frames_eq] at hf
      exact ⟨hsane.toSound.plain (hsane.resumes frame hf).inside, hpushed⟩

set_option linter.constructorNameAsVariable false in
/-- A call and a loop pushed on an empty stack, and a call that a session has begun. -/
theorem control_stack_of_frames :
    (∃ m, Memory.Stacked (.create 1024 5) m [.loop ⟨0⟩ 10 1 (some 4) 30, .gosub none 900] ∧
      m.ControlStack [.loop ⟨0⟩ 10 1 (some 4) 30, .gosub none 900]) ∧
    ∃ past, ∃ s : Session Script, (Moment.busy .enter .line s).memory.ControlStack
      [.gosub none 921] ∧
      PushedAsIs (.gosub none 921) (.busy .enter .line s :: past) := by
  constructor
  · have hsound := Memory.sound_create 1024 5
    have hcall : Memory.pushFrame (.gosub none 900) (.create 1024 5) = .ok () _ :=
      Memory.pushFrame_eq (by decide) hsound.layout.top_le
    have hstart : Memory.Stacked (.create 1024 5) (.create 1024 5) _ := .start
    rw [hsound.decodes.frames_eq] at hstart
    have hcalled := hstart.push ⟨rfl, by decide⟩ hcall
    obtain ⟨l, hsound'⟩ := hcalled.exists_sound ⟨_, _, hsound⟩
    have hloop : Memory.pushFrame (.loop ⟨0⟩ 10 1 (some 4) 30)
      ((Memory.create 1024 5).pushed (.gosub none 900)) =
        .ok () _ := Memory.pushFrame_eq (by decide) hsound'.layout.top_le
    have hlooped := hcalled.push ⟨rfl, by decide⟩ hloop
    exact ⟨_, hlooped, control_stack_list.1 _ _ _ _ hlooped⟩
  · have hrun : Ends (Session.enter 3 (ascii "GOSUB1")
      (Session.start { ramSize := 1024 } ({} : Script) none))
        (fun phase s => phase = .line ∧ (Moment.busy .enter .line s).frames = [.gosub none 921])
        fun _ _ => False := by
      decide +kernel
    obtain ⟨_, s, hs, rfl, hframes⟩ := hrun.exists_ok
    obtain ⟨past, hcalled⟩ := History.start.enter_of_ok hs
    obtain ⟨hstack, -, hpushed⟩ := control_stack_list.2 _ _ _ _ _ hcalled
    rw [hframes] at hstack hpushed
    exact ⟨past, s, hstack, (hpushed _ List.mem_cons_self).2⟩

end LineBasic
