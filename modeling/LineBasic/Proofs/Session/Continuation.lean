import LineBasic.Host.Script
import LineBasic.Proofs.Session.History

namespace LineBasic
variable {σ : Type} {l l' : Listing} {frames : List Frame}

def Standing (frame : Frame) (moments : List (Moment σ)) : Prop :=
  ∀ N ∈ moments, frame ∈ N.frames

/-- The frame was pushed at one of these moments, the latest of which comes first, and has been on
the stack since. -/
def Pushed (frame : Frame) (moments : List (Moment σ)) : Prop :=
  ∃ after Q P before, moments = after ++ Q :: P :: before ∧ Q.frames = frame :: P.frames ∧
    Standing frame (after ++ [Q])

theorem Pushed.cons {frame : Frame} {moments : List (Moment σ)} {M : Moment σ}
    (h : Pushed frame moments) (hM : frame ∈ M.frames) : Pushed frame (M :: moments) := by
  obtain ⟨after, Q, P, before, he, hpush, hstanding⟩ := h
  refine ⟨M :: after, Q, P, before, by rw [he]; rfl, hpush, fun N hN => ?_⟩
  rcases List.mem_cons.1 hN with rfl | hN
  · exact hM
  · exact hstanding N hN

def Lasting (l : Listing) (moments : List (Moment σ)) : Prop :=
  ∀ frame after before, moments = after ++ before → Standing frame after →
    ∀ N ∈ after, N.memory.Holds l

structure Accounted (l : Listing) (frames : List Frame) (past : List (Moment σ)) (M : Moment σ) :
    Prop where
  ready : M.Ready l frames
  pushed : ∀ frame ∈ frames, Pushed frame (M :: past)
  lasting : Lasting l (M :: past)

theorem Lasting.next {past : List (Moment σ)} {M M' : Moment σ} (h : Lasting l (M :: past))
    (hM' : M'.memory.Holds l') (hl : M'.frames = [] ∨ l' = l) : Lasting l' (M' :: M :: past) := by
  intro frame after before he hstanding N hN
  rcases after with _ | ⟨first, after⟩
  · exact absurd hN List.not_mem_nil
  obtain ⟨rfl, hpast⟩ := List.cons.inj he
  have hframe := hstanding M' List.mem_cons_self
  obtain hnone | rfl := hl
  · rw [hnone] at hframe
    exact absurd hframe List.not_mem_nil
  · rcases List.mem_cons.1 hN with rfl | hN
    · exact hM'
    · exact h frame after before hpast (fun N hN => hstanding N (List.mem_cons_of_mem _ hN)) N hN

variable [Host σ]

theorem Accounted.next {past : List (Moment σ)} {M M' : Moment σ} (h : Accounted l frames past M)
    (hn : Next M M') :
    ∃ l' frames', Accounted l' frames' (M :: past) M' := by
  obtain ⟨l', frames', hready, hfollows, -⟩ := hn.ready h.ready
  have hframes := hready.frames_eq
  refine ⟨l', frames', hready, fun frame hf => ?_, h.lasting.next hready.sane.holds ?_⟩
  · have hM' : frame ∈ M'.frames := by rwa [hframes]
    obtain rfl | ⟨-, hsub | ⟨top, -, rfl⟩⟩ := hfollows.kept
    · exact absurd hf List.not_mem_nil
    · exact (h.pushed frame (hsub.subset hf)).cons hM'
    · rcases List.mem_cons.1 hf with rfl | hf
      · -- The frame has just been pushed.
        refine ⟨[], M', M, past, rfl, by rw [hframes, h.ready.frames_eq], fun N hN => ?_⟩
        rw [List.mem_singleton.1 hN]
        exact hM'
      · exact (h.pushed frame hf).cons hM'
  · obtain rfl | ⟨hl, -⟩ := hfollows.kept
    · exact Or.inl hframes
    · exact Or.inr hl

theorem History.accounted {settings : Settings} {host : σ} {threshold : Option Severity}
    {past : List (Moment σ)} {M : Moment σ}
    (h : History (Session.start settings host threshold) past M) :
    ∃ l frames, Accounted l frames past M := by
  induction h with
  | start =>
    have hsane := Session.sane_start settings host threshold
    refine ⟨.empty, [], hsane, fun _ hf => absurd hf List.not_mem_nil,
      fun frame after before he _ N hN => ?_⟩
    have hmem : N ∈ after ++ before := List.mem_append_left _ hN
    rw [← he, List.mem_singleton] at hmem
    rw [hmem]
    exact hsane.holds
  | next _ hn ih =>
    obtain ⟨l, frames, haccounted⟩ := ih
    exact haccounted.next hn

/-- Execution is in the line it says, and what it continues at is there. -/
structure InPlace (l : Listing) (past : List (Moment σ)) (M : Moment σ) : Prop where
  holds : M.memory.Holds l
  /-- A statement is executed inside the current line; a direct line ends below the variables. -/
  inside : ∀ call s, M = .busy call .execute s →
    l.Inside M.memory.variablesBegin s.interpreter.currentLine s.interpreter.textPos ∧
    M.memory.Marked
  /-- A frame of a stored line continues at the end of a statement in a record of the program, which
  has stood there as long as the frame has been on the stack. -/
  continues : ∀ frame ∈ M.frames, ∀ address, frame.line = some address →
  ∃ line, l.StartsAt line address ∧
    address + 3 ≤ frame.pos ∧ (frame.pos = address + 3 + line.text.length ∨
      line.text[frame.pos - (address + 3)]? = some (byte ':')) ∧
    Pushed frame (M :: past) ∧
    ∀ after before, M :: past = after ++ before → Standing frame after →
      ∀ N ∈ after, Memory.Stands N.memory.ram address line.record
  /-- What keeps the program changes no byte of it. -/
  keeps : ∀ M', Next M M' → M.Keeps → M'.memory.programEnd = M.memory.programEnd ∧
    Memory.Agree M.memory.ram M'.memory.ram 0 M.memory.programEnd

/-- At every moment of every session execution is in the line it is said to be in, and the stack
continues at records of the program. -/
theorem History.exists_inPlace {settings : Settings} {host : σ} {threshold : Option Severity}
    {past : List (Moment σ)} {M : Moment σ}
    (h : History (Session.start settings host threshold) past M) :
    ∃ l : Listing, InPlace l past M := by
  obtain ⟨l, frames, hready, hpushed, hlasting⟩ := h.accounted
  have hsane := hready.sane
  refine ⟨l, hsane.holds, ?_, fun frame hf address ha => ?_, fun M' hn hkeeps => ?_⟩
  · rintro call s rfl
    have hrunning : s.interpreter.Running l frames := hready
    exact ⟨hrunning.inside, hrunning.marked⟩
  · rw [hready.frames_eq] at hf
    have hresumes := hsane.resumes frame hf
    rw [ha] at hresumes
    obtain ⟨line, hstarts, hlo, hend⟩ := hresumes
    refine ⟨line, hstarts, hlo, hend, hpushed frame hf, fun after before he hstanding N hN => ?_⟩
    exact (hlasting frame after before he hstanding N hN).stands_record hstarts
  · obtain ⟨l', frames', hready', -, hl⟩ := hn.ready hready
    rw [hl hkeeps] at hready'
    exact hsane.holds.agree hready'.sane.holds

set_option linter.constructorNameAsVariable false in
/-- A line that calls itself is executed again with the place of the call on the stack. -/
theorem History.inPlace_of_call : ∃ past, ∃ s : Session Script,
    (Moment.busy .enter .execute s).frames = [.gosub (some 0) 9] ∧
      ∃ l : Listing, InPlace l past (.busy .enter .execute s) := by
  have hrun : Ends (Session.enter 1 (ascii "1GOSUB1")
    (Session.start { ramSize := 1024 } ({} : Script) none))
      (fun phase s => phase = .prompt ∧ Ends (Session.enter 8 (ascii "RUN") s)
        (fun phase s' => phase = .execute ∧ s'.interpreter.memory.frames.map Prod.snd =
          [.gosub (some 0) 9])
        fun _ _ => False)
      fun _ _ => False := by
    decide +kernel
  obtain ⟨_, s, hs, rfl, hcall⟩ := hrun.exists_ok
  obtain ⟨_, s', hs', rfl, hframes⟩ := hcall.exists_ok
  obtain ⟨past, hstored⟩ := History.start.enter_of_ok hs
  obtain ⟨past', hcalled⟩ := (hstored.next (.rest rfl)).enter_of_ok hs'
  exact ⟨past', s', hframes, exists_inPlace hcalled⟩

end LineBasic
