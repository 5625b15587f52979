import LineBasic.Proofs.Session.Talking

namespace LineBasic

/-- What a statement that keeps the program leaves where it begins with these frames and this
interpreter: the phase that follows, the frames and the interpreter. -/
inductive Effect (l : Listing) (frames : List Frame) (i : Interpreter) :
    Phase → List Frame → Interpreter → Prop
  /-- It has only read on. -/
  | pass {phase : Phase} {j : Interpreter} (h : i.ReadOn j)
      (hp : phase ∈ [.proceed, .nextLine, .restart, .bye]) : Effect l frames i phase frames j
  /-- A value is asked for. -/
  | ask {j : Interpreter} (v : Variable) (h : i.ReadOn j) (he : j.AtEnd) :
    Effect l frames i (.ask (.reply v j.textPos)) frames j
  /-- A value is stored. -/
  | store {j : Interpreter} (v : Variable) (x : Int16) (h : i.ReadOn j) (he : j.AtEnd) :
    Effect l frames i .proceed frames { j with memory := j.memory.stored v x }
  /-- The program begins from its start, without frames. -/
  | run {j : Interpreter} (h : i.ReadOn j) :
    Effect l frames i .line []
      { j with memory := { j.memory with stackTop := j.memory.size }, currentLine := some 0 }
  /-- The program ends. -/
  | finish {j : Interpreter} (h : i.ReadOn j) :
    Effect l frames i .line frames { j with currentLine := some j.memory.programEnd }
  /-- The program goes on at another line. -/
  | jump {j : Interpreter} (number : UInt16) (h : i.ReadOn j) :
    Effect l frames i .line frames { j with currentLine := some (extent (l.below number)) }
  /-- A subroutine is called. -/
  | call {j : Interpreter} (number : UInt16) (h : i.ReadOn j) (he : j.AtEnd)
      (hr : ¬ j.memory.stackTop < j.memory.stackLimit +
        (Frame.gosub j.currentLine j.textPos).size) :
    Effect l frames i .line (.gosub j.currentLine j.textPos :: frames)
      { j with
        memory := j.memory.pushed (.gosub j.currentLine j.textPos)
        currentLine := some (extent (l.below number)) }
  /-- The innermost call returns; the loops begun since are left in place. -/
  | goBack {j : Interpreter} {before after : List Frame} {line : Option Nat} {pos : Nat}
      (h : i.ReadOn j) (hf : frames = before ++ .gosub line pos :: after)
      (hb : ∀ frame ∈ before, frame.isLoop = true) :
    Effect l frames i .proceed (before ++ after)
      { j with
        memory := j.memory.removed (j.memory.stackTop + depth before) (.gosub line pos)
        currentLine := line
        textPos := pos }
  /-- A loop is begun. -/
  | loop {j : Interpreter} (v : Variable) (initial terminal step : Int16) (h : i.ReadOn j)
    (he : j.AtEnd)
      (hr : ¬ j.memory.stackTop <
        j.memory.stackLimit + (Frame.loop v terminal step j.currentLine j.textPos).size) :
    Effect l frames i .proceed (.loop v terminal step j.currentLine j.textPos :: frames)
      { j with memory :=
          (j.memory.pushed (.loop v terminal step j.currentLine j.textPos)).stored v initial }
  /-- A loop is repeated; what was begun in it is dropped. -/
  | again {j : Interpreter} {before after : List Frame} {v : Variable} {terminal step : Int16}
      {line : Option Nat} {pos : Nat} {named : Option Variable} (h : i.ReadOn j)
      (hf : frames = before ++ .loop v terminal step line pos :: after)
      (hv : named.all (· = v)) (hb : ∀ frame ∈ before, frame.isLoopOver named = false)
      (hs : Session.repeats step (j.memory.value v + step) terminal = true) :
    Effect l frames i .proceed (.loop v terminal step line pos :: after)
      { j with
        memory := { j.memory.stored v (j.memory.value v + step) with
          stackTop := j.memory.stackTop + depth before }
        currentLine := line
        textPos := pos }
  /-- A loop is left. -/
  | leave {j : Interpreter} {before after : List Frame} {v : Variable} {terminal step : Int16}
      {line : Option Nat} {pos : Nat} {named : Option Variable} (h : i.ReadOn j)
      (hf : frames = before ++ .loop v terminal step line pos :: after)
      (hv : named.all (· = v)) (hb : ∀ frame ∈ before, frame.isLoopOver named = false)
      (hs : Session.repeats step (j.memory.value v + step) terminal = false) :
    Effect l frames i .proceed after
      { j with memory := { j.memory.stored v (j.memory.value v + step) with
        stackTop := j.memory.stackTop + depth before + (Frame.loop v terminal step line pos).size }
          }

structure Cleared (i : Interpreter) (phase : Phase) (j : Interpreter) : Prop where
  phase_eq : phase = .prompt
  exists_eq : ∃ k, i.ReadOn k ∧
    j = { k with memory := { k.memory with programEnd := 0, stackTop := k.memory.size } }

/-- What begins once some of the line has been read began before that. -/
theorem Effect.of_readOn {l : Listing} {frames frames' : List Frame} {i j k : Interpreter}
    {phase : Phase} (h : i.ReadOn j) (he : Effect l frames j phase frames' k) :
    Effect l frames i phase frames' k := by
  cases he with
  | pass hr hp => exact .pass (h.trans hr) hp
  | ask v hr he => exact .ask v (h.trans hr) he
  | store v x hr he => exact .store v x (h.trans hr) he
  | run hr => exact .run (h.trans hr)
  | finish hr => exact .finish (h.trans hr)
  | jump number hr => exact .jump number (h.trans hr)
  | call number hr he hroom => exact .call number (h.trans hr) he hroom
  | goBack hr hf hb => exact .goBack (h.trans hr) hf hb
  | loop v initial terminal step hr he hroom =>
    exact .loop v initial terminal step (h.trans hr) he hroom
  | again hr hf hv hb hs => exact .again (h.trans hr) hf hv hb hs
  | leave hr hf hv hb hs => exact .leave (h.trans hr) hf hv hb hs

theorem Cleared.of_readOn {i j k : Interpreter} {phase : Phase} (h : i.ReadOn j)
    (hc : Cleared j phase k) : Cleared i phase k := by
  obtain ⟨m, hr, hk⟩ := hc.exists_eq
  exact ⟨hc.phase_eq, m, h.trans hr, hk⟩

/-- A phase that asks for nothing. -/
def Phase.Onwards (phase : Phase) : Prop :=
  phase ∈ [.proceed, .nextLine, .line, .prompt, .restart, .bye]

instance (phase : Phase) : Decidable phase.Onwards :=
  inferInstanceAs (Decidable (phase ∈ _))

namespace Interpreter

/-- The keyword of the statement at the position. -/
def keyword (i : Interpreter) : Option Keyword :=
  (i.cursor.token Keyword.vocabulary).1

def GoesOn (frames : List Frame) (c : Cursor) (phase : Phase) (j : Interpreter) : Prop :=
  j.textPos = c.pos ∨
    phase = .proceed ∧ ∃ frame ∈ frames, j.currentLine = frame.line ∧ j.textPos = frame.pos

end Interpreter

/-- What a statement does once its text has been read, if it keeps the program and asks for
nothing: execution goes on behind the text or where a frame continues. -/
structure Turns (l : Listing) (frames : List Frame) (i : Interpreter) (phase : Phase)
    (j : Interpreter) : Prop where
  exists_effect : ∃ frames', Effect l frames i phase frames' j
  goesOn : j.GoesOn frames i.cursor phase
  onwards : phase.Onwards

theorem Effect.turns {l : Listing} {frames frames' : List Frame} {i j : Interpreter} {phase : Phase}
    (he : Effect l frames i phase frames' j) (hpos : j.textPos = i.textPos) (hp : phase.Onwards) :
    Turns l frames i phase j :=
  ⟨⟨frames', he⟩, Or.inl hpos, hp⟩

/-- What a statement with this keyword does once its text has been read. Only `NEW` does not keep
the program, and only `INPUT` asks for something. -/
structure Does (word : Option Keyword) (l : Listing) (frames : List Frame) (i : Interpreter)
    (phase : Phase) (j : Interpreter) : Prop where
  kept : word ≠ some .new → ∃ frames', Effect l frames i phase frames' j
  cleared : word = some .new → Cleared i phase j
  goesOn : j.GoesOn frames i.cursor phase
  onwards : phase.Onwards ∨ word = some .input ∧ ∃ v resume, phase = .ask (.reply v resume)

theorem Turns.does {word : Option Keyword} {l : Listing} {frames : List Frame} {i j : Interpreter}
    {phase : Phase} (h : Turns l frames i phase j) (hw : word ≠ some .new) :
    Does word l frames i phase j :=
  ⟨fun _ => h.exists_effect, fun hnew => absurd hnew hw, h.goesOn, Or.inl h.onwards⟩

namespace Session
variable {σ α : Type} {l : Listing} {frames : List Frame}

theorem jump_eq {s : Session σ} (number : UInt16) (hm : s.interpreter.memory.Layout)
    (hh : s.interpreter.memory.Holds l) :
    jump number s = .ok .line { s with interpreter :=
      { s.interpreter with currentLine := some (extent (l.below number)) } } := by
  unfold jump
  rw [bind_of_ok (lookIn_of_ok (Memory.findLine_eq hm hh number))]
  rfl

theorem pushFrame_of_room {s : Session σ} {frame : Frame}
    (hroom : ¬ s.interpreter.memory.stackTop < s.interpreter.memory.stackLimit + frame.size)
    (hm : s.interpreter.memory.Layout) :
    pushFrame frame s = .ok () ((s.withMemory (s.interpreter.memory.pushed frame)).noted
      (.pushed frame)) :=
  bind_of_ok (onMemory_of_ok (Memory.pushFrame_eq hroom hm.top_le))

/-- A loop is begun: its frame is pushed, and its variable is stored. -/
theorem begin_of_room {s : Session σ} {frame : Frame} (v : Variable) (initial : Int16)
    (hs : s.interpreter.Running l frames) (hsavable : frame.Savable)
    (hroom : ¬ s.interpreter.memory.stackTop < s.interpreter.memory.stackLimit + frame.size) :
    ∃ journal, (do
        pushFrame frame
        onMemory (Memory.store v initial)
        return .proceed : Act σ Phase) s = .ok .proceed { s with
          interpreter := { s.interpreter with
            memory := (s.interpreter.memory.pushed frame).stored v initial }
          journal } := by
  have hsound := hs.toSound.pushed hsavable hroom
  have hstore := onMemory_of_ok (s := (s.withMemory (s.interpreter.memory.pushed frame)).noted
    (.pushed frame))
    (Memory.store_eq v initial hsound.layout)
  exact ⟨_, (bind_of_ok (pushFrame_of_room hroom hs.layout)).trans (bind_of_ok hstore)⟩

end Session
end LineBasic
