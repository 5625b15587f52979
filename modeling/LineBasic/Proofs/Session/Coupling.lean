import LineBasic.Proofs.Memory.Kin
import LineBasic.Proofs.Session.Ready
import LineBasic.Proofs.Session.Tracking

namespace LineBasic

open Memory (Layout Sound Executing)

structure Coupling where
  Buffers : Memory → Memory → Prop
  /-- The rest of the line at this place is the same in both buffers. -/
  Shares : Option Nat → Nat → Prop
  /-- Where the pending direct lines may begin. -/
  Directs : Option Nat → Option Nat → Prop
  /-- As many bytes are free in both. -/
  Meters : Prop
  programEnd_eq {m m' : Memory} : Buffers m m' → m'.programEnd = m.programEnd
  layout {m m' : Memory} : Buffers m m' → m.Layout → m'.Layout
  sound {m m' : Memory} {l : Listing} {frames : List Frame} : Buffers m m' → m.Sound l frames →
  m'.Sound l frames
  value_eq {m m' : Memory} : Buffers m m' → m.Layout → ∀ v, m'.value v = m.value v
  like {m m' : Memory} {l : Listing} {frames : List Frame} {line : Option Nat} {pos : Nat} :
    Buffers m m' →
    m.Executing l frames → l.Inside m.variablesBegin line pos → Shares line pos →
    Cursor.Like ⟨m.ram, pos⟩ ⟨m'.ram, pos⟩
  free_eq {m m' : Memory} : Meters → Buffers m m' → m'.free = m.free
  /-- There is room for a frame in both stacks or in neither. -/
  full_iff {m m' : Memory} : Buffers m m' → m.Layout → ∀ size,
    m'.stackTop < m'.stackLimit + size ↔ m.stackTop < m.stackLimit + size
  stored {m m' : Memory} : Buffers m m' → m.Layout → ∀ v x, Buffers (m.stored v x) (m'.stored v x)
  /-- Bytes written alike where lines are typed. -/
  written {m m' : Memory} {start : Nat} {bytes : List UInt8} : Buffers m m' → m.Layout →
  m.entryStart ≤ start →
    start + bytes.length ≤ m.variablesBegin → start + bytes.length ≤ m'.variablesBegin →
    Buffers { m with ram := Memory.overwrite m.ram start bytes }
      { m' with ram := Memory.overwrite m'.ram start bytes }
  unlined {m m' : Memory} : Buffers m m' → Buffers { m with programEnd :=
    0 } { m' with programEnd := 0 }
  unstacked {m m' : Memory} : Buffers m m' → m.Layout →
    Buffers { m with stackTop := m.size } { m' with stackTop := m'.size }
  pushed {m m' : Memory} {frame : Frame} : Buffers m m' → m.Layout → frame.Savable →
    ¬ m.stackTop < m.stackLimit + frame.size → Buffers (m.pushed frame) (m'.pushed frame)
  removed {m m' : Memory} {l : Listing} {before after : List Frame} {frame : Frame} : Buffers m m' →
    m.Sound l (before ++ frame :: after) →
    Buffers (m.removed (m.stackTop + depth before) frame)
      (m'.removed (m'.stackTop + depth before) frame)
  unwound {m m' : Memory} {l : Listing} {before after : List Frame} : Buffers m m' → m.Sound l
    (before ++ after) →
    Buffers { m with stackTop := m.stackTop + depth before }
      { m' with stackTop := m'.stackTop + depth before }
  shares_some (address pos : Nat) : Shares (some address) pos
  shares_mono {line : Option Nat} {pos pos' : Nat} : Shares line pos → pos ≤ pos' → Shares line pos'
  directs_none : Directs none none

namespace Memory

/-- Where the program is the same, the same is left of a stored line. -/
theorem like_of_program {m m' : Memory} {l : Listing} {line : Line} {address pos : Nat}
    (hat : LineAt m l line address) (hhi : pos ≤ address + 3 + line.text.length)
    (ha : Agree m.ram m'.ram 0 m.programEnd) :
    Cursor.Like ⟨m.ram, pos⟩ ⟨m'.ram, pos⟩ := by
  have hmarker : m.ram.getD (address + 3 + line.text.length) Byte.marker = Byte.marker := by
    rw [Array.getD_eq_getD_getElem?, hat.parts.2.2.2]
    rfl
  have hend := endOfLine_le hhi hmarker
  have hle := hat.end_le
  exact Cursor.like_of_agree (ha.mono (Nat.zero_le _) (by omega))

/-- The same is left of the lines that are still of use. -/
theorem Twin.like {m m' : Memory} {floor : Nat} {l : Listing} {frames : List Frame}
    {line : Option Nat} {pos : Nat} (h : m.Twin floor m') (hm : m.Executing l frames)
    (hinside : l.Inside m.variablesBegin line pos) (hfloor : line = none → floor ≤ pos) :
    Cursor.Like ⟨m.ram, pos⟩ ⟨m'.ram, pos⟩ := by
  cases line with
  | none =>
    obtain ⟨-, hlt⟩ := hinside
    have hmarker : m.ram.getD (m.variablesBegin - 1) Byte.marker = Byte.marker := by
      rw [Array.getD_eq_getD_getElem?, show m.ram[m.variablesBegin - 1]? = _ from hm.marked]
      rfl
    have hend := endOfLine_le (show pos ≤ m.variablesBegin - 1 by omega) hmarker
    have hadd := hm.layout.variables_add
    exact Cursor.like_of_agree (h.line.mono (hfloor rfl) (by omega))
  | some address =>
    obtain ⟨line, hstarts, -, hhi⟩ := hinside
    exact like_of_program ⟨hstarts, hm.holds, hm.layout⟩ hhi h.program

theorem Kin.like {m m' : Memory} {l : Listing} {frames : List Frame} {line : Option Nat} {pos : Nat}
    (h : m.Kin m') (hs : m.Sound l frames) (hinside : l.Inside m.variablesBegin line pos)
    (hstored : line ≠ none) :
    Cursor.Like ⟨m.ram, pos⟩ ⟨m'.ram, pos⟩ := by
  cases line with
  | none => exact absurd rfl hstored
  | some address =>
    obtain ⟨line, hstarts, -, hhi⟩ := hinside
    exact like_of_program ⟨hstarts, hs.holds, hs.layout⟩ hhi (hs.holds.agree (h.sound hs).holds).2

end Memory

def Coupling.twin (floor : Nat) : Coupling where
  Buffers := Memory.Twin floor
  Shares line pos := line = none → floor ≤ pos
  Directs direct direct' := direct' = direct
  Meters := True
  programEnd_eq h := h.programEnd_eq
  layout h hm := h.layout hm
  sound h hs := h.sound hs
  value_eq h hm v := h.value_eq hm v
  like h hm hinside hfloor := h.like hm hinside hfloor
  free_eq _ h := by rw [Memory.free, Memory.free, h.variablesBegin_eq, h.programEnd_eq]
  full_iff h _ size := by rw [h.stackTop_eq, h.stackLimit_eq]
  stored h _ v x := h.stored v x
  written h _ _ _ _ := h.overwrite _ _
  unlined h := h.emptied
  unstacked h hm := h.unstacked hm.top_le
  pushed h hm _ hr := h.pushed hm hr
  removed h hs := h.removed hs
  unwound h _ := by
    rw [h.stackTop_eq]
    exact h.unwound (Nat.le_add_right _ _)
  shares_some _ _ h := by cases h
  shares_mono h hle hl := Nat.le_trans (h hl) hle
  directs_none := rfl

def Coupling.kin : Coupling where
  Buffers := Memory.Kin
  Shares line _ := line ≠ none
  Directs _ _ := True
  Meters := False
  programEnd_eq h := h.programEnd_eq
  layout h _ := h.layout
  sound h hs := h.sound hs
  value_eq h _ v := h.value_eq v
  like h hm hinside hstored := h.like hm.toSound hinside hstored
  free_eq h := absurd h id
  full_iff h _ size := h.full_iff size
  stored h _ v x := h.stored v x
  written h _ hlo hhi hhi' := h.written hlo hhi hhi'
  unlined h := h.unlined
  unstacked h _ := h.unstacked
  pushed h _ hf hr := h.pushed hf hr
  removed h hs := h.removed hs
  unwound h hs := h.unwound hs
  shares_some _ _ := Option.some_ne_none _
  shares_mono h _ := h
  directs_none := trivial

namespace Interpreter

/-- The buffers are coupled and the registers agree; the interpreters are the very same if `exact`
holds. The positions do not matter where nothing is executed. -/
structure Coupled (C : Coupling) (exact : Prop) (i j : Interpreter) : Prop where
  memory : C.Buffers i.memory j.memory
  currentLine_eq : j.currentLine = i.currentLine
  direct : C.Directs i.directText j.directText
  generator_eq : j.generator = i.generator
  echo_eq : j.echo = i.echo
  same : exact → j = i

namespace Coupled
variable {C : Coupling} {exact : Prop} {i j : Interpreter}

theorem layouts (h : Coupled C exact i j) (hm : i.memory.Layout) :
    i.memory.Layout ∧ j.memory.Layout :=
  ⟨hm, C.layout h.memory hm⟩

theorem entryStart_eq (h : Coupled C exact i j) : j.memory.entryStart = i.memory.entryStart :=
  congrArg (· + Memory.entryHeadroom) (C.programEnd_eq h.memory)

theorem evaluate_eq (h : Coupled C exact i j) (hm : i.memory.Layout) (hl : i.cursor.Like j.cursor)
    (hp : exact ∨ i.cursor.expression.1.peeks = 0) :
    j.cursor.expression.1.evaluate j.memory.view j.generator =
      i.cursor.expression.1.evaluate i.memory.view i.generator := by
  rw [hl.expression.1, h.generator_eq]
  obtain hexact | hnone := hp
  · rw [h.same hexact]
  · have hfetch : j.memory.view.fetch = i.memory.view.fetch := funext fun v =>
      C.value_eq h.memory hm v
    exact Expr.evaluate_congr hfetch hnone _

theorem withMemory (h : Coupled C exact i j) {f g : Memory → Memory}
    (hf : C.Buffers (f i.memory) (g j.memory))
    (hs : j.memory = i.memory → g i.memory = f i.memory) :
    Coupled C exact (i.withMemory (f i.memory)) (j.withMemory (g j.memory)) := by
  refine ⟨hf, h.currentLine_eq, h.direct, h.generator_eq, h.echo_eq, fun he => ?_⟩
  have hsame := h.same he
  rw [hsame, hs (congrArg Interpreter.memory hsame)]

theorem stored (h : Coupled C exact i j) (hm : i.memory.Layout) (v : Variable) (x : Int16) :
    Coupled C exact (i.withMemory (i.memory.stored v x)) (j.withMemory (j.memory.stored v x)) :=
  h.withMemory (f := (·.stored v x)) (g := (·.stored v x)) (C.stored h.memory hm v x) fun _ => rfl

theorem unstacked (h : Coupled C exact i j) (hm : i.memory.Layout) :
    Coupled C exact (i.withMemory { i.memory with stackTop := i.memory.size })
      (j.withMemory { j.memory with stackTop := j.memory.size }) :=
  h.withMemory (f := fun m => { m with stackTop := m.size }) (g :=
    fun m => { m with stackTop := m.size })
    (C.unstacked h.memory hm) fun _ => rfl

theorem atLine (h : Coupled C exact i j) (current : Option Nat) :
    Coupled C exact { i with currentLine := current } { j with currentLine := current } :=
  ⟨h.memory, rfl, h.direct, h.generator_eq, h.echo_eq, fun he => by rw [h.same he]⟩

theorem atPlace (h : Coupled C exact i j) (current : Option Nat) (pos : Nat) :
    Coupled C exact { i with currentLine := current, textPos := pos }
      { j with currentLine := current, textPos := pos } :=
  ⟨h.memory, rfl, h.direct, h.generator_eq, h.echo_eq, fun he => by rw [h.same he]⟩

theorem atPos (h : Coupled C exact i j) (pos : Nat) :
    Coupled C exact { i with textPos := pos } { j with textPos := pos } :=
  ⟨h.memory, h.currentLine_eq, h.direct, h.generator_eq, h.echo_eq, fun he => by rw [h.same he]⟩

theorem atExpression (h : Coupled C exact i j) (generator : Generator) (pos : Nat) :
    Coupled C exact { i with generator, textPos := pos } { j with generator, textPos := pos } :=
  ⟨h.memory, h.currentLine_eq, h.direct, rfl, h.echo_eq, fun he => by rw [h.same he]⟩

end Coupled
end Interpreter
end LineBasic
