import LineBasic.Proofs.Cursor
import LineBasic.Proofs.Memory.Sound
import LineBasic.Session.Basic

namespace LineBasic

namespace Listing
variable {l : Listing} {top pos : Nat}

/-- The position is in the text of a stored line or at its marker, or, where no line is given, above
the program and below `top`. -/
def Inside (l : Listing) (top : Nat) : Option Nat → Nat → Prop
  | none, pos => extent l.lines < pos ∧ pos < top
  | some address, pos => ∃ line, l.StartsAt line address ∧
      address + 3 ≤ pos ∧ pos ≤ address + 3 + line.text.length

/-- The position is at the end of a statement of a stored line, at a colon or at the marker, or,
where no line is given, above the program and below `top`. -/
def Resumes (l : Listing) (top : Nat) : Option Nat → Nat → Prop
  | none, pos => extent l.lines < pos ∧ pos < top
  | some address, pos => ∃ line, l.StartsAt line address ∧ address + 3 ≤ pos ∧
      (pos = address + 3 + line.text.length ∨ line.text[pos - (address + 3)]? = some (byte ':'))

theorem Resumes.inside {line : Option Nat} (h : l.Resumes top line pos) :
    l.Inside top line pos := by
  cases line with
  | none => exact h
  | some address =>
    obtain ⟨line, hs, hlo, hend | hcolon⟩ := h
    · exact ⟨line, hs, hlo, Nat.le_of_eq hend⟩
    · obtain ⟨hlt, -⟩ := List.getElem?_eq_some_iff.1 hcolon
      exact ⟨line, hs, hlo, by omega⟩

/-- A place inside a program that ends below `top` is below `top`. -/
theorem Inside.lt {line : Option Nat} (h : l.Inside top line pos) (ht : extent l.lines < top) :
    pos < top ∧ line.all (· < top) := by
  cases line with
  | none => exact ⟨h.2, rfl⟩
  | some address =>
    obtain ⟨line, hs, -, hhi⟩ := h
    have := hs.end_le
    refine ⟨by omega, decide_eq_true ?_⟩
    show address < top
    omega

end Listing

namespace Memory

def Marked (m : Memory) : Prop :=
  m.ram[m.variablesBegin - 1]? = some Byte.marker

structure Sane (m : Memory) (l : Listing) (frames : List Frame) :
    Prop extends Sound m l frames where
  resumes : ∀ frame ∈ frames, l.Resumes m.variablesBegin frame.line frame.pos

structure Executing (m : Memory) (l : Listing) (frames : List Frame) :
    Prop extends Sane m l frames where
  marked : m.Marked

variable {m : Memory} {l : Listing} {frames : List Frame}

theorem Sound.extent_lt (h : m.Sound l frames) : extent l.lines < m.variablesBegin := by
  have := h.layout.reserve
  have := h.holds.programEnd_eq
  omega

theorem Sound.variablesBegin_lt (h : m.Sound l frames) : m.variablesBegin < 65535 := by
  have := h.layout.variables_le_size
  have := h.layout.size_le
  omega

theorem Sound.plain (h : m.Sound l frames) {frame : Frame}
    (hf : l.Inside m.variablesBegin frame.line frame.pos) : frame.Plain := by
  obtain ⟨hpos, hline⟩ := hf.lt h.extent_lt
  have hv := h.variablesBegin_lt
  refine ⟨?_, by omega⟩
  cases hl : frame.line with
  | none => rfl
  | some address =>
    rw [hl] at hline
    have : address < m.variablesBegin := of_decide_eq_true hline
    exact decide_eq_true (by omega)

theorem Sound.savable (h : m.Sound l frames) {frame : Frame}
    (hf : l.Inside m.variablesBegin frame.line frame.pos) : frame.Savable :=
  (h.plain hf).savable

/-- From a place inside a line to the end of that line all places are inside it. -/
theorem Executing.inside_of_le {line : Option Nat} {pos pos' : Nat} (h : m.Executing l frames)
    (hi : l.Inside m.variablesBegin line pos) (hle : pos ≤ pos')
      (hend : pos' ≤ endOfLine m.ram pos) :
    l.Inside m.variablesBegin line pos' := by
  cases line with
  | none =>
    obtain ⟨hlo, hhi⟩ := hi
    have hmarker : m.ram.getD (m.variablesBegin - 1) Byte.marker = Byte.marker := by
      rw [Array.getD_eq_getD_getElem?, show m.ram[m.variablesBegin - 1]? = _ from h.marked]
      rfl
    have := endOfLine_le (show pos ≤ m.variablesBegin - 1 by omega) hmarker
    exact ⟨by omega, by omega⟩
  | some address =>
    obtain ⟨line, hs, hlo, hhi⟩ := hi
    have hat : LineAt m l line address := ⟨hs, h.holds, h.layout⟩
    have hmarker : m.ram.getD (address + 3 + line.text.length) Byte.marker = Byte.marker := by
      rw [Array.getD_eq_getD_getElem?, hat.parts.2.2.2]
      rfl
    have := endOfLine_le hhi hmarker
    exact ⟨line, hs, by omega, by omega⟩

end Memory

namespace Interpreter

def withMemory (i : Interpreter) (m : Memory) : Interpreter :=
  { i with memory := m }

/-- The text at the current position. -/
def cursor (i : Interpreter) : Cursor := ⟨i.memory.ram, i.textPos⟩

structure Running (i : Interpreter) (l : Listing) (frames : List Frame) : Prop extends
    Memory.Executing i.memory l frames where
  inside : l.Inside i.memory.variablesBegin i.currentLine i.textPos

variable {l : Listing} {frames : List Frame} {i j k : Interpreter}

def AtEnd (i : Interpreter) : Prop :=
  i.cursor.atEndOfStatement = true

/-- At the end of a statement a frame may save the place. -/
theorem Running.resumes_self (h : i.Running l frames) (he : i.AtEnd) :
    l.Resumes i.memory.variablesBegin i.currentLine i.textPos := by
  have hi := h.inside
  cases hl : i.currentLine with
  | none =>
    rw [hl] at hi
    exact hi
  | some address =>
    rw [hl] at hi
    obtain ⟨line, hs, hlo, hhi⟩ := hi
    have hat : Memory.LineAt i.memory l line address := ⟨hs, h.holds, h.layout⟩
    refine ⟨line, hs, hlo, ?_⟩
    by_cases hend : i.textPos = address + 3 + line.text.length
    · exact Or.inl hend
    · have hlt : i.textPos - (address + 3) < line.text.length := by omega
      have hbyte := hat.parts.2.2.1 _ hlt
      rw [show address + 3 + (i.textPos - (address + 3)) = i.textPos by omega,
        List.getElem?_eq_getElem hlt] at hbyte
      have hpeek : i.cursor.peek = line.text[i.textPos - (address + 3)] := by
        show i.memory.ram.getD i.textPos Byte.marker = _
        rw [Array.getD_eq_getD_getElem?, hbyte]
        rfl
      have hne : line.text[i.textPos - (address + 3)] ≠ Byte.marker := fun hm =>
        hat.storable.marker_notMem (hm ▸ List.getElem_mem hlt)
      refine Or.inr ?_
      have he' : (decide (i.cursor.peek = Byte.marker) || decide (i.cursor.peek = byte ':')) =
          true := he
      rw [hpeek] at he'
      rw [List.getElem?_eq_getElem hlt]
      simpa [hne] using he'

structure ReadOn (i j : Interpreter) : Prop where
  memory_eq : j.memory = i.memory
  currentLine_eq : j.currentLine = i.currentLine
  directText_eq : j.directText = i.directText
  echo_eq : j.echo = i.echo
  le : i.textPos ≤ j.textPos
  le_end : j.textPos ≤ endOfLine i.memory.ram i.textPos

namespace ReadOn

theorem refl (i : Interpreter) : i.ReadOn i :=
  ⟨rfl, rfl, rfl, rfl, Nat.le_refl _, le_endOfLine _ _⟩

theorem trans (h : i.ReadOn j) (h' : j.ReadOn k) : i.ReadOn k := by
  refine ⟨h'.memory_eq.trans h.memory_eq, h'.currentLine_eq.trans h.currentLine_eq,
    h'.directText_eq.trans h.directText_eq, h'.echo_eq.trans h.echo_eq, Nat.le_trans h.le h'.le, ?_⟩
  have := h'.le_end
  rwa [h.memory_eq, endOfLine_eq_of_le h.le h.le_end] at this

theorem of_within {c : Cursor} (h : i.cursor.Within c) (generator : Generator) :
    i.ReadOn { i with textPos := c.pos, generator } :=
  ⟨rfl, rfl, rfl, rfl, h.le, h.le_end⟩

theorem within (h : i.ReadOn j) : i.cursor.Within j.cursor :=
  ⟨congrArg (·.ram) h.memory_eq, h.le, h.le_end⟩

theorem running (h : i.ReadOn j) (hi : i.Running l frames) : j.Running l frames := by
  refine ⟨h.memory_eq ▸ hi.toExecuting, ?_⟩
  rw [h.memory_eq, h.currentLine_eq]
  exact hi.inside_of_le hi.inside h.le h.le_end

end ReadOn
end Interpreter
end LineBasic
