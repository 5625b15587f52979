import LineBasic.Cursor
import LineBasic.Error
import LineBasic.Expr.Basic
import LineBasic.Memory.Word
import LineBasic.Text.Case

namespace LineBasic

/-- The buffer. From its start it holds the line records, up to `programEnd`; a gap, where typed
lines are edited; the variables, from `variablesBegin` up to `stackLimit`; and the control stack,
which grows down from the end of the buffer to `stackTop`. -/
structure Memory where
  ram : Array UInt8
  programEnd : Nat
  variablesBegin : Nat
  stackLimit : Nat
  stackTop : Nat

abbrev Update := EStateM Halt Memory

namespace Memory

def minSize : Nat := 1024

def maxSize : Nat := 65534

/-- The bytes of a loop frame, the larger kind. -/
def loopFrameSize : Nat := 10

/-- An empty buffer of a size within bounds. The room for frames takes half of it at most. -/
def layOut (ramSize room : UInt64) : Memory :=
  let size := min (max ramSize.toNat minSize) maxSize
  let stackLimit := size - min room.toNat (size / 2)
  { ram := Array.replicate size 0
    programEnd := 0
    variablesBegin := stackLimit - 2 * Variable.count
    stackLimit
    stackTop := size }

/-- An empty buffer with room for a number of loop frames, reckoned in 64 bits. -/
def create (ramSize stackFrames : UInt64) : Memory :=
  layOut ramSize (max stackFrames 1 * 10)

def product (overflow : Overflow) (a b : UInt64) : Except Fault UInt64 :=
  if overflow = .caught ∧ UInt64.size ≤ a.toNat * b.toNat then .error
    ⟨a.toNat * b.toNat, UInt64.size⟩
  else .ok (a * b)

/-- An empty buffer as a build sets it up, which may not let the room pass 64 bits. -/
def allocate (overflow : Overflow) (ramSize stackFrames : UInt64) : Except Fault Memory := do
  return layOut ramSize (← product overflow (max stackFrames 1) 10)

def size (m : Memory) : Nat := m.ram.size

def isEmpty (m : Memory) : Bool := m.programEnd = 0

def difference (a b : Nat) : Except Fault Nat :=
  if b ≤ a then .ok (a - b) else .error ⟨b, a⟩

def readByte (m : Memory) (address : Nat) : Except Fault UInt8 :=
  match m.ram[address]? with
  | some b => .ok b
  | none => .error ⟨address, m.size⟩

def readWord (m : Memory) (address : Nat) : Except Fault UInt16 := do
  return word (← m.readByte address) (← m.readByte (address + 1))

def slice (m : Memory) (first last : Nat) : Except Fault (List UInt8) :=
  if first ≤ last ∧ last ≤ m.size then .ok (m.ram.extract first last).toList
  else .error ⟨last, m.size⟩

def overwrite (ram : Array UInt8) (start : Nat) : List UInt8 → Array UInt8
  | [] => ram
  | b :: rest => overwrite (ram.setIfInBounds start b) (start + 1) rest

theorem size_overwrite (ram : Array UInt8) (start : Nat) (bytes : List UInt8) :
    (overwrite ram start bytes).size = ram.size := by
  induction bytes generalizing ram start with
  | nil => rfl
  | cons b rest ih => simp [overwrite, ih]

theorem getElem?_overwrite (ram : Array UInt8) (start : Nat) (bytes : List UInt8) (i : Nat)
    (h : start + bytes.length ≤ ram.size) :
    (overwrite ram start bytes)[i]? =
      if start ≤ i ∧ i < start + bytes.length then bytes[i - start]? else ram[i]? := by
  -- The first byte goes to `start` and the rest behind it: later writes never touch an earlier one.
  induction bytes generalizing ram start with
  | nil => rw [if_neg (by simp only [List.length_nil]; omega)]; rfl
  | cons b rest ih =>
    rw [List.length_cons] at h
    rw [overwrite, ih _ _ (by rw [Array.size_setIfInBounds]; omega), List.length_cons]
    by_cases hi : i = start
    · subst hi
      rw [if_neg (by omega), if_pos (by omega), Nat.sub_self,
        Array.getElem?_setIfInBounds_self_of_lt]
      · rfl
      · omega
    · rw [Array.getElem?_setIfInBounds_ne (Ne.symm hi)]
      by_cases hr : start + 1 ≤ i ∧ i < start + 1 + rest.length
      · rw [if_pos hr, if_pos (by omega), show i - start = (i - (start + 1)) + 1 by omega]
        rfl
      · rw [if_neg hr, if_neg (by omega)]

def reading {α : Type} (f : Memory → Except Fault α) : Update α := fun m =>
  match f m with
  | .ok a => .ok a m
  | .error fault => .error (.fault fault) m

def write (start : Nat) (bytes : List UInt8) : Update Unit := fun m =>
  if start + bytes.length ≤ m.size then .ok () { m with ram := overwrite m.ram start bytes }
  else .error (.fault ⟨start + bytes.length, m.size⟩) m

def move (first last target : Nat) : Update Unit := do
  write target (← reading (·.slice first last))

/-- The bytes between the last line and the variables. -/
def free (m : Memory) : Except Fault Nat :=
  difference m.variablesBegin m.programEnd

def surroundings (m : Memory) : Except Fault Surroundings :=
  if m.variablesBegin + 2 * Variable.count ≤ m.size then
    .ok {
      fetch v :=
        let address := m.variablesBegin + 2 * v.index
        (word (m.ram.getD address 0) (m.ram.getD (address + 1) 0)).toInt16
      peek address := if address < 0 then none else m.ram[address.toInt.toNat]? }
  else .error ⟨m.variablesBegin + 2 * Variable.count, m.size⟩

def fetch (m : Memory) (v : Variable) : Except Fault Int16 := do
  return (← m.surroundings).fetch v

def store (v : Variable) (x : Int16) : Update Unit := do
  write ((← get).variablesBegin + 2 * v.index) (wordBytes x.toUInt16)

def clearProgram : Update Unit :=
  modify fun m => { m with programEnd := 0 }

def clearStack : Update Unit :=
  modify fun m => { m with stackTop := m.size }

def clear : Update Unit := do
  clearProgram
  clearStack
  let values ← reading fun m => m.slice m.variablesBegin m.stackLimit
  write (← get).variablesBegin (values.map fun _ => 0)

def entryHeadroom : Nat := 2

def entryStart (m : Memory) : Nat :=
  m.programEnd + entryHeadroom

def entryLimit (m : Memory) : Except Fault Nat :=
  difference m.variablesBegin entryHeadroom

def placeEntry (line : List UInt8) : Update Unit := do
  let start := (← get).entryStart
  discard <| reading fun m => difference m.variablesBegin (start + line.length)
  write start line
  write (start + line.length) [Byte.marker]

def foldCase (start : Nat) : Update Unit := do
  let line ← reading fun m => do
    discard <| difference m.variablesBegin start
    m.slice start (min (endOfLine m.ram start) m.variablesBegin)
  write start (Case.fold line)

/-- Moves the line that begins at `start`, with its marker, up against the variables. Gives
its new start. -/
def stage (start : Nat) : Update Nat := do
  let variablesBegin := (← get).variablesBegin
  let line ← reading fun m => do
    discard <| difference variablesBegin start
    m.slice start (min (endOfLine m.ram start + 1) variablesBegin)
  let target ← reading fun _ => difference variablesBegin line.length
  write target line
  write (← reading fun _ => difference variablesBegin 1) [Byte.marker]
  return target

def describe (m : Memory) : String :=
  "Program \x7b len: " ++ toString m.size ++ ", program_end: " ++ toString m.programEnd ++
    ", variables_begin: " ++ toString m.variablesBegin ++ ", stack_limit: " ++
    toString m.stackLimit ++ ", sp: " ++ toString m.stackTop ++ " \x7d"

end Memory
end LineBasic
