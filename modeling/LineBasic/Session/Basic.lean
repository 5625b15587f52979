import LineBasic.Host.Basic
import LineBasic.Journal
import LineBasic.Memory.Lines
import LineBasic.Random.Keystream

namespace LineBasic

/-- How an interpreter is set up. -/
structure Settings where
  /-- The size of the buffer in bytes. -/
  ramSize : UInt64 := 19456
  /-- The room for control, counted in loops. -/
  stackFrames : UInt64 := 5
  /-- Whether typed bytes are written back. -/
  echo : Bool := true
  /-- Where random numbers come from. -/
  random : Randomness := Keystream.randomness

/-- The buffer and the registers. -/
structure Interpreter where
  memory : Memory
  /-- The address of the line being executed, none in direct mode. -/
  currentLine : Option Nat
  /-- Where the text of the program is read next. -/
  textPos : Nat
  /-- Where the direct line being executed begins; replies must not be typed over it. -/
  directText : Option Nat
  generator : Generator
  echo : Bool

def Interpreter.over (memory : Memory) (settings : Settings) : Interpreter :=
  { memory
    currentLine := none
    textPos := 0
    directText := none
    generator := Generator.ofSeed settings.random 0
    echo := settings.echo }

/-- An interpreter with an empty program. -/
def Interpreter.create (settings : Settings) : Interpreter :=
  Interpreter.over (Memory.create settings.ramSize settings.stackFrames) settings

structure Session (σ : Type) where
  interpreter : Interpreter
  host : σ
  journal : Journal

/-- Something that happens in a session, which may stop short and then keeps what it did. -/
abbrev Act (σ : Type) := EStateM Halt (Session σ)

namespace Session
variable {σ α : Type}

def onMemory (update : Update α) : Act σ α :=
  fun ⟨⟨memory, currentLine, textPos, directText, generator, echo⟩, host, journal⟩ =>
    match update memory with
    | .ok a memory =>
      .ok a ⟨⟨memory, currentLine, textPos, directText, generator, echo⟩, host, journal⟩
    | .error h memory =>
      .error h ⟨⟨memory, currentLine, textPos, directText, generator, echo⟩, host, journal⟩

def look (f : Interpreter → α) : Act σ α :=
  fun s => .ok (f s.interpreter) s

def lookIn (f : Memory → Except Fault α) : Act σ α :=
  onMemory (Memory.reading f)

def change (f : Interpreter → Interpreter) : Act σ Unit :=
  fun ⟨interpreter, host, journal⟩ => .ok () ⟨f interpreter, host, journal⟩

def onHost (operation : EStateM IoError σ α) : Act σ α :=
  fun ⟨interpreter, host, journal⟩ =>
    match operation host with
    | .ok a host => .ok a ⟨interpreter, host, journal⟩
    | .error e host => .error (.io e) ⟨interpreter, host, journal⟩

def note (entry : Journal.Entry) : Act σ Unit :=
  fun ⟨interpreter, host, journal⟩ => .ok () ⟨interpreter, host, journal.note entry⟩

def tally (peeks : Nat) : Act σ Unit :=
  fun ⟨interpreter, host, journal⟩ => .ok () ⟨interpreter, host, journal.tally peeks⟩

def fail (e : Error) : Act σ α :=
  throw (.error e)

def attempt (act : Act σ α) : Act σ (Except Error α) := fun s =>
  match act s with
  | .ok a s => .ok (.ok a) s
  | .error (.error e) s => .ok (.error e) s
  | .error h s => .error h s

def dropPending : Act σ Unit := do
  change fun i => { i with currentLine := none, directText := none }
  onMemory Memory.clearStack

def reset : Act σ Unit := do
  note (.coldStart (← look (·.memory.size)))
  onMemory Memory.clear
  change fun i => { i with generator := i.generator.reseed 0 }
  dropPending

def opened (interpreter : Interpreter) (host : σ) (threshold : Option Severity) : Session σ :=
  let journal : Journal := { threshold }
  { interpreter, host, journal := journal.note (.coldStart interpreter.memory.size) }

def start (settings : Settings) (host : σ) (threshold : Option Severity) : Session σ :=
  opened (Interpreter.create settings) host threshold

/-- A session as a build starts it, which may not let the room for frames pass 64 bits. -/
def launch (overflow : Overflow) (settings : Settings) (host : σ) (threshold : Option Severity) :
    Except Fault (Session σ) := do
  let memory ← Memory.allocate overflow settings.ramSize settings.stackFrames
  return opened (Interpreter.over memory settings) host threshold

/-- The text at the current position. -/
def cursor : Act σ Cursor :=
  look fun i => ⟨i.memory.ram, i.textPos⟩

def goTo (c : Cursor) : Act σ Unit :=
  change fun i => { i with textPos := c.pos }

variable [Host σ]

def readByte : Act σ UInt8 :=
  onHost Host.read

def pending : Act σ Bool :=
  onHost Host.poll

def writeByte (b : UInt8) : Act σ Unit :=
  onHost (Host.write b)

/-- Writes byte by byte and stops at the first that fails. -/
def print : List UInt8 → Act σ Unit
  | [] => return
  | b :: rest => do
    writeByte b
    print rest

def newline : Act σ Unit :=
  writeByte Byte.marker

def printLine (line : List UInt8) : Act σ Unit := do
  print line
  newline

def printFree : Act σ Unit := do
  print (Decimal.digits (← lookIn (·.free)))
  printLine (ascii " bytes free.")

end Session
end LineBasic
