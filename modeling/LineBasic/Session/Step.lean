import LineBasic.Session.Statement

namespace LineBasic.Session
variable {σ : Type}

def banner : List UInt8 :=
  ascii "TinyBasic Plus v1.0.0"

/-- Past the colons and blanks after a statement. -/
def proceed : Act σ Phase := do
  let c ← cursor
  let c := (c.moveTo (c.rest.dropWhile (· = byte ':'))).skipBlanks
  goTo c
  return if c.atEndOfLine then .nextLine else .poll

def nextLine : Act σ Phase := do
  match ← look (·.currentLine) with
  | none => return .prompt
  | some address =>
    let next ← lookIn (·.nextLine address)
    change fun i => { i with currentLine := some next }
    return .line

/-- The start of the current line; past the last line the program has ended. -/
def line : Act σ Phase := do
  match ← look (·.currentLine) with
  | none => return .restart
  | some address =>
    if address < (← look (·.memory.programEnd)) then
      change fun i => { i with textPos := Memory.textStart address }
      return .poll
    else return .restart

variable [Host σ]

def greet : Act σ Phase := do
  reset
  printLine banner
  printFree
  return .restart

def restart : Act σ Phase := do
  dropPending
  printLine (ascii "OK")
  return .prompt

def interrupted : Act σ Bool := do
  if ← pending then return (← readByte) = Byte.interrupt
  else return false

def poll : Act σ Phase := do
  if ← interrupted then
    printLine (ascii "break!")
    return .restart
  else return .execute

def execute : Act σ Phase := do
  match ← attempt statement with
  | .ok phase => return phase
  | .error e => report e

/-- A step reads at most one byte or one break answer, so that a run of any length is a sequence of
steps that each end. -/
def step : Phase → Act σ Phase
  | .cold => greet
  | .restart => restart
  | .prompt => do
    change fun i => { i with directText := none }
    return .ask .command
  | .direct => return if (← cursor).atEndOfLine then .prompt else .poll
  | .line => line
  | .poll => poll
  | .execute => execute
  | .proceed => proceed
  | .nextLine => nextLine
  | .ask purpose => ask purpose
  | .edit purpose pos => typeByte purpose pos
  | .bye => return .bye

/-- Takes steps until the session comes to rest, or until none is left to take. -/
def drive (atRest : Phase → Bool) : Nat → Phase → Act σ Phase
  | 0, phase, s => .ok phase s
  | steps + 1, phase, s =>
    if atRest phase then .ok phase s
    else
      match step phase s with
      | .ok phase s => drive atRest steps phase s
      | .error h s => .error h s

/-- Takes one line as if it had been typed at the prompt. What has no room is cut off. -/
def submit (line : List UInt8) : Act σ Phase := do
  change fun i => { i with directText := none }
  let room := (← entryLimit) - (← look (·.memory.entryStart))
  let line := line.takeWhile fun b => b != Byte.carriageReturn && b != Byte.marker
  onMemory (Memory.placeEntry (line.take room))
  accept

/-- Submits one line and runs what it starts until another line is wanted. -/
def enter (steps : Nat) (line : List UInt8) : Act σ Phase := do
  drive Phase.awaitsCommand steps (← submit line)

/-- Greets and serves the prompt until the session is over. -/
def serve (steps : Nat) : Act σ Phase :=
  drive (· = .bye) steps .cold

end LineBasic.Session
