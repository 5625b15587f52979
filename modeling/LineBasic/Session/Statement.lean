import LineBasic.Memory.Frames
import LineBasic.Session.Entry

namespace LineBasic.Session
variable {σ : Type}

def expression : Act σ Int16 := do
  match ← evaluate with
  | .ok x => return x
  | .error e => fail e

def target : Act σ Int16 := do
  match ← evaluate with
  | .ok x => return x
  | .error e => fail (e.recategorize .impossible)

def readVariable : Act σ Variable := do
  let c := (← cursor).skipBlanks
  match c.letter? with
  | some v =>
    goTo c.advance.skipBlanks
    return v
  | none => fail (.malformed c.pos .expectedVariable)

def expect (b : UInt8) (missing : Diagnostic) : Act σ Unit := do
  match (← cursor).expect b with
  | (true, c) => goTo c
  | (false, c) => fail (.malformed c.pos missing)

def endOfStatement : Act σ (Except Error Unit) := do
  let c := (← cursor).skipBlanks
  goTo c
  return if c.atEndOfStatement then .ok () else .error (.malformed c.pos .expectedEndOfStatement)

def expectEndOfStatement : Act σ Unit := do
  if let .error e ← endOfStatement then fail e

def expectEndOfLine : Act σ Unit := do
  let c := (← cursor).skipBlanks
  goTo c
  unless c.atEndOfLine do fail (.malformed c.pos .expectedEndOfLine)

def assign : Act σ Phase := do
  let v ← readVariable
  expect (byte '=') .expectedEquals
  let x ← expression
  expectEndOfStatement
  onMemory (Memory.store v x)
  return .proceed

def newProgram : Act σ Phase := do
  expectEndOfLine
  onMemory Memory.clearProgram
  onMemory Memory.clearStack
  return .prompt

def run : Act σ Phase := do
  onMemory Memory.clearStack
  change fun i => { i with currentLine := some 0 }
  return .line

def finish : Act σ Phase := do
  expectEndOfLine
  change fun i => { i with currentLine := some i.memory.programEnd }
  return .line

def branch : Act σ Phase := do
  let x ← target
  let c ← cursor
  if c.atEndOfLine then fail (.impossible c.pos .nothingToDo)
  return if x = 0 then .nextLine else .proceed

def destination : Act σ UInt16 := do
  let x ← target
  if let .error e ← endOfStatement then fail (e.recategorize .impossible)
  return x.toUInt16

def jump (number : UInt16) : Act σ Phase := do
  let address ← lookIn (·.findLine number)
  change fun i => { i with currentLine := some address }
  return .line

def goto : Act σ Phase := do
  jump (← destination)

def pushFrame (frame : Frame) : Act σ Unit := do
  onMemory (Memory.pushFrame frame)
  note (.pushed frame)

def notePopped (frame : Option Frame) : Act σ Unit := do
  if let some frame := frame then note (.popped frame)

/-- Goes on at a saved place. -/
def resume (line : Option Nat) (pos : Nat) : Act σ Unit :=
  change fun i => { i with currentLine := line, textPos := pos }

def gosub : Act σ Phase := do
  let number ← destination
  pushFrame (← look fun i => .gosub i.currentLine i.textPos)
  jump number

def goBack : Act σ Phase := do
  match ← look (·.memory.findGosub) with
  | some (address, .gosub line pos) =>
    notePopped (← onMemory (Memory.removeFrame address))
    resume line pos
    return .proceed
  | _ => fail (.impossible (← look (·.textPos)) .nothingToReturnTo)

def loopStep : Act σ Int16 := do
  match (← cursor).token LoopStep.vocabulary with
  | (some .stepBy, c) =>
    goTo c
    expression
  | (none, _) => return 1

def loop : Act σ Phase := do
  let v ← readVariable
  expect (byte '=') .expectedEquals
  let initial ← expression
  match (← cursor).token LoopBound.vocabulary with
  | (some .upTo, c) => goTo c
  | (none, c) => fail (.malformed c.pos .expectedUpTo)
  let terminal ← expression
  let step ← loopStep
  expectEndOfStatement
  pushFrame (← look fun i => .loop v terminal step i.currentLine i.textPos)
  onMemory (Memory.store v initial)
  return .proceed

def loopVariable : Act σ (Option Variable) := do
  if (← cursor).skipBlanks.atEndOfStatement then return none
  else return some (← readVariable)

def repeats (step x terminal : Int16) : Bool :=
  (0 < step && x ≤ terminal) || (step < 0 && terminal ≤ x)

def next : Act σ Phase := do
  let v ← loopVariable
  expectEndOfStatement
  match ← look (·.memory.findLoop v) with
  | some (address, .loop counter terminal step line pos) =>
    let x := (← lookIn (·.fetch counter)) + step
    onMemory (Memory.store counter x)
    if repeats step x terminal then
      onMemory (Memory.unwindTo address)
      resume line pos
    else
      notePopped (← onMemory (Memory.unwindPast address))
    return .proceed
  | _ => fail (.impossible (← look (·.textPos)) .nothingToRepeat)

def input : Act σ Phase := do
  let v ← readVariable
  expectEndOfStatement
  return .ask (.reply v (← look (·.textPos)))

def poke : Act σ Phase := do
  let address ← expression
  expect (byte ',') .expectedComma
  let value ← expression
  expectEndOfStatement
  note (.pokeIgnored address value)
  return .proceed

def reseed : Act σ Phase := do
  let seed ← expression
  expectEndOfStatement
  note (.reseeded seed)
  change fun i => { i with generator := i.generator.reseed seed.toInt64.toUInt64 }
  return .proceed

variable [Host σ]

def printLines : List Line → Act σ Unit
  | [] => return
  | line :: rest => do
    printLine line.display
    printLines rest

def list : Act σ Phase := do
  let (number, c) := (← cursor).lineNumber
  goTo c
  expectEndOfLine
  printLines (← lookIn (·.linesFrom number))
  return .restart

def printItem : Act σ Unit := do
  let c := (← cursor).skipBlanks
  match c.quoted? with
  | some (literal, after) =>
    print literal
    goTo after.skipBlanks
  | none =>
    if Byte.isQuote c.peek then fail (.malformed c.pos .unterminatedString)
    goTo c
    let x ← expression
    print (Decimal.signed x.toInt)

/-- The items of a print list. Items joined by a semicolon leave the line open. Each item but the
last is followed by a separator, so there are no more of them than bytes in the line. -/
def printItems : Nat → Bool → Act σ Phase
  | 0, _ => return .proceed
  | items + 1, joined => do
    printItem
    let c := (← cursor).skipBlanks
    if c.peek = byte ',' then
      goTo c.advance
      printItems items joined
    else if c.peek = byte ';' then
      let c := c.advance.skipBlanks
      goTo c
      if c.atEndOfStatement then return .proceed
      printItems items true
    else if c.atEndOfStatement then
      goTo c
      unless joined do newline
      return .proceed
    else fail (.malformed c.pos .expectedSeparator)

def printList : Act σ Phase := do
  let c := (← cursor).skipBlanks
  if c.peek = byte ':' then
    goTo c.advance
    newline
    return .proceed
  else if c.atEndOfLine then
    newline
    return .nextLine
  else printItems (c.rest.length + 1) false

def printMemory : Act σ Phase := do
  printFree
  return .proceed

/-- What a statement with this keyword does with the text behind it. -/
def dispatch : Option Keyword → Act σ Phase
  | none | some .assign => assign
  | some .list => list
  | some .load | some .save | some .remark | some .remarkSign => return .nextLine
  | some .new => newProgram
  | some .run => run
  | some .next => next
  | some .branch => branch
  | some .goto => goto
  | some .gosub => gosub
  | some .goBack => goBack
  | some .loop => loop
  | some .input => input
  | some .print | some .printSign => printList
  | some .poke => poke
  | some .stop | some .finish => finish
  | some .bye => return .bye
  | some .mem => printMemory
  | some .reseed => reseed

def statement : Act σ Phase := do
  let (word, c) := (← cursor).token Keyword.vocabulary
  goTo c
  note (.statement word c.pos)
  dispatch word

end LineBasic.Session
