import LineBasic.Expr.Reading
import LineBasic.Session.Basic
import LineBasic.Session.Phase

namespace LineBasic.Session
variable {σ : Type}

/-- The longest line that can be typed. With a line number of one digit it still makes a record
whose length fits one byte. -/
def maxEntryLength : Nat := 252

def entryLimit : Act σ Nat := do
  let start ← look (·.memory.entryStart)
  let limit := min (← lookIn (·.entryLimit)) (start + maxEntryLength)
  match ← look (·.directText) with
  | none => return limit
  | some direct => return min limit (direct - 1)

/-- Evaluates the expression at the current position and goes on after it, whether or not it
fails. -/
def evaluate : Act σ (Except Error Int16) := do
  let (expr, after) := (← cursor).expression
  let surroundings ← lookIn (·.surroundings)
  tally expr.peeks
  let (result, generator) := expr.evaluate surroundings (← look (·.generator))
  change fun i => { i with generator, textPos := after.pos }
  match result with
  | .ok x => return .ok x
  | .error why => return .error (.malformed after.pos why)

variable [Host σ]

/-- Reports a failure. One in a stored line shows the line with a mark where it surfaced. -/
def report (e : Error) : Act σ Phase := do
  let current ← look (·.currentLine)
  note (.reported e current)
  match e.category with
  | .malformed =>
    print (ascii e.category.reply)
    writeByte Byte.blank
    if let some address := current then
      if let some line ← lookIn (·.lineAt address) then
        print (Decimal.digits line.number.toNat)
        writeByte Byte.blank
        print (line.text.mapIdx fun i b =>
          if Memory.textStart address + i = e.column then byte '^' else b)
    newline
    change fun i => { i with currentLine := none }
    return .prompt
  | .impossible =>
    printLine (ascii e.category.reply)
    change fun i => { i with currentLine := none }
    return .prompt
  | .exhausted =>
    printLine (ascii e.category.reply)
    return .restart

def storeLine (number : UInt16) (body : Nat) : Act σ Unit := do
  let edit ← onMemory (Memory.insertStaged number body)
  if edit.removed then note (.removed number)
  if let some length := edit.stored then note (.stored number length)

/-- Takes the line that has been typed: stores it if it is numbered, and otherwise gets ready to
execute it. -/
def accept : Act σ Phase := do
  let start ← look (·.memory.entryStart)
  onMemory (Memory.foldCase start)
  let staged ← onMemory (Memory.stage start)
  let ram ← look (·.memory.ram)
  let (number, c) := Cursor.lineNumber ⟨ram, staged⟩
  let body := c.skipBlanks.pos
  change fun i => { i with currentLine := none }
  if number = 0 then
    change fun i => { i with textPos := body, directText := some staged }
    return .direct
  else if number = 65535 then
    report (.impossible body .invalidLineNumber)
  else
    match ← attempt (storeLine number body) with
    | .ok () => return .prompt
    | .error e => report e

def takeReply (v : Variable) (resume : Nat) : Act σ Phase := do
  let start ← look (·.memory.entryStart)
  onMemory (Memory.foldCase start)
  change fun i => { i with textPos := start }
  match ← evaluate with
  | .ok x =>
    onMemory (Memory.store v x)
    change fun i => { i with textPos := resume }
    return .proceed
  | .error e =>
    note (.replyRejected e)
    return .ask (.reply v resume)

def ask (purpose : Purpose) : Act σ Phase := do
  writeByte purpose.sign
  return .edit purpose (← look (·.memory.entryStart))

/-- Takes one typed byte. A return or a marker ends the line, a backspace erases the byte before
it, other control bytes do nothing, and what has no room sounds the bell. -/
def typeByte (purpose : Purpose) (pos : Nat) : Act σ Phase := do
  let start ← look (·.memory.entryStart)
  let limit ← entryLimit
  let echo ← look (·.echo)
  let b ← readByte
  if b = Byte.carriageReturn ∨ b = Byte.marker then
    if echo then newline
    onMemory (Memory.write pos [Byte.marker])
    match purpose with
    | .command => accept
    | .reply v resume => takeReply v resume
  else if b = Byte.backspace ∨ b = Byte.delete then
    if start < pos then
      if echo then print [Byte.backspace, Byte.blank, Byte.backspace]
      return .edit purpose (pos - 1)
    else return .edit purpose pos
  else if b < Byte.blank ∧ b ≠ Byte.tab then
    return .edit purpose pos
  else if limit ≤ pos then
    writeByte Byte.bell
    return .edit purpose pos
  else
    onMemory (Memory.write pos [b])
    if echo then writeByte b
    return .edit purpose (pos + 1)

end LineBasic.Session
