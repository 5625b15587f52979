import LineBasic.Line
import LineBasic.Memory.Basic

namespace LineBasic.Memory

/-- The bytes of a record before its text. -/
def lineHeader : Nat := 3

def entryReserve : Nat := entryHeadroom + 2

def maxRecordLength : Nat := 255

def textStart (address : Nat) : Nat :=
  address + lineHeader

def lineNumberAt (m : Memory) (address : Nat) : Except Fault UInt16 :=
  m.readWord address

def recordLengthAt (m : Memory) (address : Nat) : Except Fault Nat := do
  return (← m.readByte (address + 2)).toNat

def recordAt (m : Memory) (address : Nat) : Except Fault (Option Nat) :=
  if m.programEnd ≤ address + lineHeader then .ok none
  else do
    let length ← m.recordLengthAt address
    if length < lineHeader + 1 ∨ m.programEnd < address + length then return none
    else return some length

/-- The length of the record at an address if it has this number, and 0 if it has not. -/
def lengthOfLine (m : Memory) (number : UInt16) (address : Nat) : Except Fault Nat :=
  if address = m.programEnd then .ok 0
  else do
    if (← m.lineNumberAt address) = number then m.recordLengthAt address else return 0

/-- The address after the record, or the end of the program where no record begins. -/
def nextLine (m : Memory) (address : Nat) : Except Fault Nat := do
  match ← m.recordAt address with
  | some length => return address + length
  | none => return m.programEnd

def findLineFrom (m : Memory) (number : UInt16) : Nat → Nat → Except Fault Nat
  | 0, _ => .ok m.programEnd
  | looks + 1, address =>
    if address < m.programEnd then do
      if number ≤ (← m.lineNumberAt address) then return address
      else m.findLineFrom number looks (← m.nextLine address)
    else .ok m.programEnd

/-- The address of the first line with this number or a larger one, or the end of the program
if there is none. -/
def findLine (m : Memory) (number : UInt16) : Except Fault Nat :=
  m.findLineFrom number m.programEnd 0

def lineAt (m : Memory) (address : Nat) : Except Fault (Option Line) := do
  match ← m.recordAt address with
  | none => return none
  | some length =>
    let number ← m.lineNumberAt address
    let text ← m.slice (textStart address) (address + length - 1)
    return some { number, text }

def linesAt (m : Memory) : Nat → Nat → Except Fault (List Line)
  | 0, _ => .ok []
  | looks + 1, address => do
    match ← m.lineAt address with
    | none => return []
    | some line => return line :: (← m.linesAt looks (← m.nextLine address))

def linesFrom (m : Memory) (number : UInt16) : Except Fault (List Line) := do
  m.linesAt m.programEnd (← m.findLine number)

def lines (m : Memory) : Except Fault (List Line) :=
  m.linesFrom 0

structure Edit where
  /-- A line of that number was there and has gone. -/
  removed : Bool
  /-- The length of the new record, if there is one. -/
  stored : Option Nat
  deriving DecidableEq, Repr

/-- Opens a hole at `hole` for the record at `record`, and moves the record there. The gap
between the program and the record may be smaller than the record, so each round moves as much
of the record as the gap holds, after making room for it by moving what follows. -/
def openHole : Nat → Nat → Nat → Nat → Update Unit
  | 0, _, _, _ => return
  | rounds + 1, remaining, record, hole => do
    if remaining = 0 then return
    let programEnd := (← get).programEnd
    let gap ← reading fun _ => difference record programEnd
    let space := min gap remaining
    move hole programEnd (hole + space)
    move record (record + space) hole
    modify fun m => { m with programEnd := programEnd + space }
    openHole rounds (remaining - space) (record + space) (hole + space)

def dropRecord (hole length : Nat) : Update Unit := do
  if 0 < length then
    let programEnd := (← get).programEnd
    move (hole + length) programEnd hole
    modify fun m => { m with programEnd := programEnd - length }

def placeRecord (number : UInt16) (record length hole : Nat) : Update Unit := do
  write record (wordBytes number ++ [UInt8.ofNat length])
  openHole length length record hole

/-- Carries out an edit that has passed its checks. Frames hold line addresses, so none is kept once
lines have moved. -/
def applyEdit (number : UInt16) (record length hole existing : Nat) (deletes : Bool) :
    Update Edit := do
  dropRecord hole existing
  if 0 < existing || !deletes then
    clearStack
  if deletes then
    return { removed := 0 < existing, stored := none }
  placeRecord number record length hole
  return { removed := 0 < existing, stored := some length }

/-- Merges a line into the program. Its text begins at `body` and ends with the marker just below
the variables; the header is written before it. A line without text deletes. -/
def insertStaged (number : UInt16) (body : Nat) : Update Edit := do
  let programEnd := (← get).programEnd
  let variablesBegin := (← get).variablesBegin
  if body < programEnd + lineHeader + 1 then
    throw (.error (.exhausted .noRoomForHeader))
  let record := body - lineHeader
  let length ← reading fun _ => difference variablesBegin record
  if maxRecordLength < length then
    throw (.error (.exhausted .lineTooLong))
  let hole ← reading (·.findLine number)
  let existing ← reading (·.lengthOfLine number hole)
  let deletes := (← reading (·.readByte body)) = Byte.marker
  let kept ← reading fun _ => difference programEnd existing
  if variablesBegin < kept + (if deletes then 0 else length) + entryReserve then
    throw (.error (.exhausted .programAreaFull))
  applyEdit number record length hole existing deletes

/-- Stores a text under a number in place of any line of that number; an empty text deletes. -/
def upsert (number : UInt16) (text : List UInt8) : Update Edit := do
  if number = 0 ∨ number = 65535 then
    throw (.error (.impossible 0 .invalidLineNumber))
  if text.contains Byte.marker then
    throw (.error (.malformed 0 .markerInText))
  let length := lineHeader + text.length + 1
  if maxRecordLength < length ∨ (← reading free) < length + entryReserve then
    throw (.error (.exhausted .lineDoesNotFit))
  let variablesBegin := (← get).variablesBegin
  let body ← reading fun _ => difference variablesBegin (text.length + 1)
  write body text
  write (← reading fun _ => difference variablesBegin 1) [Byte.marker]
  insertStaged number body

end LineBasic.Memory
