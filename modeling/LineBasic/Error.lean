namespace LineBasic

inductive Category
  /-- The text is malformed. -/
  | malformed
  /-- The text is well formed and cannot be carried out. -/
  | impossible
  /-- The buffer or the control stack has no room left. -/
  | exhausted
  deriving DecidableEq, Repr

def Category.reply : Category → String
  | malformed => "What?"
  | impossible => "How?"
  | exhausted => "Sorry!"

inductive Diagnostic
  | divisionByZero
  | peekOutOfRange
  | randomBelowZero
  | undefinedFunction
  | expectedExpression
  | expectedOpening
  | expectedClosing
  | expectedVariable
  | expectedEquals
  | expectedComma
  | expectedSeparator
  | expectedUpTo
  | expectedEndOfStatement
  | expectedEndOfLine
  | unterminatedString
  | nothingToDo
  | nothingToReturnTo
  | nothingToRepeat
  | stackOverflow
  | invalidLineNumber
  | markerInText
  | lineDoesNotFit
  | noRoomForHeader
  | lineTooLong
  | programAreaFull
  /-- A cause of the caller's own. -/
  | other (text : String)
  deriving DecidableEq, Repr

def Diagnostic.text : Diagnostic → String
  | divisionByZero => "DIVISION BY ZERO"
  | peekOutOfRange => "PEEK OUT OF RANGE"
  | randomBelowZero => "RND OF ZERO"
  | undefinedFunction => "UNDEFINED FUNCTION"
  | expectedExpression => "EXPECTED EXPRESSION"
  | expectedOpening => "EXPECTED ("
  | expectedClosing => "EXPECTED )"
  | expectedVariable => "EXPECTED VARIABLE"
  | expectedEquals => "EXPECTED ="
  | expectedComma => "EXPECTED ,"
  | expectedSeparator => "EXPECTED , OR ;"
  | expectedUpTo => "EXPECTED TO"
  | expectedEndOfStatement => "EXPECTED END OF STATEMENT"
  | expectedEndOfLine => "EXPECTED END OF LINE"
  | unterminatedString => "UNTERMINATED STRING"
  | nothingToDo => "IF WITHOUT STATEMENT"
  | nothingToReturnTo => "RETURN WITHOUT GOSUB"
  | nothingToRepeat => "NEXT WITHOUT FOR"
  | stackOverflow => "STACK OVERFLOW"
  | invalidLineNumber => "INVALID LINE NUMBER"
  | markerInText => "LINE MARKER IN TEXT"
  | lineDoesNotFit => "LINE DOES NOT FIT"
  | noRoomForHeader => "NO ROOM FOR HEADER"
  | lineTooLong => "LINE TOO LONG"
  | programAreaFull => "PROGRAM AREA FULL"
  | other text => text

/-- A failure of the program being interpreted. `column` is the buffer position where it
surfaced, 0 if it has none. -/
structure Error where
  category : Category
  column : Nat := 0
  diagnostic : Option Diagnostic := none
  deriving DecidableEq, Repr

namespace Error

def note (e : Error) : String :=
  (e.diagnostic.map Diagnostic.text).getD ""

def describe (e : Error) : String :=
  let note := if e.note = "" then "" else "; " ++ e.note
  "Error \x7b " ++ e.category.reply ++ " @" ++ toString e.column ++ note ++ " \x7d"

def malformed (column : Nat) (diagnostic : Diagnostic) : Error :=
  { category := .malformed, column, diagnostic }

def impossible (column : Nat) (diagnostic : Diagnostic) : Error :=
  { category := .impossible, column, diagnostic }

def exhausted (diagnostic : Diagnostic) : Error :=
  { category := .exhausted, diagnostic }

def recategorize (e : Error) (category : Category) : Error :=
  { e with category }

end Error

inductive IoError
  /-- The input has ended. -/
  | endOfInput (message : String)
  | other (message : String)
  deriving DecidableEq, Repr

/-- An access of the buffer at `position` where only `limit` bytes may be reached, or a product
of `position` where a machine word stays below `limit`. No session ever gets here. -/
structure Fault where
  position : Nat
  limit : Nat
  deriving DecidableEq, Repr

/-- What a build does with a product that passes a machine word. -/
inductive Overflow
  /-- It stops. -/
  | caught
  /-- It goes on with the low bits. -/
  | wrapping
  deriving DecidableEq, Repr

inductive Halt
  | error (e : Error)
  | io (e : IoError)
  | fault (f : Fault)
  deriving DecidableEq, Repr

end LineBasic
