import LineBasic.Variable

namespace LineBasic

/-- What a typed line is for. -/
inductive Purpose
  | command
  /-- The value of a variable; the program then goes on at `resume`. -/
  | reply (v : Variable) (resume : Nat)
  deriving DecidableEq, Repr

/-- What asks for the line. -/
def Purpose.sign : Purpose → UInt8
  | command => byte '>'
  | reply .. => byte '?'

/-- What happens next in a session. -/
inductive Phase
  /-- Everything is forgotten and the interpreter greets. -/
  | cold
  /-- Pending control is dropped and the interpreter says so. -/
  | restart
  /-- A command is wanted. -/
  | prompt
  /-- A direct line is executed, unless it is empty. -/
  | direct
  /-- The current line is executed from its start, if there is one. -/
  | line
  /-- The host is asked for an interrupt before the next statement. -/
  | poll
  /-- A statement is executed. -/
  | execute
  /-- A statement has been executed; its line may go on. -/
  | proceed
  /-- The rest of the line is skipped. -/
  | nextLine
  /-- A line is asked for. -/
  | ask (purpose : Purpose)
  /-- A line is being typed, and its next byte goes to `pos`. -/
  | edit (purpose : Purpose) (pos : Nat)
  /-- The session is over. -/
  | bye
  deriving DecidableEq, Repr

/-- Where an interpreter that was given a line comes to rest. -/
def Phase.awaitsCommand : Phase → Bool
  | prompt | bye => true
  | _ => false

end LineBasic
