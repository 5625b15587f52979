namespace LineBasic

/-- The code of an ASCII character. -/
abbrev byte (c : Char) : UInt8 := c.toUInt8

/-- The codes of an ASCII text. -/
def ascii (s : String) : List UInt8 :=
  s.toList.map byte

namespace Byte

/-- Ends every line of program text. -/
def marker : UInt8 := 10

/-- Ends a typed line, like `marker`. -/
def carriageReturn : UInt8 := 13

def bell : UInt8 := 7

/-- Erases the byte typed before it. -/
def backspace : UInt8 := 8

/-- Erases the byte typed before it, like `backspace`. -/
def delete : UInt8 := 127

def interrupt : UInt8 := 3

def tab : UInt8 := 9

def blank : UInt8 := 32

/-- Blanks between tokens are spaces and tabs only. -/
def isBlank (b : UInt8) : Bool := b = blank || b = tab

def isUpper (b : UInt8) : Bool := byte 'A' ≤ b && b ≤ byte 'Z'

def isLower (b : UInt8) : Bool := byte 'a' ≤ b && b ≤ byte 'z'

def isDigit (b : UInt8) : Bool := byte '0' ≤ b && b ≤ byte '9'

def isQuote (b : UInt8) : Bool := b = byte '"' || b = byte '\''

def toUpper (b : UInt8) : UInt8 := if isLower b then b - 32 else b

def digitValue (b : UInt8) : Nat := b.toNat - 48

end Byte
end LineBasic
