import LineBasic.Text.Lexeme

namespace LineBasic

/-- Where the first marker stands among the next bytes from `i` on, past them if none does. -/
def endOfLineWithin (text : Array UInt8) : Nat → Nat → Nat
  | 0, i => i
  | bytes + 1, i =>
    if text.getD i Byte.marker = Byte.marker then i else endOfLineWithin text bytes (i + 1)

def endOfLine (text : Array UInt8) (i : Nat) : Nat :=
  endOfLineWithin text (text.size - i) i

/-- A position in a text whose lines end with the marker. Past its end the text reads as
markers. -/
structure Cursor where
  text : Array UInt8
  pos : Nat

namespace Cursor

def peekAt (c : Cursor) (offset : Nat) : UInt8 :=
  c.text.getD (c.pos + offset) Byte.marker

def peek (c : Cursor) : UInt8 :=
  c.peekAt 0

/-- The bytes from the cursor to the end of its line, without the marker. -/
def rest (c : Cursor) : List UInt8 :=
  (c.text.extract c.pos (endOfLine c.text c.pos)).toList

def advance (c : Cursor) : Cursor :=
  { c with pos := c.pos + 1 }

def moveTo (c : Cursor) (after : List UInt8) : Cursor :=
  { c with pos := c.pos + (c.rest.length - after.length) }

def skipBlanks (c : Cursor) : Cursor :=
  c.moveTo (Lexeme.skipBlanks c.rest)

def atEndOfLine (c : Cursor) : Bool :=
  c.peek = Byte.marker

def atEndOfStatement (c : Cursor) : Bool :=
  c.peek = Byte.marker || c.peek = byte ':'

/-- Passes a byte and the blanks on both sides of it. The blanks before are skipped whether or
not the byte follows. -/
def expect (c : Cursor) (b : UInt8) : Bool × Cursor :=
  let c := c.skipBlanks
  if c.peek = b then (true, c.advance.skipBlanks) else (false, c)

/-- Passes a token of a vocabulary and the blanks around it. -/
def token {τ : Type} (c : Cursor) (vocabulary : Vocabulary τ) : Option τ × Cursor :=
  let (found, after) := Lexeme.token vocabulary c.rest
  (found, c.moveTo after)

def letter? (c : Cursor) : Option Variable :=
  Lexeme.letter? c.rest

def startsName (c : Cursor) : Bool :=
  Lexeme.startsName c.rest

def lineNumber (c : Cursor) : UInt16 × Cursor :=
  let (n, after) := Lexeme.lineNumber c.rest
  (n, c.moveTo after)

def quoted? (c : Cursor) : Option (List UInt8 × Cursor) :=
  (Lexeme.quoted? c.rest).map fun (literal, after) => (literal, c.moveTo after)

end Cursor
end LineBasic
