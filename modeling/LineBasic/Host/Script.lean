import LineBasic.Byte
import LineBasic.Host.Basic

namespace LineBasic

/-- A host in memory: its input is queued up front and its output is collected. Only a queued
interrupt counts as pending, so that replies queued for `INPUT` are not swallowed between
statements. -/
structure Script where
  input : List UInt8 := []
  output : Array UInt8 := #[]

namespace Script

def typeBytes (s : Script) (bytes : List UInt8) : Script :=
  { s with input := s.input ++ bytes }

def typeLine (s : Script) (line : List UInt8) : Script :=
  s.typeBytes (line ++ [Byte.carriageReturn])

def typeInterrupt (s : Script) : Script :=
  s.typeBytes [Byte.interrupt]

def takeOutput (s : Script) : List UInt8 × Script :=
  (s.output.toList, { s with output := #[] })

instance : Host Script where
  read s :=
    match s.input with
    | [] => .error (.endOfInput "script exhausted") s
    | b :: input => .ok b { s with input }
  poll s := .ok (s.input.head? = some Byte.interrupt) s
  write b := fun ⟨input, output⟩ => .ok () ⟨input, output.push b⟩

end Script
end LineBasic
