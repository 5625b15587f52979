import LineBasic.Text.Decimal
import LineBasic.Text.Utf8

namespace LineBasic

/-- A stored line: its number and its text without the marker. -/
structure Line where
  number : UInt16
  text : List UInt8
  deriving DecidableEq, Repr

/-- The line as a listing shows it. -/
def Line.display (line : Line) : List UInt8 :=
  Decimal.digits line.number.toNat ++ Byte.blank :: Utf8.repair line.text

end LineBasic
