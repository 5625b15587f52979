import LineBasic.Byte

namespace LineBasic.Decimal

/-- The decimal digits of a number, without leading zeros. -/
def digits (n : Nat) : List UInt8 :=
  if n < 10 then [UInt8.ofNat (48 + n)] else digits (n / 10) ++ [UInt8.ofNat (48 + n % 10)]

def signed (i : Int) : List UInt8 :=
  if i < 0 then byte '-' :: digits i.natAbs else digits i.natAbs

/-- The number that a run of digits denotes. -/
def value (ds : List UInt8) : Nat :=
  ds.foldl (fun n d => 10 * n + Byte.digitValue d) 0

end LineBasic.Decimal
