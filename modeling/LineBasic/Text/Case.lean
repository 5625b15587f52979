import LineBasic.Byte

namespace LineBasic.Case

def foldFrom (quote : Option UInt8) : List UInt8 → List UInt8
  | [] => []
  | b :: rest =>
    match quote with
    | some q => b :: foldFrom (if b = q then none else some q) rest
    | none =>
      if Byte.isQuote b then b :: foldFrom (some b) rest
      else Byte.toUpper b :: foldFrom none rest

/-- Upper-cases a line, keeping string literals as typed; either quote closes only itself. -/
def fold (line : List UInt8) : List UInt8 :=
  foldFrom none line

def foldFirstLine (text : List UInt8) : List UInt8 :=
  fold (text.takeWhile (· != Byte.marker)) ++ text.dropWhile (· != Byte.marker)

end LineBasic.Case
