import LineBasic.Host.Basic

namespace LineBasic

structure Piped where
  input : List UInt8 := []
  output : Array UInt8 := #[]

instance : Host Piped where
  read s :=
    match s.input with
    | [] => .error (.endOfInput "end of input") s
    | b :: input => .ok b { s with input }
  poll s := .ok false s
  write b := fun ⟨input, output⟩ => .ok () ⟨input, output.push b⟩

end LineBasic
