namespace LineBasic.Utf8

/-- The ranges that the bytes after a leading byte must lie in, or `none` for a byte that
leads nothing. -/
def followers (lead : UInt8) : Option (List (UInt8 × UInt8)) :=
  if lead < 0x80 then some []
  else if lead < 0xC2 then none
  else if lead < 0xE0 then some [(0x80, 0xBF)]
  else if lead = 0xE0 then some [(0xA0, 0xBF), (0x80, 0xBF)]
  else if lead = 0xED then some [(0x80, 0x9F), (0x80, 0xBF)]
  else if lead < 0xF0 then some [(0x80, 0xBF), (0x80, 0xBF)]
  else if lead = 0xF0 then some [(0x90, 0xBF), (0x80, 0xBF), (0x80, 0xBF)]
  else if lead < 0xF4 then some [(0x80, 0xBF), (0x80, 0xBF), (0x80, 0xBF)]
  else if lead = 0xF4 then some [(0x80, 0x8F), (0x80, 0xBF), (0x80, 0xBF)]
  else none

def matching : List (UInt8 × UInt8) → List UInt8 → Nat
  | (low, high) :: ranges, b :: rest =>
    if low ≤ b ∧ b ≤ high then matching ranges rest + 1 else 0
  | _, _ => 0

def replacement : List UInt8 := [0xEF, 0xBF, 0xBD]

/-- Every ill-formed piece, taken as long as it could still have become a character,
becomes one replacement character. -/
def repair : List UInt8 → List UInt8
  | [] => []
  | lead :: rest =>
    match followers lead with
    | none => replacement ++ repair rest
    | some ranges =>
      let n := matching ranges rest
      (if n = ranges.length then lead :: rest.take n else replacement) ++ repair (rest.drop n)
termination_by text => text.length
decreasing_by
  · exact Nat.lt_succ_self _
  · rw [List.length_drop]
    exact Nat.lt_succ_of_le (Nat.sub_le _ _)

end LineBasic.Utf8
