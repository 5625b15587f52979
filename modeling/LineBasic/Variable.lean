import LineBasic.Byte

namespace LineBasic

/-- One of the 26 variables, numbered in the order of their letters. -/
structure Variable where
  index : Fin 26
  deriving DecidableEq, Repr

namespace Variable

def count : Nat := 26

def letter (v : Variable) : UInt8 :=
  UInt8.ofNat (65 + v.index)

def ofLetter? (b : UInt8) : Option Variable :=
  if h : 65 ≤ b.toNat ∧ b.toNat < 91 then some ⟨⟨b.toNat - 65, by omega⟩⟩ else none

theorem ofLetter?_letter (v : Variable) : ofLetter? v.letter = some v := by
  have h : (v.letter).toNat = 65 + v.index.val := by
    rw [letter, UInt8.toNat_ofNat']
    omega
  simp only [ofLetter?, h]
  rw [dif_pos (by omega)]
  simp

def ofChar? (c : Char) : Option Variable :=
  if c.toNat < 128 then ofLetter? (Byte.toUpper c.toUInt8) else none

def all : List Variable :=
  (List.finRange 26).map Variable.mk

end Variable
end LineBasic
