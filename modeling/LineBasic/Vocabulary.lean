import LineBasic.Byte

namespace LineBasic

/-- Spellings of tokens in order of precedence: a spelling stands before every shorter one
that begins it. -/
abbrev Vocabulary (τ : Type) := List (String × τ)

namespace Vocabulary
variable {τ : Type}

def find? (vocabulary : Vocabulary τ) (text : List UInt8) : Option (τ × Nat) :=
  vocabulary.findSome? fun (spelling, token) =>
    let letters := ascii spelling
    if letters.isPrefixOf text then some (token, letters.length) else none

def spelling [DecidableEq τ] (vocabulary : Vocabulary τ) (token : τ) : String :=
  ((List.find? (fun entry => entry.2 = token) vocabulary).map Prod.fst).getD ""

end Vocabulary
end LineBasic
