import LineBasic.Variable
import LineBasic.Vocabulary

namespace LineBasic.Lexeme

def skipBlanks (text : List UInt8) : List UInt8 :=
  text.dropWhile Byte.isBlank

theorem skipBlanks_suffix (text : List UInt8) : skipBlanks text <:+ text :=
  List.dropWhile_suffix _

/-- A token of a vocabulary with the blanks on both sides of it. The blanks before are
skipped whether or not a token follows. -/
def token {τ : Type} (vocabulary : Vocabulary τ) (text : List UInt8) : Option τ × List UInt8 :=
  let text := skipBlanks text
  match vocabulary.find? text with
  | none => (none, text)
  | some (token, length) => (some token, skipBlanks (text.drop length))

theorem token_suffix {τ : Type} (vocabulary : Vocabulary τ) (text : List UInt8) :
    (token vocabulary text).2 <:+ text := by
  unfold token
  dsimp only
  split
  · exact skipBlanks_suffix text
  · exact (skipBlanks_suffix _).trans ((List.drop_suffix _ _).trans (skipBlanks_suffix text))

def letter? : List UInt8 → Option Variable
  | [] => none
  | letter :: rest => if rest.head?.any Byte.isUpper then none else Variable.ofLetter? letter

def startsName : List UInt8 → Bool
  | first :: second :: _ => Byte.isUpper first && Byte.isUpper second
  | _ => false

/-- A number and the digits still to come. A number that a further digit could take past the
largest line number becomes that number, and the digit is left unread. -/
def lineNumberFrom (n : Nat) : List UInt8 → Nat × List UInt8
  | [] => (n, [])
  | d :: rest =>
    if Byte.isDigit d then
      if 6553 ≤ n then (65535, d :: rest) else lineNumberFrom (10 * n + Byte.digitValue d) rest
    else (n, d :: rest)

theorem lineNumberFrom_suffix (n : Nat) (text : List UInt8) :
    (lineNumberFrom n text).2 <:+ text := by
  fun_induction lineNumberFrom n text with
  | case1 n => exact List.suffix_refl _
  | case2 n d rest hd hn => exact List.suffix_refl _
  | case3 n d rest hd hn ih => exact ih.trans (List.suffix_cons d rest)
  | case4 n d rest hd => exact List.suffix_refl _

/-- A line number after blanks; no digits at all are line 0. -/
def lineNumber (text : List UInt8) : UInt16 × List UInt8 :=
  let (n, rest) := lineNumberFrom 0 (skipBlanks text)
  (n.toUInt16, rest)

def quoted? : List UInt8 → Option (List UInt8 × List UInt8)
  | [] => none
  | quote :: rest =>
    if Byte.isQuote quote then
      match rest.dropWhile (· != quote) with
      | [] => none
      | _ :: after => some (rest.takeWhile (· != quote), after)
    else none

theorem eq_of_quoted? {text literal after : List UInt8} (h : quoted? text = some (literal, after)) :
    ∃ quote, Byte.isQuote quote ∧ quote ∉ literal ∧ text = quote :: literal ++ quote :: after := by
  unfold quoted? at h
  split at h
  · cases h
  · rename_i quote rest
    split at h
    · rename_i hq
      split at h
      · cases h
      · rename_i closing tail hd
        cases h
        have hc : (closing != quote) = false := by
          have := List.head?_dropWhile_not (· != quote) rest
          simpa [hd] using this
        have he : closing = quote := by simpa using hc
        refine ⟨quote, hq, fun hm => ?_, ?_⟩
        · simpa using List.all_eq_true.1 List.all_takeWhile quote hm
        · have := List.takeWhile_append_dropWhile (p := (· != quote)) (l := rest)
          rw [hd, he] at this
          rw [List.cons_append, this]
    · cases h

end LineBasic.Lexeme
