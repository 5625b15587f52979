import LineBasic.Proofs.Expr.Soundness
import LineBasic.Proofs.Quotes

namespace LineBasic
variable {text rest : List UInt8}

/-- Every spelling of a token of the vocabulary can be passed without passing a quote. -/
def Vocabulary.Plain {τ : Type} (vocabulary : Vocabulary τ) : Prop :=
  ∀ entry ∈ vocabulary, Unquoted (ascii entry.1)

instance {τ : Type} {vocabulary : Vocabulary τ} : Decidable vocabulary.Plain :=
  inferInstanceAs (Decidable (∀ entry ∈ vocabulary, Unquoted (ascii entry.1)))

namespace Passes

theorem token_of {τ : Type} {vocabulary : Vocabulary τ} {found : Option τ}
    (h : Lexeme.token vocabulary text = (found, rest))
    (hs : ∀ spelling token, (spelling, token) ∈ vocabulary → found = some token →
      Unquoted (ascii spelling)) :
    Passes text rest := by
  unfold Lexeme.token at h
  dsimp only at h
  split at h
  · cases h
    exact .skipBlanks text
  · rename_i token length hfind
    cases h
    obtain ⟨spelling, hmem, he⟩ := find?_eq_some hfind
    have hspelling : Passes (Lexeme.skipBlanks text) ((Lexeme.skipBlanks text).drop length) :=
      ⟨ascii spelling, he, hs spelling token hmem rfl⟩
    exact (Passes.skipBlanks text).trans (hspelling.trans (.skipBlanks _))

theorem token {τ : Type} {vocabulary : Vocabulary τ} (hv : vocabulary.Plain) (text : List UInt8) :
    Passes text (Lexeme.token vocabulary text).2 :=
  token_of (Prod.eta _).symm fun _ _ hmem _ => hv _ hmem

theorem lineNumberFrom (n : Nat) (text : List UInt8) :
    Passes text (Lexeme.lineNumberFrom n text).2 := by
  fun_induction Lexeme.lineNumberFrom n text with
  | case1 n => exact .refl _
  | case2 n d rest hd hn => exact .refl _
  | case3 n d rest hd hn ih => exact (Passes.cons (Byte.isQuote_of_isDigit hd) rest).trans ih
  | case4 n d rest hd => exact .refl _

theorem lineNumber (text : List UInt8) : Passes text (Lexeme.lineNumber text).2 :=
  (Passes.skipBlanks text).trans (lineNumberFrom 0 _)

theorem letter {b : UInt8} {v : Variable} (h : Lexeme.letter? (b :: rest) = some v) :
    Passes (b :: rest) rest := by
  refine .cons ?_ rest
  have hletter : ∀ i : Fin 26, Byte.isQuote (Variable.mk i).letter = false := by decide
  exact letter_of_letter? h ▸ hletter v.index

end Passes

open LineBasic.Expr

/-- Nothing of this rank passes a quote when it is read from a text of at most this length. -/
def Rank.Passes (rank : Rank) (n : Nat) : Prop :=
  ∀ ⦃text : List UInt8⦄, text.length ≤ n → LineBasic.Passes text (rank.read text).2

section
variable {n : Nat}

theorem chain_passes {operator? : UInt8 → Option Operator} {part : Rank}
    {chain : Expr → List UInt8 → Expr × List UInt8} (h : Chain operator? part.read chain)
    (ho : ∀ c op, operator? c = some op → Byte.isQuote c = false) (hpart : part.Passes n)
    (left : Expr) (hn : text.length ≤ n) : Passes text (chain left text).2 := by
  -- By the length of the text, as each operator and its operand pass some of it.
  induction hlen : text.length using Nat.strongRecOn generalizing left text with
  | _ k ih =>
    cases text with
    | nil =>
      rw [h.nil]
      exact .refl _
    | cons c tail =>
      rw [h.cons]
      split
      · exact .refl _
      · rename_i op hop
        have hlength := (h.operand_suffix tail).length_le
        rw [List.length_cons] at hn hlen
        exact (Passes.cons (ho c op hop) tail).trans
          ((hpart (by omega)).trans (ih _ (by omega) _ (by omega) rfl))

theorem term_passes (hp : Rank.primary.Passes n) : Rank.term.Passes n := by
  intro text hn
  have hfirst : Passes text (readPrimary text).parts.2 := hp hn
  have hskip := Passes.skipBlanks (readPrimary text).parts.2
  have hlength := (hskip.suffix.trans hfirst.suffix).length_le
  show Passes text (readTerm text).parts.2
  rw [parts_readTerm]
  refine hfirst.trans (hskip.trans (chain_passes chain_factors (fun c op hop => ?_) hp _
    (by omega)))
  obtain ⟨sign, rfl, -⟩ := operator_of_factorOperator? hop
  cases sign <;> rfl

theorem additive_passes (ht : Rank.term.Passes n) : Rank.additive.Passes n := by
  intro text hn
  have hsign (c : UInt8) (op : Operator) (hop : signOperator? c = some op) :
      Byte.isQuote c = false := by
    obtain ⟨sign, rfl, -⟩ := operator_of_signOperator? hop
    cases sign <;> rfl
  show Passes text (readAdditive text).parts.2
  rw [parts_readAdditive]
  split
  · exact chain_passes chain_terms hsign ht _ hn
  · have hfirst : Passes text (readTerm text).parts.2 := ht hn
    have hlength := hfirst.suffix.length_le
    exact hfirst.trans (chain_passes chain_terms hsign ht _ (by omega))

theorem relation_passes (ha : Rank.additive.Passes n) : Rank.relation.Passes n := by
  intro text hn
  have hleft : Passes text (readAdditive text).parts.2 := ha hn
  show Passes text (readRelation text).parts.2
  rcases hfound : Lexeme.token Relation.vocabulary (readAdditive text).parts.2 with ⟨found, after⟩
  have htoken := Passes.token (show Relation.vocabulary.Plain by decide) (readAdditive text).parts.2
  rw [hfound] at htoken
  have hboth := hleft.trans htoken
  rw [parts_readRelation hfound]
  cases found with
  | none => exact hboth
  | some relation => exact hboth.trans (ha (Nat.le_trans hboth.suffix.length_le hn))

theorem closed_passes (wrap : Expr → Expr) (read : Expr × List UInt8) :
    Passes read.2 (Reading.closed wrap read).2 := by
  obtain ⟨inner, text⟩ := read
  cases text with
  | nil => exact .refl _
  | cons c tail =>
    rw [Reading.closed]
    split
    · rename_i hclose
      exact .cons (hclose ▸ rfl) tail
    · exact .refl _

theorem call_passes (hr : Rank.relation.Passes n) (hn : text.length ≤ n + 1) :
    Passes text (readCall text).parts.2 := by
  rcases hfound : Lexeme.token Function.vocabulary text with ⟨found, after⟩
  have htoken := Passes.token (show Function.vocabulary.Plain by decide) text
  rw [hfound] at htoken
  rw [parts_readCall hfound]
  cases found with
  | none => exact htoken
  | some f =>
    cases after with
    | nil => exact htoken
    | cons c rest =>
      have hlength := htoken.suffix.length_le
      rw [List.length_cons] at hlength
      dsimp only
      split
      · rename_i hopen
        have hargument : Passes rest (readRelation rest).parts.2 := hr (by omega)
        exact htoken.trans ((Passes.cons (hopen ▸ rfl) rest).trans
          (hargument.trans (closed_passes _ _)))
      · exact htoken

theorem primary_passes (hp : Rank.primary.Passes n) (hr : Rank.relation.Passes n) :
    Rank.primary.Passes (n + 1) := by
  intro text hn
  have hskip := Passes.skipBlanks text
  show Passes text (readPrimary text).parts.2
  refine hskip.trans ?_
  rw [parts_readPrimary rfl]
  have hlength := hskip.suffix.length_le
  cases hcons : Lexeme.skipBlanks text with
  | nil => exact .refl _
  | cons c rest =>
    rw [hcons, List.length_cons] at hlength
    dsimp only
    split
    · rename_i hminus
      exact (Passes.cons (hminus ▸ rfl) rest).trans (hp (by omega))
    split
    · rename_i hzero
      exact .cons (hzero ▸ rfl) rest
    split
    · exact .dropWhile (fun _ hb => Byte.isQuote_of_isDigit hb) _
    split
    · rename_i v hletter
      exact .letter hletter
    split
    · exact call_passes hr (show (c :: rest).length ≤ n + 1 by rw [List.length_cons]; omega)
    split
    · rename_i hopen
      have hinner : Passes rest (readRelation rest).parts.2 := hr (by omega)
      exact (Passes.cons (hopen ▸ rfl) rest).trans (hinner.trans (closed_passes _ _))
    · exact .refl _

theorem primary_passes_zero : Rank.primary.Passes 0 := by
  intro text hn
  obtain rfl := List.length_eq_zero_iff.1 (Nat.le_zero.1 hn)
  show Passes [] (readPrimary []).parts.2
  rw [parts_readPrimary rfl]
  exact .refl _

theorem passes_up_to (n : Nat) : Rank.primary.Passes n ∧ Rank.relation.Passes n := by
  have hall (n : Nat) (hp : Rank.primary.Passes n) : Rank.relation.Passes n :=
    relation_passes (additive_passes (term_passes hp))
  -- What is read inside a primary is shorter than the primary.
  induction n with
  | zero => exact ⟨primary_passes_zero, hall 0 primary_passes_zero⟩
  | succ n ih =>
    have hp := primary_passes ih.1 ih.2
    exact ⟨hp, hall _ hp⟩

end

theorem Passes.expression (text : List UInt8) : Passes text (readRelation text).rest :=
  (passes_up_to text.length).2 (Nat.le_refl _)

end LineBasic
