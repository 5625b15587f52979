import LineBasic.Proofs.Expr.Lexing

namespace LineBasic
namespace Phrase

open LineBasic.Expr

/-- Whether the blanks after a phrase are left unread: those after a product, unless the sign of a
relation is looked for after it. -/
def keepsBlanks : {rank : Rank} → Phrase rank → Bool
  | _, factor _ _ _ => true
  | _, unsigned t | _, signed _ t | _, joined _ _ t => t.keepsBlanks
  | _, compared _ _ right => right.keepsBlanks
  | _, _ => false

/-- An additive or a relation that begins with a sign, also where it is the minus sign of the first
primary. -/
def beginsWithSign : {rank : Rank} → Phrase rank → Bool
  | _, unsigned t => t.negative
  | _, signed _ _ => true
  | _, joined a _ _ | _, plain a | _, compared a _ _ => a.beginsWithSign
  | _, _ => false

/-- Blanks, but none where they are not free to stand. -/
structure Gap (free : Bool) (text : List UInt8) : Prop where
  blank : ∀ b ∈ text, Byte.isBlank b = true
  tight : free = false → text = []

/-- The spellings of a phrase with blanks between its tokens, either anywhere or only where they are
skipped. -/
inductive Spaced (anywhere : Bool) : {rank : Rank} → Phrase rank → List UInt8 → Prop
  | number (n : Nat) : Spaced anywhere (number n) (Decimal.digits n)
  | var (v : Variable) : Spaced anywhere (var v) [v.letter]
  | negate {p : Phrase .primary} {gap x : List UInt8} : Gap true gap → Spaced anywhere p x →
    Spaced anywhere (negate p) (byte '-' :: (gap ++ x))
  | call (f : Function) {argument : Phrase .relation} {gap opening x closing : List UInt8} :
    Gap true gap →
    Gap (anywhere || !argument.beginsWithSign) opening → Spaced anywhere argument x →
    Gap (anywhere || !argument.keepsBlanks) closing →
    Spaced anywhere (call f argument)
      (ascii (Function.vocabulary.spelling f) ++ (gap ++ byte '(' ::
        (opening ++ (x ++ (closing ++ [byte ')'])))))
  | group {inner : Phrase .relation} {opening x closing : List UInt8} :
    Gap (anywhere || !inner.beginsWithSign) opening → Spaced anywhere inner x →
    Gap (anywhere || !inner.keepsBlanks) closing →
    Spaced anywhere (group inner) (byte '(' :: (opening ++ (x ++ (closing ++ [byte ')']))))
  | single {p : Phrase .primary} {x : List UInt8} : Spaced anywhere p x →
    Spaced anywhere (single p) x
  | factor (sign : FactorSign) {t : Phrase .term} {p : Phrase .primary}
    {x before behind y : List UInt8} :
    Spaced anywhere t x → Gap (anywhere || !t.keepsBlanks) before → Gap true behind →
    Spaced anywhere p y →
    Spaced anywhere (factor t sign p) (x ++ (before ++ sign.byte :: (behind ++ y)))
  | unsigned {t : Phrase .term} {x : List UInt8} : Spaced anywhere t x →
    Spaced anywhere (unsigned t) x
  | signed (sign : Sign) {t : Phrase .term} {gap x : List UInt8} : Gap true gap →
    Spaced anywhere t x →
    Spaced anywhere (signed sign t) (sign.byte :: (gap ++ x))
  | joined (sign : Sign) {a : Phrase .additive} {t : Phrase .term}
    {x before behind y : List UInt8} :
    Spaced anywhere a x → Gap (anywhere || !a.keepsBlanks) before → Gap true behind →
    Spaced anywhere t y →
    Spaced anywhere (joined a sign t) (x ++ (before ++ sign.byte :: (behind ++ y)))
  | plain {a : Phrase .additive} {x : List UInt8} : Spaced anywhere a x →
    Spaced anywhere (plain a) x
  | compared (sign : RelationSign) {left right : Phrase .additive}
    {x before behind y : List UInt8} :
    Spaced anywhere left x → Gap true before → Gap true behind → Spaced anywhere right y →
    Spaced anywhere (compared left sign right) (x ++
      (before ++ (ascii sign.val.1 ++ (behind ++ y))))

theorem gap_nil (free : Bool) : Gap free [] :=
  ⟨fun _ h => absurd h List.not_mem_nil, fun _ => rfl⟩

theorem spaced_spell (anywhere : Bool) {rank : Rank} (p : Phrase rank) :
    Spaced anywhere p p.spell := by
  induction p with
  | number n => exact .number n
  | var v => exact .var v
  | negate p ih => exact .negate (gap_nil _) ih
  | call f argument ih => exact .call f (gap_nil _) (gap_nil _) ih (gap_nil _)
  | group inner ih => exact .group (gap_nil _) ih (gap_nil _)
  | single p ih => exact .single ih
  | factor t sign p iht ihp => exact .factor sign iht (gap_nil _) (gap_nil _) ihp
  | unsigned t ih => exact .unsigned ih
  | signed sign t ih => exact .signed sign (gap_nil _) ih
  | joined a sign t iha iht => exact .joined sign iha (gap_nil _) (gap_nil _) iht
  | plain a ih => exact .plain ih
  | compared left sign right ihl ihr => exact .compared sign ihl (gap_nil _) (gap_nil _) ihr

def Opens : {rank : Rank} → Phrase rank → List UInt8 → Prop
  | .primary, p, x | .term, p, x =>
    ∃ b rest, x = b :: rest ∧ if p.negative then b = byte '-' else opensPrimary b = true
  | .additive, p, x | .relation, p, x =>
    ∃ b rest, x = b :: rest ∧ if p.beginsWithSign then b = byte '-' ∨
      b = byte '+' else opensPrimary b = true

theorem Spaced.opens {anywhere : Bool} {rank : Rank} {p : Phrase rank} {x : List UInt8}
    (h : Spaced anywhere p x) :
    p.Opens x := by
  -- A spelling begins with that of its leftmost part.
  induction h with
  | number n =>
    obtain ⟨b, rest, he⟩ : ∃ b rest, Decimal.digits n = b :: rest := by
      by_cases hn : n = 0
      · exact ⟨_, _, hn ▸ Decimal.digits_zero⟩
      · obtain ⟨b, rest, he, -⟩ := Decimal.exists_digits_eq_cons hn
        exact ⟨b, rest, he⟩
    have hb : b ∈ Decimal.digits n := by
      rw [he]
      exact List.mem_cons_self
    exact ⟨b, rest, he, opensPrimary_of_isDigit (Decimal.isDigit_of_mem_digits hb)⟩
  | var v => exact ⟨_, _, rfl, opensPrimary_of_isUpper (isUpper_letter v)⟩
  | negate => exact ⟨_, _, rfl, rfl⟩
  | call f =>
    obtain ⟨a, b, letters, he, ha, -⟩ := exists_ascii_function f
    rw [he]
    exact ⟨_, _, rfl, opensPrimary_of_isUpper ha⟩
  | group => exact ⟨_, _, rfl, rfl⟩
  | single _ ih => exact ih
  | factor sign _ _ _ _ iht _ =>
    obtain ⟨b, rest, rfl, hb⟩ := iht
    exact ⟨b, _, rfl, hb⟩
  | @unsigned t x _ ih =>
    obtain ⟨b, rest, rfl, hb⟩ := ih
    refine ⟨b, rest, rfl, ?_⟩
    show if t.negative = true then _ else _
    by_cases hneg : t.negative = true
    · rw [if_pos hneg] at hb ⊢
      exact Or.inl hb
    · rw [if_neg hneg] at hb ⊢
      exact hb
  | signed sign =>
    refine ⟨sign.byte, _, rfl, ?_⟩
    cases sign with
    | plus => exact Or.inr rfl
    | minus => exact Or.inl rfl
  | joined sign _ _ _ _ iha _ =>
    obtain ⟨b, rest, rfl, hb⟩ := iha
    exact ⟨b, _, rfl, hb⟩
  | plain _ ih => exact ih
  | compared sign _ _ _ _ ihl _ =>
    obtain ⟨b, rest, rfl, hb⟩ := ihl
    exact ⟨b, _, rfl, hb⟩

end Phrase
end LineBasic
