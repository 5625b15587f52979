import LineBasic.Cursor
import LineBasic.Expr.Basic
import LineBasic.Text.Decimal

namespace LineBasic

structure Reading (text : List UInt8) where
  expr : Expr
  rest : List UInt8
  rest_suffix : rest <:+ text

namespace Reading

theorem length_le {text : List UInt8} (r : Reading text) : r.rest.length ≤ text.length :=
  r.rest_suffix.length_le

def within {inner text : List UInt8} (r : Reading inner) (h : inner <:+ text)
    (wrap : Expr → Expr) : Reading text :=
  ⟨wrap r.expr, r.rest, r.rest_suffix.trans h⟩

def close {inner text : List UInt8} (r : Reading inner) (h : inner <:+ text)
    (wrap : Expr → Expr) : Reading text :=
  match hr : r.rest with
  | c :: rest =>
    if c = byte ')' then
      ⟨wrap r.expr, rest, (hr ▸ List.suffix_cons c rest : rest <:+ r.rest).trans
        (r.rest_suffix.trans h)⟩
    else r.within h .unclosed
  | [] => r.within h .unclosed

end Reading

namespace Expr

def signOperator? (c : UInt8) : Option Operator :=
  if c = byte '-' then some .difference else if c = byte '+' then some .sum else none

def factorOperator? (c : UInt8) : Option Operator :=
  if c = byte '*' then some .product
  else if c = byte '%' then some .remainder
  else if c = byte '/' then some .quotient
  else none

-- A relation is an additive, or two with a relation sign between them; an additive is terms joined
-- by + and -, the first with or without a sign; a term is primaries joined by *, / and %.
mutual

def readPrimary (text : List UInt8) : Reading text :=
  have hs := Lexeme.skipBlanks_suffix text
  match h : Lexeme.skipBlanks text with
  | [] => ⟨.malformed .expectedExpression, [], List.nil_suffix⟩
  | c :: rest =>
    have ht : c :: rest <:+ text := h ▸ hs
    have hr : rest <:+ text := (List.suffix_cons c rest).trans ht
    if c = byte '-' then
      (readPrimary rest).within hr .negate
    else if c = byte '0' then
      ⟨.literal 0, rest, hr⟩
    else if Byte.isDigit c then
      ⟨.literal (Decimal.value ((c :: rest).takeWhile Byte.isDigit)),
        (c :: rest).dropWhile Byte.isDigit, (List.dropWhile_suffix _).trans ht⟩
    else
      match Lexeme.letter? (c :: rest) with
      | some v => ⟨.var v, rest, hr⟩
      | none =>
        if Lexeme.startsName (c :: rest) then (readCall (c :: rest)).within ht id
        else if c = byte '(' then (readRelation rest).close hr .group
        else ⟨.malformed .expectedExpression, c :: rest, ht⟩
termination_by 7 * text.length + 1
decreasing_by all_goals have := ht.length_le; simp only [List.length_cons] at this ⊢; omega

def readCall (text : List UInt8) : Reading text :=
  match Lexeme.token Function.vocabulary text, Lexeme.token_suffix Function.vocabulary text with
  | (none, rest), h => ⟨.malformed .undefinedFunction, rest, h⟩
  | (some _, []), _ => ⟨.malformed .expectedOpening, [], List.nil_suffix⟩
  | (some f, c :: rest), h =>
    if c = byte '(' then (readRelation rest).close ((List.suffix_cons c rest).trans h) (.call f)
    else ⟨.malformed .expectedOpening, c :: rest, h⟩
termination_by 7 * text.length
decreasing_by have := h.length_le; simp only [List.length_cons] at this; omega

def readFactors (left : Expr) (text : List UInt8) : Reading text :=
  match text with
  | [] => ⟨left, [], List.nil_suffix⟩
  | c :: rest =>
    match factorOperator? c with
    | none => ⟨left, c :: rest, List.suffix_refl _⟩
    | some op =>
      match readPrimary rest with
      | ⟨right, after, h⟩ =>
        (readFactors (.arith op left right) after).within (h.trans (List.suffix_cons c rest)) id
termination_by 7 * text.length + 2
decreasing_by
  · simp only [List.length_cons]; omega
  · have := h.length_le; simp only [List.length_cons]; omega

def readTerm (text : List UInt8) : Reading text :=
  match readPrimary text with
  | ⟨first, after, h⟩ =>
    have hs := (Lexeme.skipBlanks_suffix after).trans h
    (readFactors first (Lexeme.skipBlanks after)).within hs id
termination_by 7 * text.length + 3
decreasing_by
  · omega
  · have := hs.length_le; omega

def readTerms (left : Expr) (text : List UInt8) : Reading text :=
  match text with
  | [] => ⟨left, [], List.nil_suffix⟩
  | c :: rest =>
    match signOperator? c with
    | none => ⟨left, c :: rest, List.suffix_refl _⟩
    | some op =>
      match readTerm rest with
      | ⟨right, after, h⟩ =>
        (readTerms (.arith op left right) after).within (h.trans (List.suffix_cons c rest)) id
termination_by 7 * text.length + 4
decreasing_by
  · simp only [List.length_cons]; omega
  · have := h.length_le; simp only [List.length_cons]; omega

def readAdditive (text : List UInt8) : Reading text :=
  if (text.head?.bind signOperator?).isSome then readTerms .absent text
  else
    match readTerm text with
    | ⟨first, after, h⟩ => (readTerms first after).within h id
termination_by 7 * text.length + 5
decreasing_by
  · omega
  · omega
  · have := h.length_le; omega

def readRelation (text : List UInt8) : Reading text :=
  match readAdditive text with
  | ⟨left, after, h⟩ =>
    match Lexeme.token Relation.vocabulary after, Lexeme.token_suffix Relation.vocabulary after with
    | (none, rest), hs => ⟨left, rest, hs.trans h⟩
    | (some relation, rest), hs =>
      (readAdditive rest).within (hs.trans h) (.compare relation left)
termination_by 7 * text.length + 6
decreasing_by
  · omega
  · have := (hs.trans h).length_le; simp only at this; omega

end

end Expr

/-- The expression at the cursor, and the cursor after it. -/
def Cursor.expression (c : Cursor) : Expr × Cursor :=
  let r := Expr.readRelation c.rest
  (r.expr, c.moveTo r.rest)

end LineBasic
