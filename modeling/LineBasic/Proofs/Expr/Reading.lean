import LineBasic.Expr.Reading

namespace LineBasic

namespace Reading

def parts {text : List UInt8} (r : Reading text) : Expr × List UInt8 :=
  (r.expr, r.rest)

theorem parts_suffix {text : List UInt8} (r : Reading text) : r.parts.2 <:+ text :=
  r.rest_suffix

def closed (wrap : Expr → Expr) : Expr × List UInt8 → Expr × List UInt8
  | (e, []) => (.unclosed e, [])
  | (e, c :: rest) => if c = byte ')' then (wrap e, rest) else (.unclosed e, c :: rest)

theorem parts_close {inner text : List UInt8} (r : Reading inner) (h : inner <:+ text)
    (wrap : Expr → Expr) :
    (r.close h wrap).parts = closed wrap r.parts := by
  obtain ⟨e, rest, hs⟩ := r
  cases rest with
  | nil => rfl
  | cons c rest =>
    show Reading.parts (if c = byte ')' then _ else _) = if c = byte ')' then _ else _
    split
    · rfl
    · rfl

end Reading

namespace Expr
variable {text : List UInt8}

theorem parts_readPrimary {skipped : List UInt8} : Lexeme.skipBlanks text = skipped →
    (readPrimary text).parts =
      match skipped with
      | [] => (.malformed .expectedExpression, [])
      | c :: rest =>
        if c = byte '-' then (.negate (readPrimary rest).parts.1, (readPrimary rest).parts.2)
        else if c = byte '0' then (.literal 0, rest)
        else if Byte.isDigit c then
          (.literal (Decimal.value ((c :: rest).takeWhile Byte.isDigit)), (c :: rest).dropWhile
            Byte.isDigit)
        else
          match Lexeme.letter? (c :: rest) with
          | some v => (.var v, rest)
          | none =>
            if Lexeme.startsName (c :: rest) then (readCall (c :: rest)).parts
            else if c = byte '(' then Reading.closed .group (readRelation rest).parts
            else (.malformed .expectedExpression, c :: rest) := by
  intro h
  rw [readPrimary]
  split
  · rename_i hnil
    obtain rfl := h.symm.trans hnil
    rfl
  · rename_i c rest hcons
    obtain rfl := h.symm.trans hcons
    dsimp only
    split
    · rfl
    split
    · rfl
    split
    · rfl
    cases Lexeme.letter? (c :: rest) with
    | some v => rfl
    | none =>
      dsimp only
      split
      · rfl
      split
      · exact Reading.parts_close _ _ _
      · rfl

/-- A call is read by its name and the byte after it. -/
theorem parts_readCall {found : Option Function × List UInt8} :
    Lexeme.token Function.vocabulary text = found →
    (readCall text).parts =
      match found with
      | (none, rest) => (.malformed .undefinedFunction, rest)
      | (some _, []) => (.malformed .expectedOpening, [])
      | (some f, c :: rest) =>
        if c = byte '(' then Reading.closed (.call f) (readRelation rest).parts
        else (.malformed .expectedOpening, c :: rest) := by
  intro h
  rw [readCall]
  split
  · rename_i rest _ hfound _
    obtain rfl := h.symm.trans hfound
    rfl
  · rename_i f _ hfound _
    obtain rfl := h.symm.trans hfound
    rfl
  · rename_i f c rest _ hfound _
    obtain rfl := h.symm.trans hfound
    dsimp only
    split
    · exact Reading.parts_close _ _ _
    · rfl

theorem parts_readFactors_nil (left : Expr) : (readFactors left []).parts = (left, []) := by
  rw [readFactors]
  rfl

theorem parts_readFactors_cons (left : Expr) (c : UInt8) (rest : List UInt8) :
    (readFactors left (c :: rest)).parts =
      match factorOperator? c with
      | none => (left, c :: rest)
      | some op =>
        (readFactors (.arith op left (readPrimary rest).parts.1)
        (readPrimary rest).parts.2).parts := by
  rw [readFactors]
  cases factorOperator? c with
  | none => rfl
  | some op => rfl

theorem parts_readTerm (text : List UInt8) : (readTerm text).parts =
    (readFactors (readPrimary text).parts.1 (Lexeme.skipBlanks
    (readPrimary text).parts.2)).parts := by
  rw [readTerm]
  rfl

theorem parts_readTerms_nil (left : Expr) : (readTerms left []).parts = (left, []) := by
  rw [readTerms]
  rfl

theorem parts_readTerms_cons (left : Expr) (c : UInt8) (rest : List UInt8) :
    (readTerms left (c :: rest)).parts =
      match signOperator? c with
      | none => (left, c :: rest)
      | some op => (readTerms (.arith op left (readTerm rest).parts.1)
        (readTerm rest).parts.2).parts := by
  rw [readTerms]
  cases signOperator? c with
  | none => rfl
  | some op => rfl

theorem parts_readAdditive (text : List UInt8) : (readAdditive text).parts =
    if (text.head?.bind signOperator?).isSome then (readTerms .absent text).parts
    else (readTerms (readTerm text).parts.1 (readTerm text).parts.2).parts := by
  rw [readAdditive]
  split
  · rfl
  · rfl

/-- A relation is an additive, and another one where a sign of a relation follows. -/
theorem parts_readRelation {found : Option Relation × List UInt8} :
    Lexeme.token Relation.vocabulary (readAdditive text).parts.2 = found →
    (readRelation text).parts =
      match found with
      | (none, rest) => ((readAdditive text).parts.1, rest)
      | (some relation, rest) =>
        (.compare relation (readAdditive text).parts.1 (readAdditive rest).parts.1,
          (readAdditive rest).parts.2) := by
  intro h
  rw [readRelation]
  dsimp only
  split
  · rename_i rest _ hfound _
    obtain rfl := h.symm.trans hfound
    rfl
  · rename_i relation rest _ hfound _
    obtain rfl := h.symm.trans hfound
    rfl

end Expr
end LineBasic
