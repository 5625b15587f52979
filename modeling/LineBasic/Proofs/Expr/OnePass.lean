import LineBasic.Proofs.Expr.Soundness

namespace LineBasic

def Operator.carryOut (op : Operator) (x y : Int16) (t : Trial) : Int16 × Trial :=
  match op.apply x y with
  | .ok z => (z, t)
  | .error why => (x, t.fail why)

def Function.carryOut (f : Function) (s : Surroundings) (x : Int16) (t : Trial) : Int16 × Trial :=
  match f.apply s t.generator x with
  | (.ok z, g) => (z, { t with generator := g })
  | (.error why, g) => (0, { t with generator := g }.fail why)

def Decimal.wrapped (ds : List UInt8) : Int16 :=
  ds.foldl (fun x d => 10 * x + Int16.ofNat (Byte.digitValue d)) 0

theorem Decimal.wrapped_eq (ds : List UInt8) : wrapped ds = Int16.ofNat (value ds) :=
  List.foldl_hom Int16.ofNat fun n d => by
    rw [Int16.ofNat_add, Int16.ofNat_mul]
    rfl

/-- A value at the front of `text`, what its evaluation leaves behind, and the text left after it.
-/
structure Scan (text : List UInt8) where
  value : Int16
  trial : Trial
  rest : List UInt8
  rest_suffix : rest <:+ text

namespace Scan
variable {inner text : List UInt8}

def within (r : Scan inner) (h : inner <:+ text) (finish : Int16 → Int16) : Scan text :=
  ⟨finish r.value, r.trial, r.rest, r.rest_suffix.trans h⟩

def close (r : Scan inner) (h : inner <:+ text) (finish : Int16 → Trial → Int16 × Trial) :
    Scan text :=
  match hr : r.rest with
  | c :: rest =>
    if c = byte ')' then
      ⟨(finish r.value r.trial).1, (finish r.value r.trial).2, rest,
        (hr ▸ List.suffix_cons c rest : rest <:+ r.rest).trans (r.rest_suffix.trans h)⟩
    else ⟨0, r.trial.fail .expectedClosing, r.rest, r.rest_suffix.trans h⟩
  | [] => ⟨0, r.trial.fail .expectedClosing, r.rest, r.rest_suffix.trans h⟩

def parts (r : Scan text) : (Int16 × Trial) × List UInt8 :=
  ((r.value, r.trial), r.rest)

theorem parts_within (r : Scan inner) (h : inner <:+ text) (finish : Int16 → Int16) :
    (r.within h finish).parts = ((finish r.parts.1.1, r.parts.1.2), r.parts.2) :=
  rfl

end Scan

namespace OnePass
variable (s : Surroundings)

mutual

def primary (t : Trial) (text : List UInt8) : Scan text :=
  have hs := Lexeme.skipBlanks_suffix text
  match h : Lexeme.skipBlanks text with
  | [] => ⟨0, t.fail .expectedExpression, [], List.nil_suffix⟩
  | c :: rest =>
    have ht : c :: rest <:+ text := h ▸ hs
    have hr : rest <:+ text := (List.suffix_cons c rest).trans ht
    if c = byte '-' then (primary t rest).within hr (- ·)
    else if c = byte '0' then ⟨0, t, rest, hr⟩
    else if Byte.isDigit c then
      ⟨Decimal.wrapped ((c :: rest).takeWhile Byte.isDigit), t, (c :: rest).dropWhile Byte.isDigit,
        (List.dropWhile_suffix _).trans ht⟩
    else
      match Lexeme.letter? (c :: rest) with
      | some v => ⟨s.fetch v, t, rest, hr⟩
      | none =>
        if Lexeme.startsName (c :: rest) then (call t (c :: rest)).within ht id
        else if c = byte '(' then (relation t rest).close hr Prod.mk
        else ⟨0, t.fail .expectedExpression, c :: rest, ht⟩
termination_by 7 * text.length + 1
decreasing_by all_goals have := ht.length_le; simp only [List.length_cons] at this ⊢; omega

def call (t : Trial) (text : List UInt8) : Scan text :=
  match Lexeme.token Function.vocabulary text, Lexeme.token_suffix Function.vocabulary text with
  | (none, rest), h => ⟨0, t.fail .undefinedFunction, rest, h⟩
  | (some _, []), _ => ⟨0, t.fail .expectedOpening, [], List.nil_suffix⟩
  | (some f, c :: rest), h =>
    if c = byte '(' then (relation t rest).close ((List.suffix_cons c rest).trans h) (f.carryOut s)
    else ⟨0, t.fail .expectedOpening, c :: rest, h⟩
termination_by 7 * text.length
decreasing_by have := h.length_le; simp only [List.length_cons] at this; omega

def factors (left : Int16) (t : Trial) (text : List UInt8) : Scan text :=
  match text with
  | [] => ⟨left, t, [], List.nil_suffix⟩
  | c :: rest =>
    match Expr.factorOperator? c with
    | none => ⟨left, t, c :: rest, List.suffix_refl _⟩
    | some op =>
      match primary t rest with
      | ⟨right, t, after, h⟩ =>
        (factors (op.carryOut left right t).1 (op.carryOut left right t).2 after).within
          (h.trans (List.suffix_cons c rest)) id
termination_by 7 * text.length + 2
decreasing_by
  · simp only [List.length_cons]; omega
  · have := h.length_le; simp only [List.length_cons]; omega

def term (t : Trial) (text : List UInt8) : Scan text :=
  match primary t text with
  | ⟨first, t, after, h⟩ =>
    have hs := (Lexeme.skipBlanks_suffix after).trans h
    (factors first t (Lexeme.skipBlanks after)).within hs id
termination_by 7 * text.length + 3
decreasing_by
  · omega
  · have := hs.length_le; omega

def terms (left : Int16) (t : Trial) (text : List UInt8) : Scan text :=
  match text with
  | [] => ⟨left, t, [], List.nil_suffix⟩
  | c :: rest =>
    match Expr.signOperator? c with
    | none => ⟨left, t, c :: rest, List.suffix_refl _⟩
    | some op =>
      match term t rest with
      | ⟨right, t, after, h⟩ =>
        (terms (op.carryOut left right t).1 (op.carryOut left right t).2 after).within
          (h.trans (List.suffix_cons c rest)) id
termination_by 7 * text.length + 4
decreasing_by
  · simp only [List.length_cons]; omega
  · have := h.length_le; simp only [List.length_cons]; omega

def additive (t : Trial) (text : List UInt8) : Scan text :=
  if (text.head?.bind Expr.signOperator?).isSome then terms 0 t text
  else
    match term t text with
    | ⟨first, t, after, h⟩ => (terms first t after).within h id
termination_by 7 * text.length + 5
decreasing_by
  · omega
  · omega
  · have := h.length_le; omega

def relation (t : Trial) (text : List UInt8) : Scan text :=
  match additive t text with
  | ⟨left, t, after, h⟩ =>
    match Lexeme.token Relation.vocabulary after, Lexeme.token_suffix Relation.vocabulary after with
    | (none, rest), hs => ⟨left, t, rest, hs.trans h⟩
    | (some sign, rest), hs => (additive t rest).within (hs.trans h) (sign.compare left)
termination_by 7 * text.length + 6
decreasing_by
  · omega
  · have := (hs.trans h).length_le; simp only at this; omega

end

end OnePass

def Reading.evaluated (s : Surroundings) (t : Trial) (read : Expr × List UInt8) :
    (Int16 × Trial) × List UInt8 :=
  (read.1.eval s t, read.2)

theorem Scan.parts_close {s : Surroundings} {t : Trial} {inner text : List UInt8} {r : Scan inner}
    {read : Expr × List UInt8} {wrap : Expr → Expr} {finish : Int16 → Trial → Int16 × Trial}
    (hr : r.parts = Reading.evaluated s t read) (h : inner <:+ text)
    (hwrap : ∀ e : Expr, (wrap e).eval s t = finish (e.eval s t).1 (e.eval s t).2) :
    (r.close h finish).parts = Reading.evaluated s t (Reading.closed wrap read) := by
  obtain ⟨x, t', rest, hs⟩ := r
  obtain ⟨e, rest'⟩ := read
  obtain ⟨hvalue, rfl⟩ : (x, t') = e.eval s t ∧ rest = rest' := Prod.mk.inj hr
  cases rest with
  | nil =>
    rw [Reading.closed, Reading.evaluated, Expr.eval, ← hvalue]
    rfl
  | cons c rest =>
    show Scan.parts (if c = byte ')' then _ else _) = _
    rw [Reading.closed]
    split
    · rw [Reading.evaluated, hwrap, ← hvalue]
      rfl
    · rw [Reading.evaluated, Expr.eval, ← hvalue]
      rfl

namespace OnePass
variable (s : Surroundings)

-- Each step of the pass is the step of reading, with the value of what has been read.
mutual

theorem parts_primary (t : Trial) (text : List UInt8) :
    (primary s t text).parts = Reading.evaluated s t (Expr.readPrimary text).parts := by
  have hsuffix := Lexeme.skipBlanks_suffix text
  rw [primary]
  split
  · rename_i hnil
    rw [Expr.parts_readPrimary hnil]
    rfl
  · rename_i c rest hcons
    have hlength : rest.length < text.length := (hcons ▸ hsuffix).length_le
    rw [Expr.parts_readPrimary hcons]
    dsimp only
    split
    · rw [Scan.parts_within, parts_primary t rest]
      rfl
    split
    · rfl
    split
    · rw [Decimal.wrapped_eq]
      rfl
    cases Lexeme.letter? (c :: rest) with
    | some v => rfl
    | none =>
      dsimp only
      split
      · exact parts_call t (c :: rest)
      split
      · exact Scan.parts_close (parts_relation t rest) _ fun e => rfl
      · rfl
termination_by 7 * text.length + 1
decreasing_by
  · omega
  · simp only [List.length_cons]; omega
  · omega

theorem parts_call (t : Trial) (text : List UInt8) :
    (call s t text).parts = Reading.evaluated s t (Expr.readCall text).parts := by
  have hsuffix := Lexeme.token_suffix Function.vocabulary text
  rw [call]
  split
  · rename_i rest _ hfound _
    rw [Expr.parts_readCall hfound]
    rfl
  · rename_i f _ hfound _
    rw [Expr.parts_readCall hfound]
    rfl
  · rename_i f c rest _ hfound _
    rw [hfound] at hsuffix
    have hlength : rest.length < text.length := hsuffix.length_le
    rw [Expr.parts_readCall hfound]
    dsimp only
    split
    · exact Scan.parts_close (parts_relation t rest) _ fun e => rfl
    · rfl
termination_by 7 * text.length
decreasing_by omega

theorem parts_factors (e : Expr) (t : Trial) (text : List UInt8) :
    (factors s (e.eval s t).1 (e.eval s t).2 text).parts = Reading.evaluated s t
      (Expr.readFactors e text).parts := by
  cases text with
  | nil =>
    rw [factors, Expr.parts_readFactors_nil]
    rfl
  | cons c rest =>
    rw [factors, Expr.parts_readFactors_cons]
    cases Expr.factorOperator? c with
    | none => rfl
    | some op =>
      have hsuffix := (Expr.readPrimary rest).length_le
      have hright := parts_primary (e.eval s t).2 rest
      have hnext := parts_factors (.arith op e (Expr.readPrimary rest).expr) t
        (Expr.readPrimary rest).rest
      exact (congrArg (fun p : (Int16 × Trial) × List UInt8 =>
        (factors s (op.carryOut (e.eval s t).1 p.1.1 p.1.2).1
        (op.carryOut (e.eval s t).1 p.1.1 p.1.2).2 p.2).parts) hright).trans hnext
termination_by 7 * text.length + 2
decreasing_by
  · simp only [List.length_cons]; omega
  · simp only [List.length_cons]; omega

theorem parts_term (t : Trial) (text : List UInt8) :
    (term s t text).parts = Reading.evaluated s t (Expr.readTerm text).parts := by
  have hsuffix := ((Lexeme.skipBlanks_suffix _).trans (Expr.readPrimary text).rest_suffix).length_le
  have hfirst := parts_primary t text
  have hnext := parts_factors (Expr.readPrimary text).expr t
    (Lexeme.skipBlanks (Expr.readPrimary text).rest)
  rw [term, Expr.parts_readTerm]
  exact (congrArg (fun p : (Int16 × Trial) × List UInt8 =>
    (factors s p.1.1 p.1.2 (Lexeme.skipBlanks p.2)).parts) hfirst).trans hnext
termination_by 7 * text.length + 3
decreasing_by
  · omega
  · omega

theorem parts_terms (e : Expr) (t : Trial) (text : List UInt8) :
    (terms s (e.eval s t).1 (e.eval s t).2 text).parts = Reading.evaluated s t
      (Expr.readTerms e text).parts := by
  cases text with
  | nil =>
    rw [terms, Expr.parts_readTerms_nil]
    rfl
  | cons c rest =>
    rw [terms, Expr.parts_readTerms_cons]
    cases Expr.signOperator? c with
    | none => rfl
    | some op =>
      have hsuffix := (Expr.readTerm rest).length_le
      have hright := parts_term (e.eval s t).2 rest
      have hnext := parts_terms (.arith op e (Expr.readTerm rest).expr) t (Expr.readTerm rest).rest
      exact (congrArg (fun p : (Int16 × Trial) × List UInt8 =>
        (terms s (op.carryOut (e.eval s t).1 p.1.1 p.1.2).1
        (op.carryOut (e.eval s t).1 p.1.1 p.1.2).2 p.2).parts) hright).trans hnext
termination_by 7 * text.length + 4
decreasing_by
  · simp only [List.length_cons]; omega
  · simp only [List.length_cons]; omega

theorem parts_additive (t : Trial) (text : List UInt8) :
    (additive s t text).parts = Reading.evaluated s t (Expr.readAdditive text).parts := by
  rw [additive, Expr.parts_readAdditive]
  split
  · exact parts_terms .absent t text
  · have hsuffix := (Expr.readTerm text).length_le
    have hfirst := parts_term t text
    have hnext := parts_terms (Expr.readTerm text).expr t (Expr.readTerm text).rest
    exact (congrArg (fun p : (Int16 × Trial) × List UInt8 => (terms s p.1.1 p.1.2 p.2).parts)
      hfirst).trans hnext
termination_by 7 * text.length + 5
decreasing_by
  · omega
  · omega
  · omega

theorem parts_relation (t : Trial) (text : List UInt8) :
    (relation s t text).parts = Reading.evaluated s t (Expr.readRelation text).parts := by
  have hleft := parts_additive t text
  rw [relation]
  dsimp only
  split
  · rename_i rest _ hfound _
    have hread := (congrArg (fun p => Lexeme.token Relation.vocabulary p.2) hleft).symm.trans hfound
    rw [Expr.parts_readRelation hread]
    exact congrArg (fun p => (p.1, rest)) hleft
  · rename_i sign rest hsuffix hfound _
    have hread := (congrArg (fun p => Lexeme.token Relation.vocabulary p.2) hleft).symm.trans hfound
    have hlength : rest.length ≤ text.length :=
      (hsuffix.trans (additive s t text).rest_suffix).length_le
    have hright := parts_additive (additive s t text).trial rest
    have hvalue : (additive s t text).value = ((Expr.readAdditive text).expr.eval s t).1 :=
      congrArg (·.1.1) hleft
    have htrial : (additive s t text).trial = ((Expr.readAdditive text).expr.eval s t).2 :=
      congrArg (·.1.2) hleft
    rw [Expr.parts_readRelation hread, Scan.parts_within, hright, hvalue, htrial]
    rfl
termination_by 7 * text.length + 6
decreasing_by
  · omega
  · omega

end

end OnePass

/-- A fault of the arithmetic, which may come and go with the values. Every other fault is in the
text. -/
def Diagnostic.isArithmetic : Diagnostic → Bool
  | divisionByZero | peekOutOfRange | randomBelowZero => true
  | _ => false

theorem Operator.isArithmetic_of_apply {op : Operator} {x y : Int16} {why : Diagnostic}
    (h : op.apply x y = .error why) :
    why.isArithmetic = true := by
  cases op with
  | sum | difference | product => cases h
  | quotient | remainder =>
    rw [apply] at h
    split at h
    · cases h
      rfl
    · cases h

theorem Function.isArithmetic_of_apply {f : Function} {s : Surroundings} {g g' : Generator}
    {x : Int16} {why : Diagnostic} (h : f.apply s g x = (.error why, g')) :
    why.isArithmetic = true := by
  cases f with
  | abs | aread | dread => cases h
  | peek =>
    have hpeek : s.peekValue x = .error why := congrArg Prod.fst h
    rw [Surroundings.peekValue] at hpeek
    split at hpeek
    · cases hpeek
    · cases hpeek
      rfl
  | rnd =>
    rw [apply, Generator.below?] at h
    split at h
    · cases h
      rfl
    · cases h

namespace Trial
variable {t : Trial} {why : Diagnostic}

def Wellformed (t : Trial) : Prop :=
  ∀ why ∈ t.fault, why.isArithmetic = true

theorem Wellformed.fail (ht : t.Wellformed) (hw : why.isArithmetic = true) :
    (t.fail why).Wellformed := by
  intro first hfirst
  obtain hfirst | ⟨-, hfirst⟩ := Option.or_eq_some_iff.1 hfirst
  · exact ht first hfirst
  · cases hfirst
    exact hw

end Trial

namespace Expr
variable {s : Surroundings} {e : Expr}

theorem wellformed_eval (hc : e.Clean) {t : Trial} (ht : t.Wellformed) :
    (e.eval s t).2.Wellformed := by
  -- Each operator adds at most a fault of its own, which is one of the arithmetic.
  induction e generalizing t with
  | literal | var | absent => exact ht
  | negate e ih | group e ih => exact ih hc ht
  | arith op left right ihl ihr =>
    have hboth := ihr hc.2 (ihl hc.1 ht)
    simp only [eval]
    split
    · exact hboth
    · exact hboth.fail (Operator.isArithmetic_of_apply ‹_›)
  | compare relation left right ihl ihr => exact ihr hc.2 (ihl hc.1 ht)
  | call f argument ih =>
    have hargument := ih hc ht
    simp only [eval]
    split
    · exact hargument
    · rename_i hfault
      exact Trial.Wellformed.fail (t := { (argument.eval s t).2 with generator := _ }) hargument
        (Function.isArithmetic_of_apply hfault)
  | unclosed | malformed => exact absurd hc id

theorem isArithmetic_of_evaluate (hc : e.Clean) {g : Generator} {why : Diagnostic}
    (h : (e.evaluate s g).1 = .error why) : why.isArithmetic = true := by
  have hwell := wellformed_eval (s := s) hc (t := { generator := g }) fun _ hnone => by cases hnone
  rw [evaluate] at h
  dsimp only at h
  split at h
  · cases h
  · rename_i first hfirst
    cases h
    exact hwell _ hfirst

end Expr

/-- The expression at the cursor, evaluated in one pass, and the cursor after it. -/
def Cursor.scan (c : Cursor) (s : Surroundings) (g : Generator) :
    (Except Diagnostic Int16 × Generator) × Cursor :=
  let r := OnePass.relation s { generator := g } c.rest
  (match r.trial.fault with
    | none => (.ok r.value, r.trial.generator)
    | some why => (.error why, r.trial.generator),
    c.moveTo r.rest)

/-- One pass gives what the tree gives, and ends where reading ends. -/
theorem Cursor.scan_eq (c : Cursor) (s : Surroundings) (g : Generator) :
    c.scan s g = (c.expression.1.evaluate s g, c.expression.2) := by
  have hparts := OnePass.parts_relation s { generator := g } c.rest
  have hvalue : (OnePass.relation s { generator := g } c.rest).value =
      (c.expression.1.eval s { generator := g }).1 :=
    congrArg (·.1.1) hparts
  have htrial : (OnePass.relation s { generator := g } c.rest).trial =
      (c.expression.1.eval s { generator := g }).2 :=
    congrArg (·.1.2) hparts
  have hrest : (OnePass.relation s { generator := g } c.rest).rest =
      (Expr.readRelation c.rest).rest :=
    congrArg Prod.snd hparts
  rw [scan, Expr.evaluate]
  dsimp only
  rw [hvalue, htrial, hrest]
  rfl

end LineBasic
