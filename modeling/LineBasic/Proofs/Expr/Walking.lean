import LineBasic.Proofs.Expr.OnePass
import LineBasic.Proofs.Walking

namespace LineBasic
namespace Walk

def letter? (c : Cursor) : Option Variable :=
  if Byte.isUpper c.peek && !Byte.isUpper (c.peekAt 1) then Variable.ofLetter? c.peek else none

def startsName (c : Cursor) : Bool :=
  Byte.isUpper c.peek && Byte.isUpper (c.peekAt 1)

/-- The digits after a value, which wraps to 16 bits after each of them. -/
def digits (x : Int16) : Nat → Cursor → Option (Int16 × Cursor)
  | 0, _ => none
  | fuel + 1, c =>
    if Byte.isDigit c.peek then digits (10 * x + Int16.ofNat (Byte.digitValue c.peek)) fuel
      c.advance else some (x, c)

def close (finish : Int16 → Trial → Int16 × Trial) (x : Int16) (t : Trial) (c : Cursor) :
    (Int16 × Trial) × Cursor :=
  if c.peek = byte ')' then (finish x t, c.advance) else ((0, t.fail .expectedClosing), c)

section
variable (s : Surroundings)

mutual

def primary (t : Trial) : Nat → Cursor → Option ((Int16 × Trial) × Cursor)
  | 0, _ => none
  | fuel + 1, c => do
    let c ← blanks fuel c
    if c.peek = byte '-' then
      let ((x, t), c) ← primary t fuel c.advance
      return ((-x, t), c)
    else if c.peek = byte '0' then return ((0, t), c.advance)
    else if Byte.isDigit c.peek then
      let (x, c) ← digits 0 fuel c
      return ((x, t), c)
    else
      match letter? c with
      | some v => return ((s.fetch v, t), c.advance)
      | none =>
        if startsName c then call t fuel c
        else if c.peek = byte '(' then
          let ((x, t), c) ← relation t fuel c.advance
          return close Prod.mk x t c
        else return ((0, t.fail .expectedExpression), c)

def call (t : Trial) : Nat → Cursor → Option ((Int16 × Trial) × Cursor)
  | 0, _ => none
  | fuel + 1, c => do
    let (found, c) ← token Function.vocabulary fuel c
    match found with
    | none => return ((0, t.fail .undefinedFunction), c)
    | some f =>
      if c.peek = byte '(' then
        let ((x, t), c) ← relation t fuel c.advance
        return close (f.carryOut s) x t c
      else return ((0, t.fail .expectedOpening), c)

def factors (left : Int16) (t : Trial) : Nat → Cursor → Option ((Int16 × Trial) × Cursor)
  | 0, _ => none
  | fuel + 1, c =>
    match Expr.factorOperator? c.peek with
    | none => some ((left, t), c)
    | some op => do
      let ((right, t), c) ← primary t fuel c.advance
      factors (op.carryOut left right t).1 (op.carryOut left right t).2 fuel c

def term (t : Trial) : Nat → Cursor → Option ((Int16 × Trial) × Cursor)
  | 0, _ => none
  | fuel + 1, c => do
    let ((left, t), c) ← primary t fuel c
    factors left t fuel (← blanks fuel c)

def terms (left : Int16) (t : Trial) : Nat → Cursor → Option ((Int16 × Trial) × Cursor)
  | 0, _ => none
  | fuel + 1, c =>
    match Expr.signOperator? c.peek with
    | none => some ((left, t), c)
    | some op => do
      let ((right, t), c) ← term t fuel c.advance
      terms (op.carryOut left right t).1 (op.carryOut left right t).2 fuel c

def additive (t : Trial) : Nat → Cursor → Option ((Int16 × Trial) × Cursor)
  | 0, _ => none
  | fuel + 1, c =>
    if (Expr.signOperator? c.peek).isSome then terms 0 t fuel c
    else do
      let ((left, t), c) ← term t fuel c
      terms left t fuel c

def relation (t : Trial) : Nat → Cursor → Option ((Int16 × Trial) × Cursor)
  | 0, _ => none
  | fuel + 1, c => do
    let ((left, t), c) ← additive t fuel c
    let (found, c) ← token Relation.vocabulary fuel c
    match found with
    | none => return ((left, t), c)
    | some sign =>
      let ((right, t), c) ← additive t fuel c
      return ((sign.compare left right, t), c)

end

/-- The value of the expression at the cursor or its first fault, with the generator after all its
draws. -/
def expression (g : Generator) (fuel : Nat) (c : Cursor) :
    Option ((Except Diagnostic Int16 × Generator) × Cursor) := do
  let ((x, t), c) ← relation s { generator := g } fuel c
  match t.fault with
  | none => return ((.ok x, t.generator), c)
  | some why => return ((.error why, t.generator), c)

end

section
variable {c : Cursor} {text : List UInt8} {b : UInt8} {rest : List UInt8}

theorem peekAt_one_moveTo (h : b :: rest <:+ c.rest) :
    (c.moveTo (b :: rest)).peekAt 1 = rest.head?.getD Byte.marker := by
  rw [← Cursor.peek_moveTo ((List.suffix_cons b rest).trans h), ← Cursor.advance_moveTo h]
  rfl

theorem letter?_moveTo (h : text <:+ c.rest) : letter? (c.moveTo text) = Lexeme.letter? text := by
  cases text with
  | nil =>
    rw [letter?, Cursor.peek_moveTo_nil]
    rfl
  | cons b rest =>
    -- The end of the line is no letter, so it may stand for the missing next byte.
    have hnext : Byte.isUpper (rest.head?.getD Byte.marker) = rest.head?.any Byte.isUpper := by
      cases rest with
      | nil => rfl
      | cons d rest => rfl
    rw [letter?, Cursor.peek_moveTo_cons h, peekAt_one_moveTo h, hnext, Lexeme.letter?]
    by_cases hb : Byte.isUpper b = true
    · cases hd : rest.head?.any Byte.isUpper with
      | false => simp [hb]
      | true => simp
    · simp [Variable.ofLetter?_of_not_isUpper hb]

theorem startsName_moveTo (h : text <:+ c.rest) :
    startsName (c.moveTo text) = Lexeme.startsName text := by
  cases text with
  | nil =>
    rw [startsName, Cursor.peek_moveTo_nil]
    rfl
  | cons b rest =>
    rw [startsName, Cursor.peek_moveTo_cons h, peekAt_one_moveTo h]
    cases rest with
    | nil => exact Bool.and_false _
    | cons d rest => rfl

theorem digits_moveTo (x : Int16) (h : text <:+ c.rest) {fuel : Nat} (hf : text.length < fuel) :
    digits x fuel (c.moveTo text) =
      some ((text.takeWhile Byte.isDigit).foldl (fun x d => 10 * x +
        Int16.ofNat (Byte.digitValue d)) x,
        c.moveTo (text.dropWhile Byte.isDigit)) := by
  induction text generalizing x fuel with
  | nil =>
    obtain ⟨fuel, rfl⟩ := Nat.exists_eq_add_of_lt hf
    rw [digits, Cursor.peek_moveTo_nil, if_neg (by decide)]
    rfl
  | cons d rest ih =>
    cases fuel with
    | zero => cases hf
    | succ fuel =>
      rw [digits, Cursor.peek_moveTo_cons h, Cursor.advance_moveTo h,
        ih _ ((List.suffix_cons d rest).trans h) (Nat.lt_of_succ_lt_succ hf)]
      by_cases hd : Byte.isDigit d = true
      · simp [hd]
      · simp [hd]

end

def landed (s : Surroundings) (t : Trial) (c : Cursor) (read : Expr × List UInt8) :
    (Int16 × Trial) × Cursor :=
  (read.1.eval s t, c.moveTo read.2)

theorem close_landed {s : Surroundings} {t : Trial} {c : Cursor} {read : Expr × List UInt8}
    (hr : read.2 <:+ c.rest) (wrap : Expr → Expr) (finish : Int16 → Trial → Int16 × Trial)
    (hwrap : ∀ e : Expr, (wrap e).eval s t = finish (e.eval s t).1 (e.eval s t).2) :
    close finish (read.1.eval s t).1 (read.1.eval s t).2 (c.moveTo read.2) =
      landed s t c (Reading.closed wrap read) := by
  obtain ⟨e, rest⟩ := read
  cases rest with
  | nil =>
    rw [close, Cursor.peek_moveTo_nil]
    rfl
  | cons b rest =>
    rw [close, Cursor.peek_moveTo_cons hr, Cursor.advance_moveTo hr, Reading.closed]
    by_cases hb : b = byte ')'
    · simp [hb, landed, hwrap]
    · simp [hb, landed, Expr.eval]

section
variable (s : Surroundings) {c : Cursor}

-- Each step of a walk is the step of reading, with the value of what has been read. The induction
-- is on the fuel, which is enough for a part and for the parts that start where it starts; every
-- other part has a byte in front of it.
mutual

theorem primary_moveTo (t : Trial) {text : List UInt8} (h : text <:+ c.rest) {fuel : Nat}
    (hf : 7 * text.length + 3 ≤ fuel) :
    primary s t fuel (c.moveTo text) = some (landed s t c (Expr.readPrimary text).parts) := by
  cases fuel with
  | zero => cases hf
  | succ fuel =>
    have hblanks := Lexeme.skipBlanks_suffix text
    have hskipped := hblanks.trans h
    rw [primary, blanks_moveTo h (by omega)]
    simp only [Option.bind_eq_bind, Option.bind_some]
    cases hskip : Lexeme.skipBlanks text with
    | nil =>
      rw [hskip] at hskipped
      rw [Expr.parts_readPrimary hskip, letter?_moveTo hskipped, startsName_moveTo hskipped,
        Cursor.peek_moveTo_nil]
      rw [if_neg (by decide), if_neg (by decide), if_neg (by decide)]
      exact if_neg (by decide)
    | cons b rest =>
      rw [hskip] at hblanks hskipped
      have hlength := hblanks.length_le
      rw [List.length_cons] at hlength
      have hrest := (List.suffix_cons b rest).trans hskipped
      have hclosed := (Expr.readRelation rest).parts_suffix.trans hrest
      have hcons : 7 * (b :: rest).length + 2 ≤ fuel := by rw [List.length_cons]; omega
      -- All that either reading may call is rewritten at once, so that the branches can be compared
      -- one by one.
      rw [Expr.parts_readPrimary hskip, Cursor.peek_moveTo_cons hskipped,
        Cursor.advance_moveTo hskipped, letter?_moveTo hskipped, startsName_moveTo hskipped,
        digits_moveTo 0 hskipped (by omega), primary_moveTo t hrest (by omega),
        relation_moveTo t hrest (by omega), call_moveTo t hskipped hcons]
      dsimp only [Option.bind_some]
      by_cases hminus : b = byte '-'
      · rw [if_pos hminus, if_pos hminus]
        rfl
      rw [if_neg hminus, if_neg hminus]
      by_cases hzero : b = byte '0'
      · rw [if_pos hzero, if_pos hzero]
        rfl
      rw [if_neg hzero, if_neg hzero]
      by_cases hdigit : Byte.isDigit b = true
      · rw [if_pos hdigit, if_pos hdigit, landed, Expr.eval, ← Decimal.wrapped_eq]
        rfl
      rw [if_neg hdigit, if_neg hdigit]
      cases Lexeme.letter? (b :: rest) with
      | some v => rfl
      | none =>
        dsimp only
        by_cases hname : Lexeme.startsName (b :: rest) = true
        · rw [if_pos hname, if_pos hname]
        rw [if_neg hname, if_neg hname]
        by_cases hopen : b = byte '('
        · rw [if_pos hopen, if_pos hopen, ← close_landed hclosed .group Prod.mk fun e => rfl]
          rfl
        · rw [if_neg hopen, if_neg hopen]
          rfl
termination_by fuel

theorem call_moveTo (t : Trial) {text : List UInt8} (h : text <:+ c.rest) {fuel : Nat}
    (hf : 7 * text.length + 2 ≤ fuel) :
    call s t fuel (c.moveTo text) = some (landed s t c (Expr.readCall text).parts) := by
  cases fuel with
  | zero => cases hf
  | succ fuel =>
    have hsuffix := Lexeme.token_suffix Function.vocabulary text
    rw [call, token_moveTo (by decide) h (by omega), Expr.parts_readCall rfl]
    rcases hfound : Lexeme.token Function.vocabulary text with ⟨found, after⟩
    rw [hfound] at hsuffix
    simp only [Option.bind_eq_bind, Option.bind_some]
    cases found with
    | none => rfl
    | some f =>
      cases after with
      | nil =>
        dsimp only
        rw [Cursor.peek_moveTo_nil]
        exact if_neg (by decide)
      | cons b rest =>
        have hlength : rest.length < text.length := hsuffix.length_le
        have hrest := ((List.suffix_cons b rest).trans hsuffix).trans h
        have hclosed := (Expr.readRelation rest).parts_suffix.trans hrest
        dsimp only
        rw [Cursor.peek_moveTo_cons (hsuffix.trans h), Cursor.advance_moveTo (hsuffix.trans h),
          relation_moveTo t hrest (by omega)]
        dsimp only [Option.bind_some]
        by_cases hopen : b = byte '('
        · rw [if_pos hopen, if_pos hopen, ← close_landed hclosed (.call f) (f.carryOut s)
            fun e => rfl]
          rfl
        · rw [if_neg hopen, if_neg hopen]
          rfl
termination_by fuel

theorem factors_moveTo (e : Expr) (t : Trial) {text : List UInt8} (h : text <:+ c.rest) {fuel : Nat}
    (hf : 7 * text.length + 4 ≤ fuel) :
    factors s (e.eval s t).1 (e.eval s t).2 fuel (c.moveTo text) =
      some (landed s t c (Expr.readFactors e text).parts) := by
  cases fuel with
  | zero => cases hf
  | succ fuel =>
    cases text with
    | nil =>
      rw [factors, Cursor.peek_moveTo_nil, Expr.parts_readFactors_nil]
      rfl
    | cons b rest =>
      have hrest := (List.suffix_cons b rest).trans h
      have hsuffix := (Expr.readPrimary rest).parts_suffix
      have hlength := hsuffix.length_le
      rw [List.length_cons] at hf
      rw [factors, Cursor.peek_moveTo_cons h, Expr.parts_readFactors_cons, Cursor.advance_moveTo h,
        primary_moveTo _ hrest (by omega)]
      cases Expr.factorOperator? b with
      | none => rfl
      | some op =>
        exact factors_moveTo (.arith op e (Expr.readPrimary rest).parts.1) t
          (hsuffix.trans hrest) (by omega)
termination_by fuel

theorem term_moveTo (t : Trial) {text : List UInt8} (h : text <:+ c.rest) {fuel : Nat}
    (hf : 7 * text.length + 5 ≤ fuel) :
    term s t fuel (c.moveTo text) = some (landed s t c (Expr.readTerm text).parts) := by
  cases fuel with
  | zero => cases hf
  | succ fuel =>
    have hsuffix := (Expr.readPrimary text).parts_suffix
    have hlength := hsuffix.length_le
    have hblanks := (Lexeme.skipBlanks_suffix _).trans hsuffix
    have hskipped := hblanks.length_le
    rw [term, primary_moveTo t h (by omega), Expr.parts_readTerm]
    simp only [Option.bind_eq_bind, Option.bind_some, landed]
    rw [blanks_moveTo (hsuffix.trans h) (by omega)]
    exact factors_moveTo (Expr.readPrimary text).parts.1 t (hblanks.trans h) (by omega)
termination_by fuel

theorem terms_moveTo (e : Expr) (t : Trial) {text : List UInt8} (h : text <:+ c.rest) {fuel : Nat}
    (hf : 7 * text.length + 6 ≤ fuel) : terms s (e.eval s t).1 (e.eval s t).2 fuel (c.moveTo text) =
      some (landed s t c (Expr.readTerms e text).parts) := by
  cases fuel with
  | zero => cases hf
  | succ fuel =>
    cases text with
    | nil =>
      rw [terms, Cursor.peek_moveTo_nil, Expr.parts_readTerms_nil]
      rfl
    | cons b rest =>
      have hrest := (List.suffix_cons b rest).trans h
      have hsuffix := (Expr.readTerm rest).parts_suffix
      have hlength := hsuffix.length_le
      rw [List.length_cons] at hf
      rw [terms, Cursor.peek_moveTo_cons h, Expr.parts_readTerms_cons, Cursor.advance_moveTo h,
        term_moveTo _ hrest (by omega)]
      cases Expr.signOperator? b with
      | none => rfl
      | some op =>
        have hlonger := hsuffix.trans hrest
        exact terms_moveTo (.arith op e (Expr.readTerm rest).parts.1) t hlonger (by omega)
termination_by fuel

theorem additive_moveTo (t : Trial) {text : List UInt8} (h : text <:+ c.rest) {fuel : Nat}
    (hf : 7 * text.length + 7 ≤ fuel) :
    additive s t fuel (c.moveTo text) = some (landed s t c (Expr.readAdditive text).parts) := by
  cases fuel with
  | zero => cases hf
  | succ fuel =>
    have hsign : (Expr.signOperator? (text.head?.getD Byte.marker)).isSome =
        (text.head?.bind Expr.signOperator?).isSome := by
      cases text with
      | nil => rfl
      | cons b rest => rfl
    rw [additive, Cursor.peek_moveTo h, hsign, Expr.parts_readAdditive]
    split
    · exact terms_moveTo .absent t h (by omega)
    · have hsuffix := (Expr.readTerm text).parts_suffix
      have hlength := hsuffix.length_le
      rw [term_moveTo t h (by omega)]
      exact terms_moveTo (Expr.readTerm text).parts.1 t (hsuffix.trans h) (by omega)
termination_by fuel

theorem relation_moveTo (t : Trial) {text : List UInt8} (h : text <:+ c.rest) {fuel : Nat}
    (hf : 7 * text.length + 8 ≤ fuel) :
    relation s t fuel (c.moveTo text) = some (landed s t c (Expr.readRelation text).parts) := by
  cases fuel with
  | zero => cases hf
  | succ fuel =>
    have hleft := (Expr.readAdditive text).parts_suffix
    have hshorter := hleft.length_le
    have hsuffix := (Lexeme.token_suffix Relation.vocabulary _).trans hleft
    rw [relation, additive_moveTo t h (by omega), Expr.parts_readRelation rfl]
    simp only [Option.bind_eq_bind, Option.bind_some, landed]
    rw [token_moveTo (by decide) (hleft.trans h) (by omega)]
    dsimp only [Option.bind_some]
    rcases hfound : Lexeme.token Relation.vocabulary
      (Expr.readAdditive text).parts.2 with ⟨found, rest⟩
    rw [hfound] at hsuffix
    have hlength : rest.length ≤ text.length := hsuffix.length_le
    have hright : 7 * rest.length + 7 ≤ fuel := by omega
    cases found with
    | none => rfl
    | some sign =>
      dsimp only
      rw [additive_moveTo _ (hsuffix.trans h) hright]
      rfl
termination_by fuel

end
end

theorem expression_eq (s : Surroundings) (g : Generator) (c : Cursor) (fuel : Nat)
    (hf : reach c ≤ fuel) :
    expression s g fuel c = some (c.expression.1.evaluate s g, c.expression.2) := by
  have hrelation := relation_moveTo s { generator := g } (List.suffix_refl c.rest) hf
  rw [Cursor.moveTo_rest] at hrelation
  -- What is read from the rest of the line is the expression at the cursor.
  change _ = some (c.expression.1.eval s { generator := g }, c.expression.2) at hrelation
  rw [expression, hrelation, Expr.evaluate]
  rcases c.expression.1.eval s { generator := g } with ⟨x, t⟩
  simp only [Option.bind_eq_bind, Option.bind_some]
  cases t.fault with
  | none => rfl
  | some why => rfl

end Walk

/-- Whatever bytes it starts at, a walk ends, and it ends in the line it starts in: at the first
marker at the latest, or at the end of the text. What it gives and where it ends do not depend on
the bytes behind the marker. -/
theorem scanning_ends_in_line :
    Walk.Local (fun fuel c => (Walk.blanks fuel c).map ((), ·)) (fun c => ((), c.skipBlanks)) ∧
    (∀ b, b ≠ Byte.marker → Walk.Local (Walk.expect b) fun c => c.expect b) ∧
    (∀ {τ : Type} (vocabulary : Vocabulary τ), vocabulary.Unmarked →
      Walk.Local (Walk.token vocabulary) fun c => c.token vocabulary) ∧
    (Keyword.vocabulary.Unmarked ∧ Function.vocabulary.Unmarked ∧ Relation.vocabulary.Unmarked ∧
      LoopBound.vocabulary.Unmarked ∧ LoopStep.vocabulary.Unmarked) ∧
    Walk.Local Walk.lineNumber Cursor.lineNumber ∧
    Walk.Local Walk.quoted Walk.literal ∧
    ∀ (s : Surroundings) (g : Generator),
      Walk.Local (Walk.expression s g) fun c => (c.expression.1.evaluate s g, c.expression.2) := by
  refine ⟨?blanks, fun b hb => ?expect, fun vocabulary hv => ?token, by decide,
    ?lineNumber, ?quoted,
    fun s g => ?expression⟩
  case blanks =>
    refine Walk.local_of_like (fun c fuel hf => ?_) Cursor.skipBlanks_within fun h =>
      ⟨rfl, h.skipBlanks⟩
    rw [Walk.blanks_eq c (Walk.length_lt_of_reach hf)]
    rfl
  case expect =>
    exact Walk.local_of_like (fun c fuel hf => Walk.expect_eq hb c (Walk.length_lt_of_reach hf))
      (fun c => c.expect_within hb) fun h => h.expect hb
  case token =>
    exact Walk.local_of_like (fun c fuel hf => Walk.token_eq hv c (Walk.length_lt_of_reach hf))
      (fun c => c.token_within vocabulary) fun h => h.token vocabulary
  case lineNumber =>
    exact Walk.local_of_like (fun c fuel hf => Walk.lineNumber_eq c (Walk.length_lt_of_reach hf))
      Cursor.lineNumber_within Cursor.Like.lineNumber
  case quoted =>
    exact Walk.local_of_like (fun c fuel hf => Walk.quoted_eq c (Walk.length_lt_of_reach hf))
      Walk.literal_within Walk.literal_alike
  case expression =>
    refine Walk.local_of_like (Walk.expression_eq s g) Cursor.expression_within fun h => ?_
    obtain ⟨htree, hlike⟩ := h.expression
    exact ⟨by rw [htree], hlike⟩

/-- A line whose last word goes on behind the marker. -/
def wordAcross (beyond : String) : Array UInt8 :=
  (ascii "= GO" ++ Byte.marker :: ascii beyond).toArray

/-- The rest of the word is not read, whatever it is. -/
theorem scanning_ends_in_line_of_word_across :
    (byte '=' ≠ Byte.marker ∧ Keyword.vocabulary.Unmarked ∧
      Cursor.Agrees ⟨wordAcross "TO 10", 0⟩ ⟨wordAcross "SUB", 0⟩) ∧
    Walk.expect (byte '=') 36 ⟨wordAcross "TO 10", 0⟩ = some (true, ⟨wordAcross "TO 10", 2⟩) ∧
    Walk.token Keyword.vocabulary 36 ⟨wordAcross "TO 10", 2⟩ = some
      (none, ⟨wordAcross "TO 10", 2⟩) ∧
    (Cursor.expect ⟨wordAcross "SUB", 0⟩ (byte '=')).2.pos = 2 := by
  have hequals : byte '=' ≠ Byte.marker := by decide
  have hwords : Keyword.vocabulary.Unmarked := by decide
  have hagrees : Cursor.Agrees ⟨wordAcross "TO 10", 0⟩ ⟨wordAcross "SUB", 0⟩ := by
    have hbytes : ∀ i : Fin 5, (wordAcross "SUB").getD i Byte.marker = (wordAcross "TO 10").getD i
        Byte.marker := by
      decide
    exact ⟨rfl, fun i _ hi => hbytes ⟨i, Nat.lt_succ_of_le hi⟩⟩
  have hexpect := scanning_ends_in_line.2.1 _ hequals
  have htoken := scanning_ends_in_line.2.2.1 _ hwords
  exact ⟨⟨hequals, hwords, hagrees⟩, hexpect.ends _ 36 (by decide), htoken.ends _ 36 (by decide),
    (hexpect.alike hagrees).2⟩

end LineBasic
