import LineBasic.Proofs.Expr.Grammar
import LineBasic.Proofs.Expr.Reading
import LineBasic.Proofs.Text

namespace LineBasic

namespace Expr

def stopsPrimary (b : UInt8) : Bool :=
  !Byte.isDigit b && !Byte.isUpper b && !Byte.isBlank b

def stopsTerm (b : UInt8) : Bool :=
  (factorOperator? b).isNone

def stopsAdditive (b : UInt8) : Bool :=
  stopsTerm b && (signOperator? b).isNone

def stopsSign (b : UInt8) : Bool :=
  !(b = byte '<' || b = byte '>' || b = byte '=' || b = byte '!')

def stopsRelation (b : UInt8) : Bool :=
  stopsAdditive b && stopsSign b

def Begins (p : UInt8 → Bool) (text : List UInt8) : Prop :=
  ∀ b rest, text = b :: rest → p b = true

theorem Begins.mono {p q : UInt8 → Bool} {text : List UInt8} (h : Begins p text)
    (hpq : ∀ b, p b = true → q b = true) :
    Begins q text :=
  fun b rest he => hpq b (h b rest he)

theorem begins_cons {p : UInt8 → Bool} {b : UInt8} {rest : List UInt8} (h : p b = true) :
    Begins p (b :: rest) := by
  intro c rest' he
  rw [← (List.cons.inj he).1]
  exact h

def orBlank (p : UInt8 → Bool) (b : UInt8) : Bool :=
  Byte.isBlank b || p b

theorem orBlank_mono {p q : UInt8 → Bool} (h : ∀ b, p b = true → q b = true) (b : UInt8)
    (hb : orBlank p b = true) :
    orBlank q b = true :=
  Bool.or_eq_true_iff.2 ((Bool.or_eq_true_iff.1 hb).imp_right (h b))

theorem Begins.orBlank {p : UInt8 → Bool} {text : List UInt8}
    (h : Begins p (Lexeme.skipBlanks text)) :
    Begins (orBlank p) text := by
  intro b rest he
  subst he
  rw [Expr.orBlank, Bool.or_eq_true_iff]
  by_cases hb : Byte.isBlank b = true
  · exact Or.inl hb
  · exact Or.inr (h b rest (List.dropWhile_cons_of_neg hb))

section
variable {text : List UInt8} {b : UInt8}

theorem stopsTerm_of_stopsAdditive (h : stopsAdditive b = true) : stopsTerm b = true :=
  (Bool.and_eq_true_iff.1 h).1

theorem stopsAdditive_of_stopsRelation (h : stopsRelation b = true) : stopsAdditive b = true :=
  (Bool.and_eq_true_iff.1 h).1

theorem stopsSign_of_stopsRelation (h : stopsRelation b = true) : stopsSign b = true :=
  (Bool.and_eq_true_iff.1 h).2

theorem not_isDigit_of_orBlank (h : orBlank stopsPrimary b = true) : ¬ Byte.isDigit b = true := by
  intro hd
  simp [orBlank, stopsPrimary, hd, Byte.isBlank_of_isDigit hd] at h

theorem not_isUpper_of_orBlank (h : orBlank stopsPrimary b = true) : ¬ Byte.isUpper b = true := by
  intro hu
  rcases Bool.or_eq_true_iff.1 h with hb | hb
  · rcases Bool.or_eq_true_iff.1 hb with hb | hb
    · rw [of_decide_eq_true hb] at hu
      cases hu
    · rw [of_decide_eq_true hb] at hu
      cases hu
  · simp [stopsPrimary, hu] at hb

theorem not_isBlank_of_stopsPrimary (h : stopsPrimary b = true) : ¬ Byte.isBlank b = true := by
  intro hb
  simp [stopsPrimary, hb] at h

theorem skipBlanks_cons (h : ¬ Byte.isBlank b = true) (rest : List UInt8) :
    Lexeme.skipBlanks (b :: rest) = b :: rest :=
  List.dropWhile_cons_of_neg h

theorem skipBlanks_of_begins (h : Begins stopsPrimary text) : Lexeme.skipBlanks text = text := by
  cases text with
  | nil => rfl
  | cons b rest => exact skipBlanks_cons (not_isBlank_of_stopsPrimary (h b rest rfl)) rest

theorem operator?_of_isBlank (h : Byte.isBlank b = true) :
    factorOperator? b = none ∧ signOperator? b = none := by
  rcases Bool.or_eq_true_iff.1 h with hb | hb
  · rw [of_decide_eq_true hb]
    exact ⟨rfl, rfl⟩
  · rw [of_decide_eq_true hb]
    exact ⟨rfl, rfl⟩

theorem parts_readFactors_stop (left : Expr) (h : Begins (orBlank stopsTerm) text) :
    (readFactors left text).parts = (left, text) := by
  cases text with
  | nil => exact parts_readFactors_nil left
  | cons b rest =>
    have hnone : factorOperator? b = none := by
      rcases Bool.or_eq_true_iff.1 (h b rest rfl) with hb | hb
      · exact (operator?_of_isBlank hb).1
      · exact Option.isNone_iff_eq_none.1 hb
    rw [parts_readFactors_cons, hnone]

theorem parts_readTerms_stop (left : Expr) (h : Begins (orBlank stopsAdditive) text) :
    (readTerms left text).parts = (left, text) := by
  cases text with
  | nil => exact parts_readTerms_nil left
  | cons b rest =>
    have hnone : signOperator? b = none := by
      rcases Bool.or_eq_true_iff.1 (h b rest rfl) with hb | hb
      · exact (operator?_of_isBlank hb).2
      · exact Option.isNone_iff_eq_none.1 (Bool.and_eq_true_iff.1 hb).2
    rw [parts_readTerms_cons, hnone]

end

def opensPrimary (b : UInt8) : Bool :=
  Byte.isDigit b || Byte.isUpper b || b = byte '('

def opensAdditive (b : UInt8) : Bool :=
  opensPrimary b || b = byte '-' || b = byte '+'

theorem signOperator?_of_opensPrimary {b : UInt8} (h : opensPrimary b = true) :
    signOperator? b = none := by
  unfold signOperator?
  split
  · subst b
    cases h
  split
  · subst b
    cases h
  · rfl

theorem not_isBlank_of_opensAdditive {b : UInt8} (h : opensAdditive b = true) :
    ¬ Byte.isBlank b = true := by
  intro hb
  rcases Bool.or_eq_true_iff.1 hb with hb | hb
  · rw [of_decide_eq_true hb] at h
    cases h
  · rw [of_decide_eq_true hb] at h
    cases h

end Expr

open LineBasic.Expr

theorem find?_cons {τ : Type} (spelling : String) (token : τ) (rest : Vocabulary τ)
    (text : List UInt8) :
    Vocabulary.find? ((spelling, token) :: rest) text =
      if (ascii spelling).isPrefixOf text then some (token, (ascii spelling).length)
      else Vocabulary.find? rest text := by
  rw [Vocabulary.find?, List.findSome?_cons]
  by_cases hp : (ascii spelling).isPrefixOf text = true
  · simp only [if_pos hp]
  · simp only [if_neg hp]
    rfl

theorem find?_relation (text : List UInt8) : Relation.vocabulary.find? text =
    if [byte '>', byte '='].isPrefixOf text then some (.greaterEqual, 2)
    else if [byte '<', byte '>'].isPrefixOf text then some (.notEqual, 2)
    else if [byte '>'].isPrefixOf text then some (.greater, 1)
    else if [byte '='].isPrefixOf text then some (.equal, 1)
    else if [byte '<', byte '='].isPrefixOf text then some (.lessEqual, 2)
    else if [byte '<'].isPrefixOf text then some (.less, 1)
    else if [byte '!', byte '='].isPrefixOf text then some (.notEqual, 2) else none := by
  simp only [Relation.vocabulary, find?_cons]
  rfl

theorem token_relation_none {text : List UInt8} (h : Begins stopsSign (Lexeme.skipBlanks text)) :
    Lexeme.token Relation.vocabulary text = (none, Lexeme.skipBlanks text) := by
  have hfind : Relation.vocabulary.find? (Lexeme.skipBlanks text) = none := by
    cases hskip : Lexeme.skipBlanks text with
    | nil => rfl
    | cons b rest =>
      have hb := h b rest hskip
      simp only [stopsSign, Bool.not_eq_true', Bool.or_eq_false_iff, decide_eq_false_iff_not] at hb
      obtain ⟨⟨⟨hlt, hgt⟩, heq⟩, hbang⟩ := hb
      simp [find?_relation, List.isPrefixOf, Ne.symm hlt, Ne.symm hgt, Ne.symm heq, Ne.symm hbang]
  rw [Lexeme.token, hfind]

theorem token_skipBlanks {τ : Type} (vocabulary : Vocabulary τ) (text : List UInt8) :
    Lexeme.token vocabulary (Lexeme.skipBlanks text) = Lexeme.token vocabulary text := by
  simp only [Lexeme.token, Lexeme.skipBlanks_skipBlanks]

theorem not_isPrefixOf {b : UInt8} {text : List UInt8} (h : Begins (orBlank opensAdditive) text)
    (hb : orBlank opensAdditive b = false) :
    [b].isPrefixOf text = false := by
  cases text with
  | nil => rfl
  | cons c rest =>
    have hc := h c rest rfl
    have hne : (b == c) = false := by
      rw [beq_eq_false_iff_ne]
      rintro rfl
      rw [hb] at hc
      cases hc
    rw [List.isPrefixOf_cons_cons, hne]
    rfl

section
variable {spelling : String} {relation : Relation} (hs : (spelling, relation) ∈ Relation.vocabulary)
include hs

/-- A sign of a relation is found where what follows does not make it another sign. -/
theorem find?_sign {text : List UInt8} (h : Begins (orBlank opensAdditive) text) :
    Relation.vocabulary.find? (ascii spelling ++ text) = some
    (relation, (ascii spelling).length) := by
  have hequal := not_isPrefixOf (b := byte '=') h rfl
  have hgreater := not_isPrefixOf (b := byte '>') h rfl
  simp only [Relation.vocabulary, List.mem_cons, Prod.mk.injEq, List.not_mem_nil, or_false] at hs
  rw [find?_relation]
  rcases hs with ⟨rfl, rfl⟩ | ⟨rfl, rfl⟩ | ⟨rfl, rfl⟩ | ⟨rfl, rfl⟩ | ⟨rfl, rfl⟩ | ⟨rfl,
    rfl⟩ | ⟨rfl, rfl⟩
  · rfl
  · rfl
  · show (if [byte '='].isPrefixOf text = true then _ else some (Relation.greater, 1)) = _
    rw [hequal]
    rfl
  · rfl
  · rfl
  · show (if [byte '>'].isPrefixOf text = true then _
      else if [byte '='].isPrefixOf text = true then _ else some (Relation.less, 1)) = _
    rw [hgreater, hequal]
    rfl
  · rfl

theorem exists_ascii_sign :
    ∃ c rest, ascii spelling = c :: rest ∧ stopsPrimary c = true ∧ stopsAdditive c = true := by
  simp only [Relation.vocabulary, List.mem_cons, Prod.mk.injEq, List.not_mem_nil, or_false] at hs
  rcases hs with ⟨rfl, rfl⟩ | ⟨rfl, rfl⟩ | ⟨rfl, rfl⟩ | ⟨rfl, rfl⟩ | ⟨rfl, rfl⟩ | ⟨rfl,
    rfl⟩ | ⟨rfl, rfl⟩
  all_goals
    refine ⟨_, _, rfl, ?_⟩
    decide

end

theorem token_relation (sign : RelationSign) {text : List UInt8}
    (h : Begins opensAdditive (Lexeme.skipBlanks text)) :
    Lexeme.token Relation.vocabulary (ascii sign.val.1 ++ text) =
      (some sign.val.2, Lexeme.skipBlanks text) := by
  obtain ⟨c, rest, he, hc, -⟩ := exists_ascii_sign sign.property
  have hblank := not_isBlank_of_stopsPrimary hc
  have hfront : Lexeme.skipBlanks (ascii sign.val.1 ++ text) = ascii sign.val.1 ++ text := by
    rw [he]
    exact skipBlanks_cons hblank _
  rw [Lexeme.token, hfront, find?_sign sign.property h.orBlank]
  simp only [List.drop_left]

theorem token_function (f : Function) (text : List UInt8) :
    Lexeme.token Function.vocabulary (ascii (Function.vocabulary.spelling f) ++ text) =
      (some f, Lexeme.skipBlanks text) := by
  cases f <;> rfl

theorem exists_ascii_function (f : Function) :
    ∃ a b rest, ascii (Function.vocabulary.spelling f) = a :: b :: rest ∧
    Byte.isUpper a = true ∧ Byte.isUpper b = true := by
  cases f
  all_goals
    refine ⟨_, _, _, rfl, ?_⟩
    decide

section
variable {b : UInt8} (h : Byte.isUpper b = true)
include h

theorem not_isDigit_of_isUpper : ¬ Byte.isDigit b = true := by
  intro hd
  have hlo := (Byte.isUpper_iff.1 h).1
  have hhi := (Byte.isDigit_iff.1 hd).2
  omega

theorem opensPrimary_of_isUpper : opensPrimary b = true := by
  simp only [opensPrimary, h, Bool.or_true, Bool.true_or]

end

theorem opensPrimary_of_isDigit {b : UInt8} (h : Byte.isDigit b = true) :
    opensPrimary b = true := by
  simp only [opensPrimary, h, Bool.true_or]

theorem opensAdditive_of_opensPrimary {b : UInt8} (h : opensPrimary b = true) :
    opensAdditive b = true := by
  simp only [opensAdditive, h, Bool.true_or]

theorem isUpper_letter (v : Variable) : Byte.isUpper v.letter = true := by
  have hv := v.index.isLt
  have hn : v.letter.toNat = 65 + v.index.val := by
    rw [Variable.letter, UInt8.toNat_ofNat']
    omega
  rw [Byte.isUpper_iff, hn]
  omega

theorem Variable.ofLetter?_of_not_isUpper {b : UInt8} (h : ¬ Byte.isUpper b = true) :
    Variable.ofLetter? b = none :=
  dif_neg fun hb => h (Byte.isUpper_iff.2 ⟨hb.1, Nat.le_of_lt_succ hb.2⟩)

theorem parts_readPrimary_skipBlanks {text text' : List UInt8}
    (h : Lexeme.skipBlanks text = Lexeme.skipBlanks text') :
    (readPrimary text).parts = (readPrimary text').parts :=
  (parts_readPrimary h).trans (parts_readPrimary rfl).symm

section
variable (rest : List UInt8)

theorem parts_readPrimary_negate : (readPrimary (byte '-' :: rest)).parts =
    (.negate (readPrimary rest).parts.1, (readPrimary rest).parts.2) := by
  rw [parts_readPrimary (show Lexeme.skipBlanks (byte '-' :: rest) = _ from rfl)]
  rfl

/-- What begins with no minus sign, digit or letter is a group or nothing that a primary could be.
-/
theorem parts_readPrimary_other {c : UInt8} (hblank : ¬ Byte.isBlank c = true)
    (hminus : c ≠ byte '-') (hdigit : ¬ Byte.isDigit c = true) (hupper : ¬ Byte.isUpper c = true) :
    (readPrimary (c :: rest)).parts =
      if c = byte '(' then Reading.closed .group (readRelation rest).parts
      else (.malformed .expectedExpression, c :: rest) := by
  have hzero : c ≠ byte '0' := by
    rintro rfl
    exact hdigit rfl
  have hletter : Lexeme.letter? (c :: rest) = none := by
    rw [Lexeme.letter?, Variable.ofLetter?_of_not_isUpper hupper, ite_self]
  have hname : ¬ Lexeme.startsName (c :: rest) = true := by
    cases rest with
    | nil => exact Bool.false_ne_true
    | cons b rest =>
      rw [Lexeme.startsName, Bool.and_eq_true]
      exact fun h => hupper h.1
  rw [parts_readPrimary (skipBlanks_cons hblank rest)]
  dsimp only
  rw [if_neg hminus, if_neg hzero, if_neg hdigit, hletter]
  dsimp only
  rw [if_neg hname]

theorem parts_readPrimary_group : (readPrimary (byte '(' :: rest)).parts =
    Reading.closed .group (readRelation rest).parts := by
  rw [parts_readPrimary_other rest (by decide) (by decide) (by decide) (by decide), if_pos rfl]

/-- Blanks may stand between the name of a function and its parenthesis. -/
theorem parts_readPrimary_call (f : Function) {text : List UInt8}
    (h : Lexeme.skipBlanks text = byte '(' :: rest)  :
    (readPrimary (ascii (Function.vocabulary.spelling f) ++ text)).parts =
      Reading.closed (.call f) (readRelation rest).parts := by
  obtain ⟨a, b, letters, he, ha, hb⟩ := exists_ascii_function f
  have hblank := not_isBlank_of_opensAdditive (opensAdditive_of_opensPrimary
    (opensPrimary_of_isUpper ha))
  have hskip : Lexeme.skipBlanks (ascii (Function.vocabulary.spelling f) ++ text) = a :: b ::
      (letters ++ text) := by
    rw [he]
    exact skipBlanks_cons hblank _
  have hminus : a ≠ byte '-' := by
    rintro rfl
    cases ha
  have hzero : a ≠ byte '0' := by
    rintro rfl
    cases ha
  have hletter : Lexeme.letter? (a :: b :: (letters ++ text)) = none :=
    if_pos (show Option.any Byte.isUpper (some b) = true from hb)
  have hname : Lexeme.startsName (a :: b :: (letters ++ text)) = true := by
    rw [Lexeme.startsName, ha, hb]
    rfl
  -- Two upper-case letters leave only the branch for names.
  rw [parts_readPrimary hskip]
  dsimp only
  rw [if_neg hminus, if_neg hzero, if_neg (not_isDigit_of_isUpper ha), hletter]
  dsimp only
  rw [if_pos hname, ← List.cons_append, ← List.cons_append, ← he,
    parts_readCall (token_function f text), h]
  rfl

end

section
variable {after : List UInt8}

theorem letter?_letter (v : Variable) (h : Begins (!Byte.isUpper ·) after) :
    Lexeme.letter? (v.letter :: after) = some v := by
  have hnext : ¬ after.head?.any Byte.isUpper = true := by
    cases after with
    | nil => exact Bool.false_ne_true
    | cons b rest => simpa using h b rest rfl
  rw [Lexeme.letter?, if_neg hnext, Variable.ofLetter?_letter]

theorem parts_readPrimary_var (v : Variable) (h : Begins (!Byte.isUpper ·) after) :
    (readPrimary (v.letter :: after)).parts = (.var v, after) := by
  have hv := isUpper_letter v
  have hblank := not_isBlank_of_opensAdditive (opensAdditive_of_opensPrimary
    (opensPrimary_of_isUpper hv))
  have hminus : v.letter ≠ byte '-' := by
    intro he
    rw [he] at hv
    cases hv
  have hzero : v.letter ≠ byte '0' := by
    intro he
    rw [he] at hv
    cases hv
  have hletter : Lexeme.letter? (v.letter :: after) = some v := letter?_letter v h
  -- No letter follows, so that the letter is a variable and does not begin a name.
  rw [parts_readPrimary (skipBlanks_cons hblank after)]
  dsimp only
  rw [if_neg hminus, if_neg hzero, if_neg (not_isDigit_of_isUpper hv), hletter]

theorem parts_readPrimary_number (n : Nat) (h : Begins (!Byte.isDigit ·) after) :
    (readPrimary (Decimal.digits n ++ after)).parts = (.literal n, after) := by
  by_cases hn : n = 0
  · subst hn
    rw [Decimal.digits_zero, List.singleton_append,
      parts_readPrimary (show Lexeme.skipBlanks (byte '0' :: after) = _ from rfl)]
    rfl
  · obtain ⟨d, rest, he, hd⟩ := Decimal.exists_digits_eq_cons hn
    have hdigits : ∀ c ∈ Decimal.digits n, Byte.isDigit c = true := fun c hc =>
      Decimal.isDigit_of_mem_digits hc
    have hdigit : Byte.isDigit d = true := hdigits d (by rw [he]; exact List.mem_cons_self)
    have hblank := not_isBlank_of_opensAdditive (opensAdditive_of_opensPrimary
      (opensPrimary_of_isDigit hdigit))
    have hskip : Lexeme.skipBlanks (Decimal.digits n ++ after) = d :: (rest ++ after) := by
      rw [he]
      exact skipBlanks_cons hblank _
    have hminus : d ≠ byte '-' := by
      rintro rfl
      cases hdigit
    have htake : after.takeWhile Byte.isDigit = [] ∧ after.dropWhile Byte.isDigit = after := by
      cases after with
      | nil => exact ⟨rfl, rfl⟩
      | cons b rest =>
        have hb : ¬ Byte.isDigit b = true := by simpa using h b rest rfl
        exact ⟨List.takeWhile_cons_of_neg hb, List.dropWhile_cons_of_neg hb⟩
    rw [parts_readPrimary hskip]
    dsimp only
    rw [if_neg hminus, if_neg hd, if_pos hdigit, ← List.cons_append, ← he,
      List.takeWhile_append_of_pos hdigits,
      List.dropWhile_append_of_pos hdigits, htake.1, htake.2, List.append_nil, Decimal.value_digits]

end

end LineBasic
