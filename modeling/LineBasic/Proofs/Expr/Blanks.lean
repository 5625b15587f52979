import LineBasic.Proofs.Expr.Evaluation

namespace LineBasic

open LineBasic.Expr

namespace Expr
variable {text : List UInt8}

theorem evaluate_of_not_clean {e : Expr} (h : ¬ e.Clean) (s : Surroundings) (g : Generator) :
    ∃ why, (e.evaluate s g).1 = .error why := by
  cases hr : (e.evaluate s g).1 with
  | ok x => exact absurd (clean_of_evaluate (Prod.ext hr rfl)) h
  | error why => exact ⟨why, rfl⟩

/-- A relation that begins with no sign is no better than its first primary. -/
theorem not_clean_readRelation (hsign : (text.head?.bind signOperator?).isSome = false)
    (h : ¬ (readPrimary text).parts.1.Clean) : ¬ (readRelation text).parts.1.Clean := by
  have hterm : ¬ (readTerm text).parts.1.Clean := by
    rw [parts_readTerm]
    exact fun hc => h (chain_factors.clean hc)
  have hadditive : ¬ (readAdditive text).parts.1.Clean := by
    rw [parts_readAdditive, hsign]
    exact fun hc => hterm (chain_terms.clean hc)
  rw [parts_readRelation rfl]
  split
  · exact hadditive
  · exact fun hc => hadditive hc.1

theorem parts_readRelation_primary {e : Expr} {after : List UInt8}
    (hsign : (text.head?.bind signOperator?).isSome = false)
    (hread : (readPrimary text).parts = (e, after)) (hended : Ended after) :
    (readRelation text).parts = (e, after) := by
  have hafter := hended.begins
  have hterm := hafter.mono fun _ hb => stopsTerm_of_stopsAdditive
    (stopsAdditive_of_stopsRelation hb)
  have hskip := hended.skipBlanks_eq
  have hfactors : (readTerm text).parts = (e, after) := by
    rw [parts_readTerm, hread, hskip]
    exact parts_readFactors_stop e (Begins.orBlank (hskip.symm ▸ hterm))
  have hadditive : (readAdditive text).parts = (e, after) := by
    rw [parts_readAdditive, hsign, hfactors]
    exact parts_readTerms_stop e (Begins.orBlank
      (hskip.symm ▸ hafter.mono fun _ => stopsAdditive_of_stopsRelation))
  rw [parts_readRelation rfl, hadditive]
  dsimp only
  rw [token_relation_none (hskip.symm ▸ hafter.mono fun _ => stopsSign_of_stopsRelation), hskip]

/-- What stands in parentheses is malformed, or is not closed: so is the relation that begins with
it. -/
theorem not_clean_of_group
    (h : ¬ (readRelation text).parts.1.Clean ∨ ∀ rest, (readRelation text).parts.2 ≠ byte ')' ::
    rest)  : ¬ (readRelation (byte '(' :: text)).parts.1.Clean := by
  apply not_clean_readRelation rfl
  rw [parts_readPrimary_group]
  intro hc
  obtain ⟨he, hrest⟩ := Reading.closed_eq (Prod.eta _).symm hc
  rw [he] at hc
  rcases h with h | h
  · exact h hc
  · exact h _ hrest

/-- After a blank, a plus sign is no sign but what stands where a primary was expected. -/
theorem not_clean_of_plus {gap : List UInt8} (hgap : Phrase.Gap true gap) (hne : gap ≠ []) :
    ¬ (readRelation (gap ++ byte '+' :: text)).parts.1.Clean := by
  have hskip : Lexeme.skipBlanks (gap ++ byte '+' :: text) = byte '+' :: text :=
    Lexeme.skipBlanks_append hgap.blank _
  apply not_clean_readRelation (Phrase.head_gap hgap hne _)
  rw [parts_readPrimary_skipBlanks (show _ = Lexeme.skipBlanks (byte '+' :: text) from hskip),
    parts_readPrimary_other text (by decide) (by decide) (by decide) (by decide), if_neg
      (by decide)]
  exact id

end Expr

namespace Cursor
variable {c : Cursor} {e : Expr} {x after : List UInt8}

/-- What is read at a cursor is worth what a reckoning gives, and fails where it ends at a fault. -/
def Worth (c : Cursor) (a : Surroundings → Reckoning) : Prop :=
  ∀ s g, match a s g with
    | .ok v g' => c.expression.1.evaluate s g = (.ok v, g')
    | .error why _ => (c.expression.1.evaluate s g).1 = .error why

theorem worth_of_means {a : Surroundings → Reckoning} (h : ∀ s, c.expression.1.Means s (a s)) :
    c.Worth a := by
  intro s g
  have hvalue := (h s).evaluate g
  cases ha : a s g with
  | ok v g' =>
    rw [ha] at hvalue
    exact hvalue
  | error why g' =>
    rw [ha] at hvalue
    exact hvalue

theorem expression_eq {front : List UInt8} (hrest : c.rest = front ++ after)
    (hread : (readRelation c.rest).parts = (e, after)) :
    c.expression = (e, { c with pos := c.pos + front.length }) := by
  have hexpr : (readRelation c.rest).expr = e := congrArg Prod.fst hread
  have hafter : (readRelation c.rest).rest = after := congrArg Prod.snd hread
  rw [expression, hexpr, hafter, moveTo, hrest, List.length_append, Nat.add_sub_cancel]

/-- A phrase spelled with blanks only where they are skipped is passed with all its tokens, and is
worth what the phrase is worth. -/
theorem expression_of_spaced {p : Phrase .relation} {trail : List UInt8} (hx : p.Spaced false x)
    (htrail : Phrase.Gap true trail) (hafter : Ended after)
      (hrest : c.rest = x ++ (trail ++ after)) :
    c.expression = (p.expr false,
      { c with pos := c.pos + (x.length + if p.keepsBlanks then 0 else trail.length) }) ∧
    c.Worth fun s => p.reckon s false := by
  have hskip : Lexeme.skipBlanks (trail ++ after) = after := by
    rw [Lexeme.skipBlanks_append htrail.blank, hafter.skipBlanks_eq]
  have hread : (readRelation c.rest).parts = (p.expr false, p.left (trail ++ after)) := by
    rw [hrest]
    exact hafter.parts_readRelation hx htrail.blank
  have hexpression : c.expression = (p.expr false,
      { c with pos := c.pos + (x.length + if p.keepsBlanks then 0 else trail.length) }) := by
    -- What is kept is left for what follows, and what is not kept is passed with the phrase.
    by_cases hkeeps : p.keepsBlanks = true
    · rw [Phrase.left, if_pos hkeeps] at hread
      rw [if_pos hkeeps]
      exact expression_eq hrest hread
    · rw [Phrase.left, if_neg hkeeps, hskip] at hread
      rw [← List.append_assoc] at hrest
      rw [if_neg hkeeps, ← List.length_append]
      exact expression_eq hrest hread
  refine ⟨hexpression, worth_of_means fun s => ?_⟩
  rw [hexpression]
  exact p.means_expr s false

/-- Blanks after a product end the expression, whatever operator stands behind them. -/
theorem expression_before_operator {a : Phrase .additive} {gap rest : List UInt8} {op : UInt8}
    (hx : a.Spaced false x) (hkeeps : a.keepsBlanks = true) (hgap : Phrase.Gap true gap)
    (hne : gap ≠ []) (hop : (∃ sign : Sign, op = sign.byte) ∨ ∃ sign : FactorSign, op = sign.byte)
    (hrest : c.rest = x ++ (gap ++ op :: rest)) :
    c.expression = (a.expr false, { c with pos := c.pos + (x.length + gap.length) }) ∧
    c.Worth fun s => a.reckon s false := by
  have hbyte : stopsPrimary op = true ∧ stopsSign op = true := by
    rcases hop with ⟨sign, rfl⟩ | ⟨sign, rfl⟩
    · cases sign <;> decide
    · cases sign <;> decide
  have hskip : Lexeme.skipBlanks (gap ++ op :: rest) = op :: rest := by
    rw [Lexeme.skipBlanks_append hgap.blank]
    exact skipBlanks_cons (not_isBlank_of_stopsPrimary hbyte.1) rest
  have hends : a.EndsBefore stopsAdditive (gap ++ op :: rest) := by
    constructor
    · exact a.endsAt_of_begins (Begins.orBlank (hskip.symm ▸ begins_cons hbyte.1))
    · obtain ⟨b, blanks, rfl⟩ := List.exists_cons_of_ne_nil hne
      rw [Phrase.left, if_pos hkeeps]
      exact begins_cons (Bool.or_eq_true_iff.2 (Or.inl (hgap.blank b List.mem_cons_self)))
  -- The sum ends at the blank, and no comparison begins with the operator behind it.
  have hread : (readRelation c.rest).parts = (a.expr false, op :: rest) := by
    rw [hrest, parts_readRelation rfl, hx.readable.additive hends]
    dsimp only
    rw [Phrase.token_left, token_relation_none (by rw [hskip]; exact begins_cons hbyte.2), hskip]
  have hexpression : c.expression = (a.expr false, { c with pos :=
      c.pos + (x.length + gap.length) }) := by
    rw [← List.append_assoc] at hrest
    rw [← List.length_append]
    exact expression_eq hrest hread
  refine ⟨hexpression, worth_of_means fun s => ?_⟩
  rw [hexpression]
  exact a.means_expr s false

/-- After a parenthesis and a blank, the minus sign that a term begins with acts on its first
primary alone. -/
theorem expression_of_minus {t : Phrase .term} {gap closing : List UInt8} (hx : t.Spaced false x)
    (hgap : Phrase.Gap true gap) (hne : gap ≠ []) (hclosing : Phrase.Gap true closing)
    (hafter : Ended after)
    (hrest : c.rest = byte '(' :: (gap ++ (x ++ (closing ++ byte ')' :: after)))) :
    c.expression = (.group (t.expr false), { c with pos :=
      c.pos + (gap.length + x.length + closing.length + 2) }) ∧
    c.Worth fun s => t.reckon s false := by
  have hskip : Lexeme.skipBlanks (closing ++ byte ')' :: after) = byte ')' :: after :=
    Lexeme.skipBlanks_append hclosing.blank _
  have hstop : Begins stopsRelation (Lexeme.skipBlanks (closing ++ byte ')' :: after)) := by
    rw [hskip]
    exact begins_cons rfl
  -- A sign is looked for before blanks are skipped, so that the term is read with its minus sign.
  have hterm : (readTerm (x ++ (closing ++ byte ')' :: after))).parts =
      (t.expr false, t.left (closing ++ byte ')' :: after)) :=
    hx.readable.term false (fun h => absurd h Bool.false_ne_true)
      (t.endsBefore (t.endsAt_of_begins (Begins.orBlank (hskip.symm ▸ begins_cons rfl)))
        (hstop.mono fun _ hb => stopsTerm_of_stopsAdditive (stopsAdditive_of_stopsRelation hb)))
  have hinner : (readRelation (gap ++ (x ++ (closing ++ byte ')' :: after)))).parts =
      (t.expr false, byte ')' :: after) := by
    rw [parts_readRelation rfl, Phrase.parts_readAdditive_gap hgap hne, hterm,
      parts_readTerms_stop _
        (Phrase.begins_left (hstop.mono fun _ => stopsAdditive_of_stopsRelation))]
    dsimp only
    rw [Phrase.token_left, token_relation_none (hstop.mono fun _ => stopsSign_of_stopsRelation),
      hskip]
  have hprimary : (readPrimary c.rest).parts = (.group (t.expr false), after) := by
    rw [hrest, parts_readPrimary_group, hinner]
    rfl
  have hread : (readRelation c.rest).parts = (.group (t.expr false), after) :=
    parts_readRelation_primary (by rw [hrest]; rfl) hprimary hafter
  have hfront : c.rest = byte '(' :: (gap ++ (x ++ (closing ++ [byte ')']))) ++ after := by
    rw [hrest]
    simp
  have hlength : (byte '(' :: (gap ++ (x ++ (closing ++ [byte ')'])))).length =
      gap.length + x.length + closing.length + 2 := by
    simp only [List.length_cons, List.length_append, List.length_nil]
    omega
  have hexpression := expression_eq hfront hread
  rw [hlength] at hexpression
  refine ⟨hexpression, worth_of_means fun s => ?_⟩
  rw [hexpression]
  exact t.means_expr s false

/-- After a parenthesis and a blank no plus sign begins a term. -/
theorem expression_fails_of_plus {gap rest : List UInt8} (hgap : Phrase.Gap true gap)
    (hne : gap ≠ [])
    (hrest : c.rest = byte '(' :: (gap ++ byte '+' :: rest)) (s : Surroundings) (g : Generator)  :
    ∃ why, (c.expression.1.evaluate s g).1 = .error why := by
  apply evaluate_of_not_clean
  show ¬ (readRelation c.rest).parts.1.Clean
  rw [hrest]
  exact not_clean_of_group (Or.inl (not_clean_of_plus hgap hne))

/-- A blank that is kept after a product stands before the parenthesis that would close the group.
-/
theorem expression_fails_of_kept {p : Phrase .relation} {opening closing rest : List UInt8}
    (hx : p.Spaced false x) (hkeeps : p.keepsBlanks = true)
    (hopening : Phrase.Gap (!p.beginsWithSign) opening) (hclosing : Phrase.Gap true closing)
    (hne : closing ≠ [])
    (hrest : c.rest = byte '(' :: (opening ++ (x ++ (closing ++ byte ')' :: rest))))
    (s : Surroundings) (g : Generator) : ∃ why, (c.expression.1.evaluate s g).1 = .error why := by
  have hskip : Lexeme.skipBlanks (closing ++ byte ')' :: rest) = byte ')' :: rest :=
    Lexeme.skipBlanks_append hclosing.blank _
  have hinner : (readRelation (opening ++ (x ++ (closing ++ byte ')' :: rest)))).parts.2 =
      closing ++ byte ')' :: rest := by
    rw [Phrase.parts_readRelation_gap hopening hx,
      hx.readable _ (p.endsAt_of_begins (Begins.orBlank (hskip.symm ▸ begins_cons rfl)))
        (by rw [hskip]; exact begins_cons rfl), Phrase.left, if_pos hkeeps]
  apply evaluate_of_not_clean
  show ¬ (readRelation c.rest).parts.1.Clean
  rw [hrest]
  refine not_clean_of_group (Or.inr fun after he => ?_)
  obtain ⟨b, blanks, rfl⟩ := List.exists_cons_of_ne_nil hne
  rw [hinner] at he
  have hblank := hclosing.blank b List.mem_cons_self
  rw [(List.cons.inj he).1] at hblank
  cases hblank

/-- Blanks between the tokens of an expression do not matter where they are skipped: with any two
such spellings all the tokens are passed and the value is that of the phrase. Where they are not
skipped, an expression ends before an operator after a product and a blank, and fails where a plus
sign follows a parenthesis and a blank, or where a comparison with a product is followed by a blank
and a parenthesis; a minus sign that follows a parenthesis and a blank acts on the first primary
alone. -/
theorem expression_spaced (c : Cursor) :
    (∀ (p : Phrase .relation) (x trail after : List UInt8), p.Spaced false x →
      Phrase.Gap true trail →
      Ended after → c.rest = x ++ (trail ++ after) →
      c.expression = (p.expr false,
        { c with pos := c.pos + (x.length + if p.keepsBlanks then 0 else trail.length) }) ∧
      c.Worth fun s => p.reckon s false) ∧
    (∀ (a : Phrase .additive) (x gap rest : List UInt8) (op : UInt8), a.Spaced false x →
      a.keepsBlanks = true → Phrase.Gap true gap → gap ≠ [] →
      ((∃ sign : Sign, op = sign.byte) ∨ ∃ sign : FactorSign, op = sign.byte) →
      c.rest = x ++ (gap ++ op :: rest) →
      c.expression = (a.expr false, { c with pos := c.pos + (x.length + gap.length) }) ∧
      c.Worth fun s => a.reckon s false) ∧
    (∀ (t : Phrase .term) (gap x closing after : List UInt8), t.Spaced false x →
      Phrase.Gap true gap →
      gap ≠ [] → Phrase.Gap true closing → Ended after →
      c.rest = byte '(' :: (gap ++ (x ++ (closing ++ byte ')' :: after))) →
      c.expression = (.group (t.expr false),
        { c with pos := c.pos + (gap.length + x.length + closing.length + 2) }) ∧
      c.Worth fun s => t.reckon s false) ∧
    (∀ (gap rest : List UInt8), Phrase.Gap true gap → gap ≠ [] →
      c.rest = byte '(' :: (gap ++ byte '+' :: rest) →
      ∀ s g, ∃ why, (c.expression.1.evaluate s g).1 = .error why) ∧
    ∀ (p : Phrase .relation) (opening x closing rest : List UInt8), p.Spaced false x →
      p.keepsBlanks = true → Phrase.Gap (!p.beginsWithSign) opening → Phrase.Gap true closing →
      closing ≠ [] →
      c.rest = byte '(' :: (opening ++ (x ++ (closing ++ byte ')' :: rest))) →
      ∀ s g, ∃ why, (c.expression.1.evaluate s g).1 = .error why := by
  exact ⟨fun p x trail after hx htrail hafter hrest => expression_of_spaced hx htrail hafter hrest,
    fun a x gap rest op hx hkeeps hgap hne hop hrest =>
      expression_before_operator hx hkeeps hgap hne hop hrest,
    fun t gap x closing after hx hgap hne hclosing hafter hrest =>
      expression_of_minus hx hgap hne hclosing hafter hrest,
    fun gap rest hgap hne hrest s g => expression_fails_of_plus hgap hne hrest s g,
    fun p opening x closing rest hx hkeeps hopening hclosing hne hrest s g =>
      expression_fails_of_kept hx hkeeps hopening hclosing hne hrest s g⟩

/-- One text for each of the cases. -/
theorem expression_spaced_of_texts :
    (∀ s g, (Cursor.mk (ascii "1 +\t2*3").toArray 0).expression.1.evaluate s g = (.ok 7, g) ∧
      (Cursor.mk (ascii "1+2*3").toArray 0).expression.1.evaluate s g = (.ok 7, g) ∧
      (Cursor.mk (ascii "2*3 +1").toArray 0).expression.1.evaluate s g = (.ok 6, g) ∧
      (Cursor.mk (ascii "( -2)").toArray 0).expression.1.evaluate s g = (.ok (-2), g) ∧
      (∃ why, ((Cursor.mk (ascii "( +2)").toArray 0).expression.1.evaluate s g).1 = .error why) ∧
      ∃ why, ((Cursor.mk (ascii "(1=2*3 )").toArray 0).expression.1.evaluate s g).1 = .error why) ∧
    (Cursor.mk (ascii "1 +\t2*3").toArray 0).expression.2.pos = 7 ∧
    (Cursor.mk (ascii "1+2*3").toArray 0).expression.2.pos = 5 ∧
    (Cursor.mk (ascii "2*3 +1").toArray 0).expression.2.pos = 4 := by
  have hspaced (c : Cursor) := (expression_spaced c).1
  have hoperator (c : Cursor) := (expression_spaced c).2.1
  have hminus (c : Cursor) := (expression_spaced c).2.2.1
  have hplus (c : Cursor) := (expression_spaced c).2.2.2.1
  have hclosing (c : Cursor) := (expression_spaced c).2.2.2.2
  have hended : Ended [] := by
    intro b rest he
    cases he
  have hblank : Phrase.Gap true [Byte.blank] := ⟨by decide, fun h => by cases h⟩
  have htab : Phrase.Gap true [Byte.tab] := ⟨by decide, fun h => by cases h⟩
  have hspell {rank : Rank} (p : Phrase rank) {x : List UInt8} (h : p.spell = x) :
      p.Spaced false x :=
    h ▸ p.spaced_spell false
  have hone : Phrase.Spaced false (.number 1) (ascii "1") := hspell _ (by decide +kernel)
  have hproduct : Phrase.Spaced false (.factor (.single (.number 2)) .star (.number 3))
      (ascii "2*3") :=
    hspell _ (by decide +kernel)
  have hsum : Phrase.Spaced false (.joined (.unsigned (.single (.number 1))) .plus
      (.factor (.single (.number 2)) .star (.number 3))) (ascii "1 +\t2*3") :=
    .joined .plus (.unsigned (.single hone)) hblank htab hproduct
  have htight : Phrase.Spaced false (.joined (.unsigned (.single (.number 1))) .plus
      (.factor (.single (.number 2)) .star (.number 3))) (ascii "1+2*3") :=
        hspell _ (by decide +kernel)
  obtain ⟨hpos₁, hworth₁⟩ := hspaced ⟨(ascii "1 +\t2*3").toArray, 0⟩ _ _ [] [] (.plain hsum)
    (Phrase.gap_nil _) hended
    (by decide)
  obtain ⟨hpos₂, hworth₂⟩ := hspaced ⟨(ascii "1+2*3").toArray, 0⟩ _ _ [] [] (.plain htight)
    (Phrase.gap_nil _) hended
    (by decide)
  obtain ⟨hpos₃, hworth₃⟩ := hoperator ⟨(ascii "2*3 +1").toArray, 0⟩ _ _ _ [byte '1'] (byte '+')
    (.unsigned hproduct)
    rfl hblank (List.cons_ne_nil _ _) (Or.inl ⟨.plus, rfl⟩) (by decide)
  obtain ⟨-, hworth₄⟩ := hminus ⟨(ascii "( -2)").toArray, 0⟩ (.single (.negate (.number 2))) _
    (ascii "-2") [] []
    (hspell _ (by decide +kernel)) hblank (List.cons_ne_nil _ _) (Phrase.gap_nil _) hended
      (by decide +kernel)
  have hfail₅ := hplus ⟨(ascii "( +2)").toArray, 0⟩ _ (ascii "2)") hblank
    (List.cons_ne_nil _ _) (by decide)
  have hfail₆ := hclosing ⟨(ascii "(1=2*3 )").toArray, 0⟩
    (.compared (.unsigned (.single (.number 1))) ⟨("=", .equal), by decide⟩
      (.unsigned (.factor (.single (.number 2)) .star (.number 3))))
    [] (ascii "1=2*3") _ [] (hspell _ (by decide +kernel)) rfl (Phrase.gap_nil _) hblank
      (List.cons_ne_nil _ _)
    (by decide)
  refine ⟨fun s g => ⟨hworth₁ s g, hworth₂ s g, hworth₃ s g, hworth₄ s g, hfail₅ s g, hfail₆ s g⟩,
    ?_, ?_, ?_⟩
  · rw [hpos₁]
    decide
  · rw [hpos₂]
    decide
  · rw [hpos₃]
    decide

/-- The same tokens with a blank after the product and without it: the blank cuts the sum off. -/
theorem expression_cut_short :
    ∃ p : Phrase .relation, p.Spaced true (ascii "2*3 +1") ∧ p.Spaced true (ascii "2*3+1") ∧
      (Cursor.mk (ascii "2*3 +1").toArray 0).expression.2.pos = 4 ∧
      (Cursor.mk (ascii "2*3+1").toArray 0).expression.2.pos = 5 ∧
      ∀ s g, (Cursor.mk (ascii "2*3 +1").toArray 0).expression.1.evaluate s g = (.ok 6, g) ∧
        (Cursor.mk (ascii "2*3+1").toArray 0).expression.1.evaluate s g = (.ok 7, g) := by
  have hspell {anywhere : Bool} {rank : Rank} (p : Phrase rank) {x : List UInt8} (h : p.spell = x) :
      p.Spaced anywhere x := h ▸ p.spaced_spell anywhere
  have hproduct {anywhere : Bool} :
      Phrase.Spaced anywhere (.factor (.single (.number 2)) .star (.number 3)) (ascii "2*3") :=
    hspell _ (by decide +kernel)
  have hsum {anywhere : Bool} : Phrase.Spaced anywhere (.plain (.joined
      (.unsigned (.factor (.single (.number 2)) .star (.number 3))) .plus (.single (.number 1))))
        (ascii "2*3+1") :=
    hspell _ (by decide +kernel)
  have hone : Phrase.Spaced true (.single (.number 1)) (ascii "1") := hspell _ (by decide +kernel)
  have hblank : Phrase.Gap true [Byte.blank] := ⟨by decide, fun h => by cases h⟩
  have hleft : Phrase.Spaced true (.unsigned (.factor (.single (.number 2)) .star (.number 3)))
      (ascii "2*3") :=
    .unsigned hproduct
  have hspaced : Phrase.Spaced true (.plain (.joined
      (.unsigned (.factor (.single (.number 2)) .star (.number 3))) .plus (.single (.number 1))))
        (ascii "2*3 +1") :=
    .plain (.joined .plus hleft hblank (Phrase.gap_nil _) hone)
  have hended : Ended [] := by
    intro b rest he
    cases he
  have hshort : Cursor.rest ⟨(ascii "2*3 +1").toArray, 0⟩ = ascii "2*3" ++
      ([Byte.blank] ++ byte '+' :: ascii "1") := by
    decide
  have hwhole : Cursor.rest ⟨(ascii "2*3+1").toArray, 0⟩ = ascii "2*3+1" ++ ([] ++ []) := by
    decide
  obtain ⟨hcut, hsix⟩ := expression_before_operator (.unsigned hproduct) rfl hblank
    (List.cons_ne_nil _ _)
    (Or.inl ⟨.plus, rfl⟩) hshort
  obtain ⟨hall, hseven⟩ := expression_of_spaced hsum (Phrase.gap_nil _) hended hwhole
  refine ⟨_, hspaced, hsum, ?_, ?_, fun s g => ⟨hsix s g, hseven s g⟩⟩
  · rw [hcut]
    decide
  · rw [hall]
    decide

end Cursor
end LineBasic
