import LineBasic.Proofs.Cursor
import LineBasic.Proofs.Expr.Soundness

namespace LineBasic

/-- What a reckoning can end at: a division by zero, a `PEEK` outside the buffer, and `RND(0)`. -/
def Reckoning.faults : List Diagnostic :=
  [.divisionByZero, .peekOutOfRange, .randomBelowZero]

def Reckoning.Faults (a : Reckoning) : Prop :=
  ∀ g, Ends (a g) (fun _ _ => True) fun why _ => why ∈ faults

namespace Reckoning.Faults
variable {a : Reckoning}

theorem pure (x : Int16) : Faults (Pure.pure x) :=
  fun _ => trivial

theorem throw (why : Diagnostic) (h : why ∈ faults) : Faults (MonadExcept.throw why) :=
  fun _ => h

theorem bind (ha : a.Faults) {f : Int16 → Reckoning} (hf : ∀ x, (f x).Faults) : Faults (a >>= f) :=
  fun g => Ends.bind (ha g) fun x g' _ => hf x g'

theorem operator (op : Operator) (x y : Int) : (op.reckon x y).Faults := by
  cases op with
  | sum => exact pure _
  | difference => exact pure _
  | product => exact pure _
  | quotient =>
    simp only [Operator.reckon]
    split
    · exact throw .divisionByZero (by decide)
    · exact pure _
  | remainder =>
    simp only [Operator.reckon]
    split
    · exact throw .divisionByZero (by decide)
    · exact pure _

theorem function (f : Function) (s : Surroundings) (x : Int16) : (f.reckon s x).Faults := by
  cases f with
  | peek =>
    simp only [Function.reckon]
    split
    · exact pure _
    · exact throw .peekOutOfRange (by decide)
  | abs => exact pure _
  | aread => exact pure _
  | dread => exact pure _
  | rnd =>
    simp only [Function.reckon]
    split
    · exact throw .randomBelowZero (by decide)
    · exact fun _ => trivial

theorem phrase (s : Surroundings) {rank : Rank} (p : Phrase rank) (taken : Bool) :
    (p.reckon s taken).Faults := by
  induction p generalizing taken with
  | number n => exact pure _
  | var v => exact pure _
  | negate p ih => exact (ih false).bind fun _ => pure _
  | call f argument ih => exact (ih false).bind fun x => function f s x
  | group inner ih => exact ih false
  | single p ih => exact ih taken
  | factor t sign p iht ihp =>
    exact (iht taken).bind fun _ => (ihp false).bind fun _ => operator _ _ _
  | unsigned t ih =>
    simp only [Phrase.reckon]
    split
    · exact (ih true).bind fun _ => operator _ _ _
    · exact ih false
  | signed sign t ih => exact (ih false).bind fun _ => operator _ _ _
  | joined a sign t iha iht =>
    exact (iha false).bind fun _ => (iht false).bind fun _ => operator _ _ _
  | plain a ih => exact ih false
  | compared left sign right ihl ihr =>
    exact (ihl false).bind fun _ => (ihr false).bind fun _ => pure _

end Reckoning.Faults

namespace Expr
variable {s : Surroundings} {e : Expr} {a : Reckoning}

/-- Evaluating a tree gives the value of what it means, or its fault. -/
theorem Means.evaluate (h : e.Means s a) (g : Generator) :
    Ends (a g) (fun x g' => e.evaluate s g = (.ok x, g')) fun why _ =>
      (e.evaluate s g).1 = .error why := by
  refine (h g).mono (fun x g' hx => ?_) fun why _ hfault => ?_
  · rw [Expr.evaluate, hx]
  · rw [Expr.evaluate]
    dsimp only
    rw [hfault]

theorem clean_of_evaluate {g g' : Generator} {x : Int16} (h : e.evaluate s g = (.ok x, g')) :
    e.Clean := by
  unfold Expr.evaluate at h
  dsimp only at h
  split at h
  · rename_i hfault
    exact clean_of_eval hfault
  · cases h

/-- An expression ends before the end of the line, a separator, or a parenthesis that closes. -/
def Ended (after : List UInt8) : Prop :=
  ∀ b rest, after = b :: rest → b ∈ [byte ':', byte ',', byte ';', byte ')']

namespace Ended
variable {after : List UInt8} (h : Ended after)
include h

theorem begins_of {p : UInt8 → Bool} (hp : ∀ b ∈ [byte ':', byte ',', byte ';', byte ')'], p b =
    true)  :
    Begins p after :=
  fun b rest he => hp b (h b rest he)

theorem begins : Begins stopsRelation after :=
  h.begins_of (by decide)

theorem begins_primary : Begins stopsPrimary after :=
  h.begins_of (by decide)

theorem skipBlanks_eq : Lexeme.skipBlanks after = after :=
  skipBlanks_of_begins h.begins_primary

/-- A spelling of a phrase is read, whatever blanks stand behind it. -/
theorem parts_readRelation {p : Phrase .relation} {x blanks : List UInt8} (hx : p.Spaced false x)
    (hblanks : ∀ b ∈ blanks, Byte.isBlank b = true) :
    (readRelation (x ++ (blanks ++ after))).parts = (p.expr false, p.left (blanks ++ after)) := by
  have hskip : Lexeme.skipBlanks (blanks ++ after) = after := by
    rw [Lexeme.skipBlanks_append hblanks, h.skipBlanks_eq]
  have hends : p.EndsAt (blanks ++ after) :=
    p.endsAt_of_begins (Begins.orBlank (hskip.symm ▸ h.begins_primary))
  exact hx.readable _ hends (hskip.symm ▸ h.begins)

end Ended
end Expr

namespace Cursor

/-- The bytes that the expression at the cursor passes. -/
def passed (c : Cursor) : List UInt8 :=
  (c.text.extract c.pos c.expression.2.pos).toList

theorem toList_extract_add (c : Cursor) {k : Nat} (hk : k ≤ c.rest.length) :
    (c.text.extract c.pos (c.pos + k)).toList = c.rest.take k := by
  have hlength := c.length_rest
  rw [rest, Array.toList_extract, Array.toList_extract, List.extract_eq_take_drop,
    List.extract_eq_take_drop,
    List.take_take, Nat.add_sub_cancel_left, Nat.min_eq_left (by omega)]

/-- What is passed and what is left are the rest of the line. -/
theorem passed_append (c : Cursor) : c.passed ++ (Expr.readRelation c.rest).rest = c.rest := by
  have hsuffix := (Expr.readRelation c.rest).rest_suffix
  have hpassed : c.passed = c.rest.take (c.rest.length - (Expr.readRelation c.rest).rest.length) :=
    c.toList_extract_add (Nat.sub_le _ _)
  calc c.passed ++ (Expr.readRelation c.rest).rest
      = c.rest.take (c.rest.length - (Expr.readRelation c.rest).rest.length) ++
          c.rest.drop (c.rest.length - (Expr.readRelation c.rest).rest.length) := by
        rw [hpassed, ← List.suffix_iff_eq_drop.1 hsuffix]
    _ = c.rest := List.take_append_drop _ _

/-- The expression at a cursor is what its grammar says. A phrase that ends where it must is passed
as a whole and is worth what the phrase is worth; it fails exactly where reckoning the phrase ends
at a fault. And what is passed without a blank, and is worth something, is a phrase worth that. -/
theorem expression_complete_sound (c : Cursor) :
    (∀ (e : Phrase .relation) (after : List UInt8), c.rest = e.spell ++ after → Expr.Ended after →
      c.expression.2 = { c with pos := c.pos + e.spell.length } ∧
      ∀ s g, match e.reckon s false g with
        | .ok x g' => c.expression.1.evaluate s g = (.ok x, g')
        | .error why _ => (c.expression.1.evaluate s g).1 = .error why ∧ why ∈ Reckoning.faults) ∧
    ∀ s g x g', c.expression.1.evaluate s g = (.ok x, g') →
    (∀ b ∈ c.passed, ¬ Byte.isBlank b = true) →
      ∃ e : Phrase .relation, e.spell = c.passed ∧ e.reckon s false g = .ok x g' := by
  constructor
  · intro e after hrest hended
    have hread : (Expr.readRelation c.rest).parts = (e.expr false, after) := by
      rw [hrest]
      exact e.readable.relation hended.begins_primary hended.begins
    have hexpr : c.expression.1 = e.expr false := congrArg Prod.fst hread
    have hafter : (Expr.readRelation c.rest).rest = after := congrArg Prod.snd hread
    refine ⟨?_, fun s g => ?_⟩
    · rw [expression, hafter, moveTo, hrest, List.length_append, Nat.add_sub_cancel]
    · have hvalue := (e.means_expr s false).evaluate g
      have hfaults := Reckoning.Faults.phrase s e false g
      rw [hexpr]
      cases hreckon : e.reckon s false g with
      | ok x g' =>
        rw [hreckon] at hvalue
        exact hvalue
      | error why g' =>
        rw [hreckon] at hvalue hfaults
        exact ⟨hvalue, hfaults⟩
  · intro s g x g' hok hblank
    have htight : Tight c.rest (Expr.readRelation c.rest).rest :=
      ⟨c.passed, c.passed_append.symm, hblank⟩
    -- A value without a fault makes the tree clean, and what is passed has no blank.
    obtain ⟨e, hexpr, hspell⟩ := exists_phrase rfl (Expr.clean_of_evaluate hok) htight
    refine ⟨e, List.append_cancel_right (hspell.symm.trans c.passed_append.symm), ?_⟩
    have hvalue := (e.means_expr s false).evaluate g
    rw [show e.expr false = c.expression.1 from hexpr, hok] at hvalue
    cases hreckon : e.reckon s false g with
    | ok y g₁ =>
      rw [hreckon] at hvalue
      cases hvalue
      rfl
    | error why g₁ =>
      rw [hreckon] at hvalue
      cases hvalue

/-- The minus sign acts on the quotient, which truncates toward zero. -/
theorem expression_of_quotient :
    (Cursor.mk (ascii "-7/2+1:").toArray 0).expression.2.pos = 6 ∧
    ∀ s g, (Cursor.mk (ascii "-7/2+1:").toArray 0).expression.1.evaluate s g = (.ok (-2), g) ∧
      ∃ e : Phrase .relation, e.spell = ascii "-7/2+1" ∧ e.reckon s false g = .ok (-2) g := by
  have hcursor := expression_complete_sound ⟨(ascii "-7/2+1:").toArray, 0⟩
  have hrest : Cursor.rest ⟨(ascii "-7/2+1:").toArray, 0⟩ =
      (Phrase.plain (.joined (.signed .minus (.factor (.single (.number 7)) .slash (.number 2)))
        .plus
        (.single (.number 1)))).spell ++ [byte ':'] := by
    decide +kernel
  have hended : Expr.Ended [byte ':'] := by
    intro b rest he
    cases he
    exact List.mem_cons_self
  obtain ⟨hpos, hvalue⟩ := hcursor.1 _ _ hrest hended
  have hlength : (Cursor.mk (ascii "-7/2+1:").toArray 0).expression.2.pos = 6 := by
    rw [hpos]
    decide +kernel
  have hpassed : (Cursor.mk (ascii "-7/2+1:").toArray 0).passed = ascii "-7/2+1" := by
    rw [passed, hlength]
    decide
  refine ⟨hlength, fun s g => ?_⟩
  have hok : (Cursor.mk (ascii "-7/2+1:").toArray 0).expression.1.evaluate s g = (.ok (-2), g) :=
    hvalue s g
  have hblank : ∀ b ∈ Cursor.passed ⟨(ascii "-7/2+1:").toArray, 0⟩, ¬ Byte.isBlank b = true := by
    rw [hpassed]
    decide
  obtain ⟨e, hspell, hreckon⟩ := hcursor.2 s g _ _ hok hblank
  exact ⟨hok, e, hspell.trans hpassed, hreckon⟩

end Cursor
end LineBasic
