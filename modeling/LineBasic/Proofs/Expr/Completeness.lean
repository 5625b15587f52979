import LineBasic.Proofs.Expr.Meaning
import LineBasic.Proofs.Expr.Spacing

namespace LineBasic
namespace Phrase

open LineBasic.Expr

section
variable {rank : Rank} {p : Phrase rank} {anywhere : Bool} {x after : List UInt8}

def left (p : Phrase rank) (after : List UInt8) : List UInt8 :=
  if p.keepsBlanks then after else Lexeme.skipBlanks after

theorem left_eq (h : Lexeme.skipBlanks after = after) : p.left after = after := by
  rw [left, h]
  split
  · rfl
  · rfl

theorem skipBlanks_left : Lexeme.skipBlanks (p.left after) = Lexeme.skipBlanks after := by
  unfold left
  split
  · rfl
  · exact Lexeme.skipBlanks_skipBlanks after

theorem begins_left {q : UInt8 → Bool} (h : Begins q (Lexeme.skipBlanks after)) :
    Begins (orBlank q) (p.left after) := by
  apply Begins.orBlank
  rwa [skipBlanks_left]

theorem token_left {τ : Type} (vocabulary : Vocabulary τ) :
    Lexeme.token vocabulary (p.left after) = Lexeme.token vocabulary after := by
  rw [← token_skipBlanks, skipBlanks_left, token_skipBlanks]

/-- Blanks before what follows are read with the phrase, or there are none. -/
theorem left_gap {gap : List UInt8} (h : Gap (!p.keepsBlanks) gap)
    (ha : Lexeme.skipBlanks after = after) :
    p.left (gap ++ after) = after := by
  unfold left
  split
  · rename_i hkeeps
    rw [h.tight (by rw [hkeeps]; rfl), List.nil_append]
  · rw [Lexeme.skipBlanks_append h.blank, ha]

theorem Spaced.not_blank (h : Spaced anywhere p x) :
    ∃ b rest, x = b :: rest ∧ ¬ Byte.isBlank b = true := by
  have hopens := h.opens
  have hprimary {b : UInt8} (hb : opensPrimary b = true) : ¬ Byte.isBlank b = true :=
    not_isBlank_of_opensAdditive (opensAdditive_of_opensPrimary hb)
  cases rank
  case primary | term =>
    obtain ⟨b, rest, he, hb⟩ := hopens
    refine ⟨b, rest, he, ?_⟩
    split at hb
    · subst hb
      decide
    · exact hprimary hb
  case additive | relation =>
    obtain ⟨b, rest, he, hb⟩ := hopens
    refine ⟨b, rest, he, ?_⟩
    split at hb
    · rcases hb with rfl | rfl
      · decide
      · decide
    · exact hprimary hb

theorem Spaced.skipBlanks_append (h : Spaced anywhere p x) (after : List UInt8) :
    Lexeme.skipBlanks (x ++ after) = x ++ after := by
  obtain ⟨b, rest, rfl, hb⟩ := h.not_blank
  exact skipBlanks_cons hb _

/-- A spelling without the minus sign that is taken from it. -/
def front (taken : Bool) (x : List UInt8) : List UInt8 :=
  if taken then x.tail else x

theorem Spaced.front_append (h : Spaced anywhere p x) (taken : Bool) (after : List UInt8) :
    front taken (x ++ after) = front taken x ++ after := by
  obtain ⟨b, rest, rfl, -⟩ := h.not_blank
  cases taken with
  | true => rfl
  | false => rfl

end

theorem Spaced.begins {a : Phrase .additive} {anywhere : Bool} {x : List UInt8}
    (h : Spaced anywhere a x) (after : List UInt8) : Begins opensAdditive (x ++ after) := by
  obtain ⟨b, rest, rfl, hb⟩ := h.opens
  apply begins_cons
  split at hb
  · rcases hb with rfl | rfl
    · rfl
    · rfl
  · exact opensAdditive_of_opensPrimary hb

theorem parts_readTerm_gap {gap : List UInt8} (h : Gap true gap) (text : List UInt8) :
    (readTerm (gap ++ text)).parts = (readTerm text).parts := by
  rw [parts_readTerm, parts_readTerm, parts_readPrimary_skipBlanks
    (Lexeme.skipBlanks_append h.blank text)]

theorem head_gap {gap : List UInt8} (h : Gap true gap) (hne : gap ≠ []) (text : List UInt8) :
    ((gap ++ text).head?.bind signOperator?).isSome = false := by
  cases gap with
  | nil => exact absurd rfl hne
  | cons b blanks =>
    show (signOperator? b).isSome = false
    rw [(operator?_of_isBlank (h.blank b List.mem_cons_self)).2]
    rfl

/-- Blanks before an additive keep a sign from being read as the sign of the additive. -/
theorem parts_readAdditive_gap {gap : List UInt8} (h : Gap true gap) (hne : gap ≠ [])
    (text : List UInt8) :
    (readAdditive (gap ++ text)).parts = (readTerms (readTerm text).parts.1
      (readTerm text).parts.2).parts := by
  rw [parts_readAdditive, head_gap h hne, parts_readTerm_gap h]
  rfl

/-- Blanks before a relation are skipped, unless it begins with a sign. -/
theorem parts_readRelation_gap {e : Phrase .relation} {anywhere : Bool} {gap x : List UInt8}
    (h : Gap (!e.beginsWithSign) gap) (hx : Spaced anywhere e x) (after : List UInt8) :
    (readRelation (gap ++ (x ++ after))).parts = (readRelation (x ++ after)).parts := by
  by_cases hgap : gap = []
  · rw [hgap, List.nil_append]
  · have hsign : e.beginsWithSign = false := by
      by_contra hsign
      rw [Bool.not_eq_false] at hsign
      exact hgap (h.tight (by rw [hsign]; rfl))
    obtain ⟨c, rest, he, hc⟩ := hx.opens
    rw [if_neg (by rw [hsign]; exact Bool.false_ne_true)] at hc
    -- Without a sign at its beginning the phrase takes the branch that it takes behind blanks.
    have hterm : ((x ++ after).head?.bind signOperator?).isSome = false := by
      rw [he]
      show (signOperator? c).isSome = false
      rw [signOperator?_of_opensPrimary hc]
      rfl
    have hadditive : (readAdditive (gap ++ (x ++ after))).parts =
        (readAdditive (x ++ after)).parts := by
      rw [parts_readAdditive_gap ⟨h.blank, fun h => by cases h⟩ hgap, parts_readAdditive, hterm]
      rfl
    rw [parts_readRelation rfl, parts_readRelation rfl, hadditive]

/-- What follows a phrase goes on with neither the number nor the name that the phrase ends with. -/
def EndsAt : {rank : Rank} → Phrase rank → List UInt8 → Prop
  | _, number _, after => Begins (!Byte.isDigit ·) after
  | _, var _, after => Begins (!Byte.isUpper ·) after
  | _, call _ _, _ => True
  | _, group _, _ => True
  | _, negate p, after => p.EndsAt after
  | _, single p, after => p.EndsAt after
  | _, factor _ _ p, after => p.EndsAt after
  | _, unsigned t, after => t.EndsAt after
  | _, signed _ t, after => t.EndsAt after
  | _, joined _ _ t, after => t.EndsAt after
  | _, plain a, after => a.EndsAt after
  | _, compared _ _ right, after => right.EndsAt after

/-- No phrase goes on with a blank, or with what is neither a digit nor a letter. -/
theorem endsAt_of_begins {rank : Rank} (p : Phrase rank) {after : List UInt8}
    (h : Begins (orBlank stopsPrimary) after) : p.EndsAt after := by
  induction p with
  | number n =>
    exact h.mono fun b hb => Bool.not_eq_true' _ ▸ Bool.eq_false_iff.2 (not_isDigit_of_orBlank hb)
  | var v =>
    exact h.mono fun b hb => Bool.not_eq_true' _ ▸ Bool.eq_false_iff.2 (not_isUpper_of_orBlank hb)
  | call f argument ih => trivial
  | group inner ih => trivial
  | negate p ih => exact ih
  | single p ih => exact ih
  | factor t sign p iht ihp => exact ihp
  | unsigned t ih => exact ih
  | signed sign t ih => exact ih
  | joined a sign t iha iht => exact iht
  | plain a ih => exact ih
  | compared left sign right ihl ihr => exact ihr

/-- A phrase ends before this text, and what is left of the text after the phrase was read begins
with a blank or with such a byte. -/
structure EndsBefore {rank : Rank} (p : Phrase rank) (stops : UInt8 → Bool) (after : List UInt8) :
    Prop where
  text : p.EndsAt after
  left : Begins (orBlank stops) (p.left after)

theorem endsBefore {rank : Rank} (p : Phrase rank) {stops : UInt8 → Bool} {after : List UInt8}
    (hp : p.EndsAt after) (h : Begins stops (Lexeme.skipBlanks after)) : p.EndsBefore stops after :=
  ⟨hp, begins_left h⟩

def Readable : {rank : Rank} → Phrase rank → List UInt8 → Prop
  | .primary, p, x => ∀ taken after, (taken = true → p.negative = true) →
    p.EndsAt after → (readPrimary (front taken x ++ after)).parts = (p.expr taken, after)
  | .term, t, x => ∀ taken after, (taken = true → t.negative = true) →
    t.EndsAt after → (readTerm (front taken x ++ after)).parts =
      (readFactors (t.expr taken) (t.left after)).parts
  | .additive, a, x => ∀ after, a.EndsBefore stopsTerm after →
    (readAdditive (x ++ after)).parts = (readTerms (a.expr false) (a.left after)).parts
  | .relation, e, x => ∀ after, e.EndsAt after → Begins stopsRelation (Lexeme.skipBlanks after) →
    (readRelation (x ++ after)).parts = (e.expr false, e.left after)

theorem Readable.term {t : Phrase .term} {x : List UInt8} (h : t.Readable x) (taken : Bool)
    {after : List UInt8}
    (ht : taken = true → t.negative = true) (ha : t.EndsBefore stopsTerm after) :
    (readTerm (front taken x ++ after)).parts = (t.expr taken, t.left after) := by
  rw [h taken after ht ha.text]
  exact parts_readFactors_stop _ ha.left

theorem Readable.additive {a : Phrase .additive} {x : List UInt8} (h : a.Readable x)
    {after : List UInt8} (ha : a.EndsBefore stopsAdditive after) :
    (readAdditive (x ++ after)).parts = (a.expr false, a.left after) := by
  rw [h after ⟨ha.text, ha.left.mono (orBlank_mono fun _ => stopsTerm_of_stopsAdditive)⟩]
  exact parts_readTerms_stop _ ha.left

theorem Readable.closed {e : Phrase .relation} {opening x closing : List UInt8} (h : e.Readable x)
    (hx : Spaced false e x) (hopening : Gap (!e.beginsWithSign) opening)
    (hclosing : Gap (!e.keepsBlanks) closing) (wrap : Expr → Expr) (after : List UInt8) :
    Reading.closed wrap (readRelation (opening ++ (x ++ (closing ++ byte ')' :: after)))).parts =
      (wrap (e.expr false), after) := by
  have hclose : Lexeme.skipBlanks (byte ')' :: after) = byte ')' :: after := rfl
  have hskip : Lexeme.skipBlanks (closing ++ byte ')' :: after) = byte ')' :: after :=
    (Lexeme.skipBlanks_append hclosing.blank _).trans hclose
  have hends : e.EndsAt (closing ++ byte ')' :: after) :=
    e.endsAt_of_begins (Begins.orBlank (hskip.symm ▸ begins_cons rfl))
  rw [parts_readRelation_gap hopening hx, h _ hends (hskip.symm ▸ begins_cons rfl),
    left_gap hclosing hclose]
  rfl

section
variable {p : Phrase .primary} {t : Phrase .term} {a b : Phrase .additive} {e : Phrase .relation}
variable {gap opening closing before behind x y : List UInt8}

theorem readable_number (n : Nat) : (number n).Readable (Decimal.digits n) := by
  intro taken after ht ha
  cases taken with
  | true => exact absurd (ht rfl) Bool.false_ne_true
  | false => exact parts_readPrimary_number n ha

theorem readable_var (v : Variable) : (var v).Readable [v.letter] := by
  intro taken after ht ha
  cases taken with
  | true => exact absurd (ht rfl) Bool.false_ne_true
  | false => exact parts_readPrimary_var v ha

theorem Readable.negate (hp : p.Readable x) (hgap : Gap true gap) :
    (negate p).Readable (byte '-' :: (gap ++ x)) := by
  intro taken after _ ha
  have hread : (readPrimary ((gap ++ x) ++ after)).parts = (p.expr false, after) := by
    rw [List.append_assoc, parts_readPrimary_skipBlanks (Lexeme.skipBlanks_append hgap.blank _)]
    exact hp false after (fun h => absurd h Bool.false_ne_true) ha
  cases taken with
  | true => exact hread
  | false =>
    show (readPrimary (byte '-' :: ((gap ++ x) ++ after))).parts = _
    rw [parts_readPrimary_negate, hread]
    rfl

theorem Readable.call (he : e.Readable x) (hx : Spaced false e x) (f : Function)
    (hgap : Gap true gap) (hopening : Gap (!e.beginsWithSign) opening)
    (hclosing : Gap (!e.keepsBlanks) closing) :
    (call f e).Readable
      (ascii (Function.vocabulary.spelling f) ++ (gap ++ byte '(' ::
        (opening ++ (x ++ (closing ++ [byte ')']))))) := by
  intro taken after ht ha
  cases taken with
  | true => exact absurd (ht rfl) Bool.false_ne_true
  | false =>
    have hopen : Lexeme.skipBlanks (gap ++ byte '(' ::
      (opening ++ (x ++ (closing ++ byte ')' :: after)))) =
        byte '(' :: (opening ++ (x ++ (closing ++ byte ')' :: after))) :=
          Lexeme.skipBlanks_append hgap.blank _
    rw [front, if_neg Bool.false_ne_true, List.append_assoc, List.append_assoc, List.cons_append,
      List.append_assoc,
      List.append_assoc, List.append_assoc, List.singleton_append, parts_readPrimary_call _ f hopen,
      he.closed hx hopening hclosing]
    rfl

theorem Readable.group (he : e.Readable x) (hx : Spaced false e x)
    (hopening : Gap (!e.beginsWithSign) opening) (hclosing : Gap (!e.keepsBlanks) closing) :
    (group e).Readable (byte '(' :: (opening ++ (x ++ (closing ++ [byte ')'])))) := by
  intro taken after ht ha
  cases taken with
  | true => exact absurd (ht rfl) Bool.false_ne_true
  | false =>
    rw [front, if_neg Bool.false_ne_true, List.cons_append, List.append_assoc, List.append_assoc,
      List.append_assoc,
      List.singleton_append, parts_readPrimary_group, he.closed hx hopening hclosing]
    rfl

theorem Readable.single (hp : p.Readable x) : (single p).Readable x := by
  intro taken after ht ha
  have hread := hp taken after ht ha
  rw [parts_readTerm, hread]
  rfl

theorem Readable.factor (ht : t.Readable x) (hx : Spaced false t x) (hp : p.Readable y)
    (sign : FactorSign) (hbefore : Gap (!t.keepsBlanks) before) (hbehind : Gap true behind) :
    (factor t sign p).Readable (x ++ (before ++ sign.byte :: (behind ++ y))) := by
  intro taken after htaken ha
  have hblank : Lexeme.skipBlanks (sign.byte :: (behind ++ (y ++ after))) = sign.byte ::
      (behind ++ (y ++ after)) :=
    skipBlanks_cons (by cases sign <;> decide) _
  have hsign : t.EndsAt (before ++ sign.byte :: (behind ++ (y ++ after))) := by
    apply t.endsAt_of_begins (Begins.orBlank _)
    rw [Lexeme.skipBlanks_append hbefore.blank, hblank]
    exact begins_cons (by cases sign <;> rfl)
  have hoperator : factorOperator? sign.byte = some sign.operator := by
    cases sign with
    | star => rfl
    | slash => rfl
    | percent => rfl
  have hprimary : (readPrimary (behind ++ (y ++ after))).parts = (p.expr false, after) := by
    rw [parts_readPrimary_skipBlanks (Lexeme.skipBlanks_append hbehind.blank _)]
    exact hp false after (fun h => absurd h Bool.false_ne_true) ha
  -- Behind the blanks that the term leaves, its sign is the next operator.
  rw [hx.front_append, List.append_assoc, List.append_assoc, List.cons_append, List.append_assoc,
    ht taken _ htaken hsign, left_gap hbefore hblank, parts_readFactors_cons, hoperator]
  dsimp only
  rw [hprimary]
  rfl

theorem Readable.unsigned (ht : t.Readable x) (hx : Spaced false t x) :
    (unsigned t).Readable x := by
  intro after ha
  obtain ⟨first, rest, he, hfirst⟩ := hx.opens
  show _ = (readTerms (if t.negative then _ else _) (t.left after)).parts
  cases hneg : t.negative with
  | true =>
    -- The minus sign is read as the sign of the additive.
    rw [if_pos hneg] at hfirst
    subst hfirst
    have hread : (readTerm (rest ++ after)).parts = (t.expr true, t.left after) := by
      have hterm := ht.term true (fun _ => hneg) ⟨ha.text, ha.left⟩
      rw [front, if_pos rfl, he] at hterm
      exact hterm
    rw [he, List.cons_append, parts_readAdditive, if_pos rfl, parts_readTerms_cons,
      show signOperator? (byte '-') = some .difference from rfl]
    dsimp only
    rw [hread]
    rfl
  | false =>
    rw [if_neg (by rw [hneg]; exact Bool.false_ne_true)] at hfirst
    have hsign : ((x ++ after).head?.bind signOperator?).isSome = false := by
      rw [he]
      show (signOperator? first).isSome = false
      rw [signOperator?_of_opensPrimary hfirst]
      rfl
    have hread : (readTerm (x ++ after)).parts = (t.expr false, t.left after) :=
      ht.term false (fun h => absurd h Bool.false_ne_true) ⟨ha.text, ha.left⟩
    rw [parts_readAdditive, hsign, hread]
    rfl

theorem signOperator?_byte (sign : Sign) : signOperator? sign.byte = some sign.operator := by
  cases sign with
  | plus => rfl
  | minus => rfl

theorem Readable.term_gap (ht : t.Readable x) (hgap : Gap true gap) {after : List UInt8}
    (ha : t.EndsBefore stopsTerm after) :
    (readTerm (gap ++ (x ++ after))).parts = (t.expr false, t.left after) := by
  rw [parts_readTerm_gap hgap]
  exact ht.term false (fun h => absurd h Bool.false_ne_true) ha

theorem Readable.signed (ht : t.Readable x) (sign : Sign) (hgap : Gap true gap) :
    (signed sign t).Readable (sign.byte :: (gap ++ x)) := by
  intro after ha
  show (readAdditive (sign.byte :: ((gap ++ x) ++ after))).parts = _
  rw [List.append_assoc, parts_readAdditive, List.head?_cons, Option.bind_some, signOperator?_byte,
    if_pos (by rfl),
    parts_readTerms_cons, signOperator?_byte]
  dsimp only
  rw [ht.term_gap hgap ⟨ha.text, ha.left⟩]
  rfl

theorem Readable.joined (ha : a.Readable x) (ht : t.Readable y) (sign : Sign)
    (hbefore : Gap (!a.keepsBlanks) before) (hbehind : Gap true behind) :
    (joined a sign t).Readable (x ++ (before ++ sign.byte :: (behind ++ y))) := by
  intro after hafter
  have hblank : Lexeme.skipBlanks (sign.byte :: (behind ++ (y ++ after))) = sign.byte ::
      (behind ++ (y ++ after)) :=
    skipBlanks_cons (by cases sign <;> decide) _
  have hskip : Lexeme.skipBlanks (before ++ sign.byte :: (behind ++ (y ++ after))) =
      sign.byte :: (behind ++ (y ++ after)) := by
    rw [Lexeme.skipBlanks_append hbefore.blank, hblank]
  have hends : a.EndsAt (before ++ sign.byte :: (behind ++ (y ++ after))) :=
    a.endsAt_of_begins (Begins.orBlank (hskip.symm ▸ begins_cons (by cases sign <;> rfl)))
  rw [List.append_assoc, List.append_assoc, List.cons_append, List.append_assoc,
    ha _ (a.endsBefore hends (hskip.symm ▸ begins_cons (by cases sign <;> rfl))),
      left_gap hbefore hblank,
    parts_readTerms_cons, signOperator?_byte]
  dsimp only
  rw [ht.term_gap hbehind ⟨hafter.text, hafter.left⟩]
  rfl

theorem Readable.plain (ha : a.Readable x) : (plain a).Readable x := by
  intro after hends hafter
  have hread :=
    ha.additive (a.endsBefore hends (hafter.mono fun _ => stopsAdditive_of_stopsRelation))
  rw [parts_readRelation rfl, hread]
  dsimp only
  rw [token_left, token_relation_none (hafter.mono fun _ => stopsSign_of_stopsRelation)]
  rfl

theorem Readable.compared (ha : a.Readable x) (hb : b.Readable y) (hy : Spaced false b y)
    (sign : RelationSign) (hbefore : Gap true before) (hbehind : Gap true behind) :
    (compared a sign b).Readable (x ++ (before ++ (ascii sign.val.1 ++ (behind ++ y)))) := by
  intro after hends hafter
  obtain ⟨c, rest, he, hprimary, hc⟩ := exists_ascii_sign sign.property
  have hblank : Lexeme.skipBlanks (ascii sign.val.1 ++ (behind ++ (y ++ after))) =
      ascii sign.val.1 ++ (behind ++ (y ++ after)) := by
    rw [he]
    exact skipBlanks_cons (not_isBlank_of_stopsPrimary hprimary) _
  have hskip : Lexeme.skipBlanks (behind ++ (y ++ after)) = y ++ after := by
    rw [Lexeme.skipBlanks_append hbehind.blank, hy.skipBlanks_append]
  have hsign : Lexeme.skipBlanks (before ++ (ascii sign.val.1 ++ (behind ++ (y ++ after)))) =
      c :: (rest ++ (behind ++ (y ++ after))) := by
    rw [Lexeme.skipBlanks_append hbefore.blank, hblank, he]
    rfl
  have hleft : a.EndsBefore stopsAdditive (before ++
      (ascii sign.val.1 ++ (behind ++ (y ++ after)))) :=
    a.endsBefore (a.endsAt_of_begins (Begins.orBlank (hsign.symm ▸ begins_cons hprimary)))
      (hsign.symm ▸ begins_cons hc)
  have htoken : Lexeme.token Relation.vocabulary
    (before ++ (ascii sign.val.1 ++ (behind ++ (y ++ after)))) =
      (some sign.val.2, y ++ after) := by
    rw [← token_skipBlanks, Lexeme.skipBlanks_append hbefore.blank, hblank,
      token_relation sign (by rw [hskip]; exact hy.begins after), hskip]
  have hright :=
    hb.additive (b.endsBefore hends (hafter.mono fun _ => stopsAdditive_of_stopsRelation))
  rw [List.append_assoc, List.append_assoc, List.append_assoc, List.append_assoc,
    parts_readRelation rfl,
    ha.additive hleft]
  dsimp only
  rw [token_left, htoken]
  dsimp only
  rw [hright]
  rfl

end

theorem Spaced.readable {rank : Rank} {p : Phrase rank} {x : List UInt8} (h : Spaced false p x) :
    p.Readable x := by
  induction h with
  | number n => exact readable_number n
  | var v => exact readable_var v
  | negate hgap _ ih => exact ih.negate hgap
  | call f hgap hopening hx hclosing ih => exact ih.call hx f hgap hopening hclosing
  | group hopening hx hclosing ih => exact ih.group hx hopening hclosing
  | single _ ih => exact ih.single
  | factor sign hx hbefore hbehind _ iht ihp => exact iht.factor hx ihp sign hbefore hbehind
  | unsigned hx ih => exact ih.unsigned hx
  | signed sign hgap _ ih => exact ih.signed sign hgap
  | joined sign _ hbefore hbehind _ iha iht => exact iha.joined iht sign hbefore hbehind
  | plain _ ih => exact ih.plain
  | compared sign _ hbefore hbehind hy ihl ihr => exact ihl.compared ihr hy sign hbefore hbehind

theorem readable {rank : Rank} (p : Phrase rank) : p.Readable p.spell :=
  (p.spaced_spell false).readable

theorem Readable.relation {e : Phrase .relation} (h : e.Readable e.spell) {after : List UInt8}
    (hp : Begins stopsPrimary after) (ha : Begins stopsRelation after) :
    (readRelation (e.spell ++ after)).parts = (e.expr false, after) := by
  have hskip := skipBlanks_of_begins hp
  have hends : e.EndsAt after := e.endsAt_of_begins (Begins.orBlank (by rwa [hskip]))
  rw [h after hends (by rwa [hskip]), left_eq hskip]

end Phrase
end LineBasic
