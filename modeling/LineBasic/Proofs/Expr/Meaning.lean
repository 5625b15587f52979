import LineBasic.Proofs.Expr.Grammar
import LineBasic.Proofs.Outcome

namespace LineBasic

theorem Operator.reckon_eq (op : Operator) (x y : Int16) : op.reckon x.toInt y.toInt =
    match op.apply x y with
    | .ok z => pure z
    | .error why => throw why := by
  have hzero : y.toInt = 0 ↔ y = 0 := by
    rw [← Int16.toInt_inj]
    exact Iff.rfl
  cases op with
  | sum => simp only [reckon, apply, Int16.ofInt_add, Int16.ofInt_toInt]
  | difference => simp only [reckon, apply, Int16.ofInt_sub, Int16.ofInt_toInt]
  | product => simp only [reckon, apply, Int16.ofInt_mul, Int16.ofInt_toInt]
  | quotient =>
    simp only [reckon, apply, hzero]
    split
    · rfl
    · have hdiv : Int16.ofInt (x.toInt.tdiv y.toInt) = x / y := by
        rw [← Int16.toInt_inj, Int16.toInt_ofInt, Int16.toInt_div]
      rw [hdiv]
  | remainder =>
    simp only [reckon, apply, hzero]
    split
    · rfl
    · have hmod : Int16.ofInt (x.toInt.tmod y.toInt) = x % y := by
        rw [← Int16.toInt_mod, Int16.ofInt_toInt]
      rw [hmod]

theorem Relation.holds_eq (relation : Relation) (x y : Int16) :
    relation.holds x y = relation.between x.toInt y.toInt := by
  cases relation <;>
    simp only [holds, between, Int16.le_iff_toInt_le, Int16.lt_iff_toInt_lt,
      ← Int16.toInt_inj, ne_eq]

theorem ofInt_natAbs (x : Int16) : Int16.ofInt x.toInt.natAbs = x.abs := by
  rw [← Int16.toInt_inj, Int16.toInt_ofInt]
  show _ = x.toBitVec.abs.toInt
  rw [BitVec.toInt_abs_eq_natAbs]
  split
  · -- The magnitude of the least number wraps to the number itself.
    rename_i hmin
    have hx : x.toInt = -32768 := congrArg BitVec.toInt hmin
    rw [hx]
    rfl
  · have hlo := x.le_toInt
    have hhi := x.toInt_lt
    have hne : x.toInt ≠ -32768 := by
      intro he
      have : x.toBitVec = BitVec.intMin 16 := BitVec.eq_of_toInt_eq he
      contradiction
    show Int.bmod x.toInt.natAbs 65536 = (x.toInt.natAbs : Int)
    rw [Int.bmod_eq_of_le] <;> omega

theorem Function.reckon_eq (f : Function) (s : Surroundings) (x : Int16) (g : Generator) :
    f.reckon s x g =
    match f.apply s g x with
    | (.ok z, g) => .ok z g
    | (.error why, g) => .error why g := by
  cases f with
  | peek =>
    simp only [reckon, apply, Surroundings.peekValue]
    cases s.peek x with
    | some b => rfl
    | none => rfl
  | abs =>
    simp only [reckon, apply, ofInt_natAbs]
    rfl
  | aread => rfl
  | dread => rfl
  | rnd =>
    by_cases hx : x = 0
    · rw [reckon, apply, Generator.below?, if_pos hx, if_pos hx]
      rfl
    · rw [reckon, apply, Generator.below?, if_neg hx, if_neg hx]
      rfl

namespace Expr
variable {s : Surroundings} {e left right : Expr} {a b : Reckoning}

theorem fault_fail {t : Trial} {why other : Diagnostic} (h : t.fault = some why) :
    (t.fail other).fault = some why := by
  show t.fault.or _ = _
  rw [h]
  rfl

theorem fault_eval (s : Surroundings) (e : Expr) {t : Trial} {why : Diagnostic}
    (h : t.fault = some why) :
    (e.eval s t).2.fault = some why := by
  -- Operands are evaluated before their operator, which can only add a fault behind theirs.
  induction e generalizing t with
  | literal n => exact h
  | var v => exact h
  | negate e ih => exact ih h
  | absent => exact h
  | arith op left right ihl ihr =>
    have hboth := ihr (ihl h)
    simp only [eval]
    split
    · exact hboth
    · exact fault_fail hboth
  | compare relation left right ihl ihr => exact ihr (ihl h)
  | call f argument ih =>
    have harg := ih h
    simp only [eval]
    split
    · exact harg
    · exact fault_fail harg
  | group e ih => exact ih h
  | unclosed e ih => exact fault_fail (ih h)
  | malformed why => exact fault_fail h

theorem eval_congr {s' : Surroundings} (hf : s'.fetch = s.fetch) (hp : e.peeks = 0) (t : Trial) :
    e.eval s' t = e.eval s t := by
  induction e generalizing t with
  | literal n => rfl
  | var v => rw [eval, eval, hf]
  | negate e ih => rw [eval, eval, ih hp]
  | absent => rfl
  | arith op left right ihl ihr =>
    obtain ⟨hl, hr⟩ := Nat.add_eq_zero_iff.1 hp
    simp only [eval, ihl hl, ihr hr]
  | compare relation left right ihl ihr =>
    obtain ⟨hl, hr⟩ := Nat.add_eq_zero_iff.1 hp
    simp only [eval, ihl hl, ihr hr]
  | call f argument ih =>
    obtain ⟨ha, hf⟩ := Nat.add_eq_zero_iff.1 hp
    -- The call itself would count if it were `PEEK`.
    have hother : f ≠ .peek := by
      rintro rfl
      cases hf
    have happly (g : Generator) (x : Int16) : f.apply s' g x = f.apply s g x := by
      cases f with
      | peek => exact absurd rfl hother
      | _ => rfl
    simp only [eval, ih ha, happly]
  | group e ih => exact ih hp t
  | unclosed e ih => rw [eval, eval, ih hp]
  | malformed why => rfl

theorem evaluate_congr {s' : Surroundings} (hf : s'.fetch = s.fetch) (hp : e.peeks = 0)
    (g : Generator) :
    e.evaluate s' g = e.evaluate s g := by
  rw [evaluate, evaluate, eval_congr hf hp]

/-- The tree evaluates to what the reckoning gives, and to a fault where the reckoning ends at it.
-/
def Means (s : Surroundings) (e : Expr) (a : Reckoning) : Prop :=
  ∀ g, Ends (a g) (fun x g' => e.eval s { generator := g } = (x, { generator := g' }))
    fun why _ => (e.eval s { generator := g }).2.fault = some why

namespace Means

theorem pure {x : Int16} (h : ∀ t, e.eval s t = (x, t)) : Means s e (Pure.pure x) :=
  fun _ => h _

theorem two {f : Int16 → Int16 → Reckoning} (ha : Means s left a) (hb : Means s right b)
    (hfault : ∀ t why, (right.eval s (left.eval s t).2).2.fault = some why →
      (e.eval s t).2.fault = some why)
    (hf : ∀ x y g₀ g₁ g₂, left.eval s { generator := g₀ } = (x, { generator := g₁ }) →
      right.eval s { generator := g₁ } = (y, { generator := g₂ }) →
      Ends (f x y g₂) (fun z g' => e.eval s { generator := g₀ } = (z, { generator := g' }))
      fun why _ => (e.eval s { generator := g₀ }).2.fault = some why) :
    Means s e (do
      let x ← a
      let y ← b
      f x y) := by
  intro g
  refine Ends.bind ((ha g).mono (fun _ _ h => h) fun why _ h => hfault _ _ (fault_eval s right h))
    fun x g₁ hx => ?_
  refine Ends.bind ((hb g₁).mono (fun _ _ h => h) fun why _ h => hfault _ _ ?_) fun y g₂ hy =>
    hf x y g g₁ g₂ hx hy
  rw [hx]
  exact h

theorem arith (op : Operator) (ha : Means s left a) (hb : Means s right b) :
    Means s (.arith op left right) (do
      let x ← a
      let y ← b
      op.reckon x.toInt y.toInt) := by
  refine ha.two hb (fun t why h => ?_) fun x y g₀ g₁ g₂ hx hy => ?_
  · simp only [eval]
    split
    · exact h
    · exact fault_fail h
  · rw [Operator.reckon_eq]
    simp only [eval, hx, hy]
    cases op.apply x y with
    | ok z => exact rfl
    | error why => exact rfl

theorem compare (relation : Relation) (ha : Means s left a) (hb : Means s right b) :
    Means s (.compare relation left right) (do
      let x ← a
      let y ← b
      return if relation.between x.toInt y.toInt then 1 else 0) := by
  refine ha.two hb (fun t why h => h) fun x y g₀ g₁ g₂ hx hy => ?_
  simp only [eval, hx, hy, Relation.compare, Relation.holds_eq]
  exact rfl

theorem negate (ha : Means s e a) : Means s (.negate e) (do
    let x ← a
    return Int16.ofInt (-x.toInt)) := by
  intro g
  refine Ends.bind (ha g) fun x g₁ hx => ?_
  rw [Int16.ofInt_neg, Int16.ofInt_toInt]
  simp only [eval, hx]
  exact rfl

theorem call (f : Function) (ha : Means s e a) : Means s (.call f e) (do f.reckon s (← a)) := by
  intro g
  refine Ends.bind ((ha g).mono (fun _ _ h => h) fun why _ h => ?_) fun x g₁ hx => ?_
  · simp only [eval]
    split
    · exact h
    · exact fault_fail h
  · rw [Function.reckon_eq]
    simp only [eval, hx]
    cases hf : f.apply s g₁ x with
    | mk r g₂ =>
      cases r with
      | ok z => exact rfl
      | error why => exact rfl

end Means
end Expr

namespace Phrase

/-- The tree that a phrase is read as. -/
def expr : {rank : Rank} → Phrase rank → Bool → Expr
  | _, number n, _ => .literal n
  | _, var v, _ => .var v
  | _, negate p, taken => if taken then p.expr false else .negate (p.expr false)
  | _, call f argument, _ => .call f (argument.expr false)
  | _, group inner, _ => .group (inner.expr false)
  | _, single p, taken => p.expr taken
  | _, factor t sign p, taken => .arith sign.operator (t.expr taken) (p.expr false)
  | _, unsigned t, _ =>
    if t.negative then .arith .difference .absent (t.expr true) else t.expr false
  | _, signed sign t, _ => .arith sign.operator .absent (t.expr false)
  | _, joined a sign t, _ => .arith sign.operator (a.expr false) (t.expr false)
  | _, plain a, _ => a.expr false
  | _, compared left sign right, _ => .compare sign.val.2 (left.expr false) (right.expr false)

/-- The tree of a phrase evaluates to what the phrase is worth. -/
theorem means_expr (s : Surroundings) {rank : Rank} (p : Phrase rank) (taken : Bool) :
    (p.expr taken).Means s (p.reckon s taken) := by
  have habsent : Expr.Means s .absent (pure 0) := .pure fun _ => rfl
  -- Also for a phrase whose minus sign is taken from it, as a sum does with that of its first term.
  induction p generalizing taken with
  | number n => exact .pure fun _ => rfl
  | var v => exact .pure fun _ => rfl
  | negate p ih =>
    cases taken with
    | true =>
      intro g
      exact Ends.bind (ih false g) fun _ _ h => h
    | false => exact (ih false).negate
  | call f argument ih => exact (ih false).call f
  | group inner ih => exact ih false
  | single p ih => exact ih taken
  | factor t sign p iht ihp => exact (iht taken).arith sign.operator (ihp false)
  | unsigned t ih =>
    unfold expr reckon
    split
    · exact habsent.arith .difference (ih true)
    · exact ih false
  | signed sign t ih => exact habsent.arith sign.operator (ih false)
  | joined a sign t iha iht => exact (iha false).arith sign.operator (iht false)
  | plain a ih => exact ih false
  | compared left sign right ihl ihr => exact (ihl false).compare sign.val.2 (ihr false)

end Phrase
end LineBasic
