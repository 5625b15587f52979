import LineBasic.Expr.Basic

namespace LineBasic

def Generator.afterDraw (g : Generator) (n : Int16) : Generator :=
  (g.below? n).2

@[simp] theorem Generator.random_afterDraw (g : Generator) (n : Int16) :
    (g.afterDraw n).random = g.random := by
  rw [afterDraw, below?]
  split
  · rfl
  · rfl

theorem Generator.random_draws (ns : List Int16) (g : Generator) :
    (ns.foldl afterDraw g).random = g.random := by
  induction ns generalizing g with
  | nil => rfl
  | cons n ns ih => rw [List.foldl_cons, ih, random_afterDraw]

theorem Function.generator_apply (f : Function) (s : Surroundings) (g : Generator) (x : Int16) :
    (f.apply s g x).2 = if f = .rnd then g.afterDraw x else g := by
  cases f with
  | rnd => rfl
  | peek | abs | aread | dread => rfl

namespace Expr
variable (s : Surroundings)

/-- The arguments of `RND` in an evaluation, in the order in which it is applied to them. -/
def draws : Expr → Trial → List Int16
  | literal _, _ | var _, _ | absent, _ | malformed _, _ => []
  | negate e, t | group e, t | unclosed e, t => e.draws t
  | arith _ left right, t | compare _ left right, t => left.draws t ++ right.draws (left.eval s t).2
  | call f argument, t => argument.draws t ++ if f = .rnd then [(argument.eval s t).1] else []

theorem generator_eval (e : Expr) (t : Trial) :
    (e.eval s t).2.generator = (e.draws s t).foldl .afterDraw t.generator := by
  -- Operands draw one after the other, each from the trial that the one before it leaves.
  induction e generalizing t with
  | literal | var | absent | malformed => rfl
  | negate e ih | group e ih | unclosed e ih => exact ih t
  | arith op left right ihl ihr =>
    rw [draws, List.foldl_append, ← ihl, ← ihr, eval]
    dsimp only
    split
    · rfl
    · rfl
  | compare relation left right ihl ihr =>
    rw [draws, List.foldl_append, ← ihl, ← ihr]
    rfl
  | call f argument ih =>
    have happly := f.generator_apply s (argument.eval s t).2.generator (argument.eval s t).1
    have hgenerator : ((call f argument).eval s t).2.generator =
        (f.apply s (argument.eval s t).2.generator (argument.eval s t).1).2 := by
      rw [eval]
      dsimp only
      split
      case h_1 hz => rw [hz]
      case h_2 hz =>
        rw [hz]
        rfl
    rw [hgenerator, happly, draws, List.foldl_append, ← ih]
    split
    · rfl
    · rfl

/-- An evaluation draws from the generator where `RND` is applied, and leaves it alone otherwise. -/
theorem generator_evaluate (e : Expr) (g : Generator) :
    (e.evaluate s g).2 = (e.draws s { generator := g }).foldl .afterDraw g := by
  rw [← generator_eval s e { generator := g }, evaluate]
  dsimp only
  split
  · rfl
  · rfl

theorem random_evaluate (e : Expr) (g : Generator) : (e.evaluate s g).2.random = g.random := by
  rw [generator_evaluate, Generator.random_draws]

end Expr
end LineBasic
