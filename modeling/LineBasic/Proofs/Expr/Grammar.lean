import LineBasic.Expr.Reading

namespace LineBasic

inductive Rank
  | primary | term | additive | relation

inductive Sign
  | plus | minus

namespace Sign

def byte : Sign → UInt8
  | plus => LineBasic.byte '+'
  | minus => LineBasic.byte '-'

def operator : Sign → Operator
  | plus => .sum
  | minus => .difference

end Sign

inductive FactorSign
  | star | slash | percent

namespace FactorSign

def byte : FactorSign → UInt8
  | star => LineBasic.byte '*'
  | slash => LineBasic.byte '/'
  | percent => LineBasic.byte '%'

def operator : FactorSign → Operator
  | star => .product
  | slash => .quotient
  | percent => .remainder

end FactorSign

abbrev RelationSign := { entry : String × Relation // entry ∈ Relation.vocabulary }

inductive Phrase : Rank → Type
  | number (n : Nat) : Phrase .primary
  | var (v : Variable) : Phrase .primary
  | negate (p : Phrase .primary) : Phrase .primary
  | call (f : Function) (argument : Phrase .relation) : Phrase .primary
  | group (inner : Phrase .relation) : Phrase .primary
  | single (p : Phrase .primary) : Phrase .term
  | factor (t : Phrase .term) (sign : FactorSign) (p : Phrase .primary) : Phrase .term
  | unsigned (t : Phrase .term) : Phrase .additive
  | signed (sign : Sign) (t : Phrase .term) : Phrase .additive
  | joined (a : Phrase .additive) (sign : Sign) (t : Phrase .term) : Phrase .additive
  | plain (a : Phrase .additive) : Phrase .relation
  | compared (left : Phrase .additive) (sign : RelationSign) (right : Phrase .additive) :
    Phrase .relation

namespace Phrase

/-- A number is 0 or begins with another digit. -/
def spell : {rank : Rank} → Phrase rank → List UInt8
  | _, number n => Decimal.digits n
  | _, var v => [v.letter]
  | _, negate p => byte '-' :: p.spell
  | _, call f argument =>
    ascii (Function.vocabulary.spelling f) ++ byte '(' :: (argument.spell ++ [byte ')'])
  | _, group inner => byte '(' :: (inner.spell ++ [byte ')'])
  | _, single p => p.spell
  | _, factor t sign p => t.spell ++ sign.byte :: p.spell
  | _, unsigned t => t.spell
  | _, signed sign t => sign.byte :: t.spell
  | _, joined a sign t => a.spell ++ sign.byte :: t.spell
  | _, plain a => a.spell
  | _, compared left sign right => left.spell ++ (ascii sign.val.1 ++ right.spell)

def negative : {rank : Rank} → Phrase rank → Bool
  | _, negate _ => true
  | _, single p => p.negative
  | _, factor t _ _ => t.negative
  | _, _ => false

end Phrase

abbrev Reckoning := EStateM Diagnostic Generator Int16

/-- The result of an operator on integers, wrapped to 16 bits. Division truncates toward zero. -/
def Operator.reckon (op : Operator) (x y : Int) : Reckoning :=
  match op with
  | sum => pure (Int16.ofInt (x + y))
  | difference => pure (Int16.ofInt (x - y))
  | product => pure (Int16.ofInt (x * y))
  | quotient => if y = 0 then throw .divisionByZero else pure (Int16.ofInt (x.tdiv y))
  | remainder => if y = 0 then throw .divisionByZero else pure (Int16.ofInt (x.tmod y))

def Relation.between (relation : Relation) (x y : Int) : Bool :=
  match relation with
  | greaterEqual => y ≤ x
  | notEqual => x ≠ y
  | greater => y < x
  | equal => x = y
  | lessEqual => x ≤ y
  | less => x < y

/-- What the signs of relations say of two integers, each by its spelling. -/
theorem Relation.vocabulary_between (x y : Int) :
    Relation.vocabulary.map (fun (spelling, relation) => (spelling, relation.between x y)) =
      [(">=", decide (x ≥ y)), ("<>", decide (x ≠ y)), (">", decide (x > y)), ("=", decide (x = y)),
        ("<=", decide (x ≤ y)), ("<", decide (x < y)), ("!=", decide (x ≠ y))] := rfl

/-- A function is worth what it gives for its argument; only `RND` draws. -/
def Function.reckon (f : Function) (s : Surroundings) (x : Int16) : Reckoning :=
  match f with
  | peek =>
    match s.peek x with
    | some b => pure (Int16.ofNat b.toNat)
    | none => throw .peekOutOfRange
  | abs => pure (Int16.ofInt x.toInt.natAbs)
  | aread | dread => pure 0
  | rnd =>
    if x = 0 then throw .randomBelowZero
    else do
      let n ← modifyGet (Generator.below x.toInt.natAbs)
      return Int16.ofNat n

theorem Function.spelling_vocabulary (f : Function) :
    Function.vocabulary.spelling f =
      match f with
      | peek => "PEEK"
      | abs => "ABS"
      | aread => "AREAD"
      | dread => "DREAD"
      | rnd => "RND" := by
  cases f <;> rfl

namespace Phrase

/-- What a phrase is worth, its parts from left to right. A sign that an additive begins with acts
on an implicit 0, also where it is the minus sign of the first primary; then the sign is `taken`
from it. -/
def reckon (s : Surroundings) : {rank : Rank} → Phrase rank → Bool → Reckoning
  | _, number n, _ => pure (Int16.ofNat n)
  | _, var v, _ => pure (s.fetch v)
  | _, negate p, taken => do
    let x ← p.reckon s false
    return if taken then x else Int16.ofInt (-x.toInt)
  | _, call f argument, _ => do f.reckon s (← argument.reckon s false)
  | _, group inner, _ => inner.reckon s false
  | _, single p, taken => p.reckon s taken
  | _, factor t sign p, taken => do
    let x ← t.reckon s taken
    let y ← p.reckon s false
    sign.operator.reckon x.toInt y.toInt
  | _, unsigned t, _ =>
    if t.negative then do
      let y ← t.reckon s true
      Operator.difference.reckon 0 y.toInt
    else t.reckon s false
  | _, signed sign t, _ => do
    let y ← t.reckon s false
    sign.operator.reckon 0 y.toInt
  | _, joined a sign t, _ => do
    let x ← a.reckon s false
    let y ← t.reckon s false
    sign.operator.reckon x.toInt y.toInt
  | _, plain a, _ => a.reckon s false
  | _, compared left sign right, _ => do
    let x ← left.reckon s false
    let y ← right.reckon s false
    return if sign.val.2.between x.toInt y.toInt then 1 else 0

end Phrase
end LineBasic
