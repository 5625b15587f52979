import LineBasic.Arithmetic
import LineBasic.Random.Generator
import LineBasic.Variable

namespace LineBasic

/-- The functions of one argument. -/
inductive Function
  | peek | abs | aread | dread | rnd
  deriving DecidableEq, Repr

def Function.vocabulary : Vocabulary Function :=
  [("PEEK", peek), ("ABS", abs), ("AREAD", aread), ("DREAD", dread), ("RND", rnd)]

/-- An expression as it was read. Reading never gives up: what is malformed is part of the
tree. -/
inductive Expr
  | literal (n : Nat)
  | var (v : Variable)
  | negate (e : Expr)
  /-- The left operand that a leading sign lacks. -/
  | absent
  | arith (op : Operator) (left right : Expr)
  | compare (relation : Relation) (left right : Expr)
  | call (f : Function) (argument : Expr)
  | group (e : Expr)
  /-- A call or group whose closing parenthesis is missing. -/
  | unclosed (e : Expr)
  /-- What stands where a primary was expected. -/
  | malformed (why : Diagnostic)
  deriving DecidableEq, Repr

/-- What an expression can see of the machine: its variables and the bytes of its buffer. -/
structure Surroundings where
  fetch : Variable → Int16
  peek : Int16 → Option UInt8

structure Trial where
  generator : Generator
  fault : Option Diagnostic := none

def Trial.fail (t : Trial) (why : Diagnostic) : Trial :=
  { t with fault := t.fault.or (some why) }

def Surroundings.peekValue (s : Surroundings) (address : Int16) : Except Diagnostic Int16 :=
  match s.peek address with
  | some b => .ok (Int16.ofNat b.toNat)
  | none => .error .peekOutOfRange

def Generator.below? (g : Generator) (n : Int16) : Except Diagnostic Int16 × Generator :=
  if n = 0 then (.error .randomBelowZero, g)
  else
    let (v, g) := g.below n.toInt.natAbs
    (.ok (Int16.ofNat v), g)

def Function.apply (f : Function) (s : Surroundings) (g : Generator) (x : Int16) :
    Except Diagnostic Int16 × Generator :=
  match f with
  | peek => (s.peekValue x, g)
  | abs => (.ok x.abs, g)
  | aread | dread => (.ok 0, g)
  | rnd => g.below? x

namespace Expr

/-- How many times the evaluation of an expression applies `PEEK`. No part is skipped. -/
def peeks : Expr → Nat
  | literal _ | var _ | absent | malformed _ => 0
  | negate e | group e | unclosed e => e.peeks
  | arith _ left right | compare _ left right => left.peeks + right.peeks
  | call f argument => argument.peeks + if f = .peek then 1 else 0

/-- The value of an expression, operands from left to right. A failed division has the value
of its left operand, and every other failure the value 0. -/
def eval (s : Surroundings) : Expr → Trial → Int16 × Trial
  | literal n, t => (Int16.ofNat n, t)
  | var v, t => (s.fetch v, t)
  | negate e, t =>
    let (x, t) := e.eval s t
    (-x, t)
  | absent, t => (0, t)
  | arith op left right, t =>
    let (x, t) := left.eval s t
    let (y, t) := right.eval s t
    match op.apply x y with
    | .ok z => (z, t)
    | .error why => (x, t.fail why)
  | compare relation left right, t =>
    let (x, t) := left.eval s t
    let (y, t) := right.eval s t
    (relation.compare x y, t)
  | call f argument, t =>
    let (x, t) := argument.eval s t
    match f.apply s t.generator x with
    | (.ok z, g) => (z, { t with generator := g })
    | (.error why, g) => (0, { t with generator := g }.fail why)
  | group e, t => e.eval s t
  | unclosed e, t =>
    let (_, t) := e.eval s t
    (0, t.fail .expectedClosing)
  | malformed why, t => (0, t.fail why)

/-- The value of an expression or its first fault, and the generator after all its draws. -/
def evaluate (s : Surroundings) (e : Expr) (g : Generator) : Except Diagnostic Int16 × Generator :=
  let (x, t) := e.eval s { generator := g }
  match t.fault with
  | none => (.ok x, t.generator)
  | some why => (.error why, t.generator)

end Expr
end LineBasic
