import LineBasic.Error
import LineBasic.Vocabulary

namespace LineBasic

inductive Operator
  | sum | difference | product | quotient | remainder
  deriving DecidableEq, Repr

/-- Everything wraps on overflow, and division truncates toward zero. -/
def Operator.apply (op : Operator) (a b : Int16) : Except Diagnostic Int16 :=
  match op with
  | sum => .ok (a + b)
  | difference => .ok (a - b)
  | product => .ok (a * b)
  | quotient => if b = 0 then .error .divisionByZero else .ok (a / b)
  | remainder => if b = 0 then .error .divisionByZero else .ok (a % b)

inductive Relation
  | greaterEqual | notEqual | greater | equal | lessEqual | less
  deriving DecidableEq, Repr

namespace Relation

def vocabulary : Vocabulary Relation :=
  [(">=", greaterEqual), ("<>", notEqual), (">", greater), ("=", equal), ("<=", lessEqual),
    ("<", less), ("!=", notEqual)]

def holds (r : Relation) (a b : Int16) : Bool :=
  match r with
  | greaterEqual => b ≤ a
  | notEqual => a ≠ b
  | greater => b < a
  | equal => a = b
  | lessEqual => a ≤ b
  | less => a < b

def compare (r : Relation) (a b : Int16) : Int16 :=
  if r.holds a b then 1 else 0

end Relation
end LineBasic
