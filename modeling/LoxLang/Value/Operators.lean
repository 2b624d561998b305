import LoxLang.Decimal.Binary64
import LoxLang.Diagnostic
import LoxLang.Value
/-!
Operators on values. Equality is defined on all values, `+` also joins a text with the text of any
value, and everything else takes numbers.
-/
namespace LoxLang.Value

/-- The value of an operator in front of an operand: negation, of a truth value or a number. -/
def unary? (op : Kind) (right : Value) : Except RuntimeFault Value :=
  match op with
  | .symbol .bang => .ok (.bool !right.truthy)
  | .symbol .minus =>
    match right with
    | .number x => .ok (.number (-x))
    | _ => .error .operandNotNumber
  | _ => .error .invalidOperator

/-- The sum of two numbers, or a text with the text of a value behind it. -/
def add? : Value → Value → Except RuntimeFault Value
  | .number x, .number y => .ok (.number (x + y))
  | .string s, right => .ok (.string (s ++ right.text))
  | _, _ => .error .operandsNotAddable

/-- Operators on two numbers. Dividing by zero is a fault; a remainder by zero is no number. -/
def arithmetic? (op : Kind) (x y : Float) : Except RuntimeFault Value :=
  match op with
  | .symbol .greater => .ok (.bool (decide (x > y)))
  | .symbol .greaterEqual => .ok (.bool (decide (x ≥ y)))
  | .symbol .less => .ok (.bool (decide (x < y)))
  | .symbol .lessEqual => .ok (.bool (decide (x ≤ y)))
  | .symbol .minus => .ok (.number (x - y))
  | .symbol .star => .ok (.number (x * y))
  | .symbol .percent => .ok (.number (Decimal.remainder x y))
  | .symbol .slash => if y == 0.0 then .error .divisionByZero else .ok (.number (x / y))
  | _ => .error .invalidOperator

def binary? (op : Kind) (left right : Value) : Except RuntimeFault Value :=
  match op with
  | .symbol .equalEqual => .ok (.bool (left.same right))
  | .symbol .bangEqual => .ok (.bool !left.same right)
  | .symbol .plus => add? left right
  | _ =>
    match left, right with
    | .number x, .number y => arithmetic? op x y
    | _, _ => .error .operandsNotNumbers

end LoxLang.Value
