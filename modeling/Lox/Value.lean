import Lox.Number
import Lox.Operator

/-!
# Values

The four kinds of values that programs compute with, and what the operators do to them.

* `BinaryOp.apply` and `UnaryOp.apply` are the operators; a `Refusal` says why one has no result;
* `Value.equal?` and `Value.compare?` are the comparisons, `none` where two values cannot be
  compared;
* `Value.text` is what `print` shows.
-/

namespace Lox

inductive ValueType where
  | nil | number | string | boolean
deriving DecidableEq, Repr

def ValueType.name : ValueType → String
  | nil => "Nil"
  | number => "Number"
  | string => "String"
  | boolean => "Boolean"

inductive Value where
  | nil
  | boolean (b : Bool)
  | number (x : Double)
  | string (s : String)
deriving Inhabited, DecidableEq

/-- Why an operator has no result. -/
inductive Refusal where
  | unsupported
  | divisionByZero
deriving DecidableEq, Repr

namespace Value

def type : Value → ValueType
  | nil => .nil
  | boolean _ => .boolean
  | number _ => .number
  | string _ => .string

/-- The value as `print` shows it; a string is shown bare. -/
def text : Value → String
  | nil => "nil"
  | boolean true => "true"
  | boolean false => "false"
  | number x => Number.text x
  | string s => s

/-- Whether a condition with this value holds: `nil` and `false` do not, all else does. -/
def truthy : Value → Bool
  | nil => false
  | boolean b => b
  | number _ => true
  | string _ => true

/-- Whether two values are of one kind and have the same content; numbers are compared as numbers, so
the two zeros are the same and no NaN is the same as itself. -/
def same : Value → Value → Bool
  | nil, nil => true
  | boolean a, boolean b => a == b
  | number a, number b => a.toFloat == b.toFloat
  | string a, string b => a == b
  | _, _ => false

def arithmetic (f : Float → Float → Float) : Value → Value → Except Refusal Value
  | number a, number b => .ok (number (.ofFloat (f a.toFloat b.toFloat)))
  | _, _ => .error .unsupported

def add : Value → Value → Except Refusal Value
  | string a, string b => .ok (string (a ++ b))
  | a, b => arithmetic (· + ·) a b

/-- The quotient of two numbers. Neither zero divides. -/
def divide : Value → Value → Except Refusal Value
  | number a, number b => if b.toFloat == 0 then .error .divisionByZero else .ok (number (.ofFloat (a.toFloat / b.toFloat)))
  | _, _ => .error .unsupported

/-- Equality, decided by the left operand: `nil` equals `nil` only; a boolean never equals `nil` and
otherwise equals what holds as a condition when it does; numbers and strings are compared with their
own kind only. -/
def equal? : Value → Value → Option Bool
  | nil, nil => some true
  | nil, _ => some false
  | boolean _, nil => some false
  | boolean a, b => some (a == b.truthy)
  | number a, number b => some (a.toFloat == b.toFloat)
  | string a, string b => some (a == b)
  | _, _ => none

def compare? (test : Float → Float → Bool) : Value → Value → Option Bool
  | number a, number b => some (test a.toFloat b.toFloat)
  | _, _ => none

end Value

/-- The truth value of a comparison of two operands, `none` if they cannot be compared or the operator
is no comparison. -/
def BinaryOp.compare? : BinaryOp → Value → Value → Option Bool
  | .less, a, b => a.compare? (fun x y => decide (x < y)) b
  | .lessEqual, a, b => a.compare? (fun x y => decide (x ≤ y)) b
  | .greater, a, b => a.compare? (fun x y => decide (y < x)) b
  | .greaterEqual, a, b => a.compare? (fun x y => decide (y ≤ x)) b
  | .equal, a, b => a.equal? b
  | .notEqual, a, b => (a.equal? b).map (! ·)
  | _, _, _ => none

def BinaryOp.apply : BinaryOp → Value → Value → Except Refusal Value
  | .add, a, b => a.add b
  | .subtract, a, b => a.arithmetic (· - ·) b
  | .multiply, a, b => a.arithmetic (· * ·) b
  | .divide, a, b => a.divide b
  | op, a, b =>
    match op.compare? a b with
    | some r => .ok (.boolean r)
    | none => .error .unsupported

/-- The value of a unary operator: only numbers are negated, and `not` turns any condition around. -/
def UnaryOp.apply : UnaryOp → Value → Except Refusal Value
  | .negate, .number x => .ok (.number x.neg)
  | .negate, _ => .error .unsupported
  | .not, v => .ok (.boolean (!v.truthy))

end Lox
