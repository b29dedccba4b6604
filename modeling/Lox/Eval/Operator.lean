import Lox.Eval.State

/-!
# Operators

What the operators do to values. An operator that has no meaning where it stands is a fault, which
no program spells: only a tree put together by hand has one.
-/

namespace Lox

namespace Value

def unary (operator : Token) (v : Value) : Except RuntimeFault Value :=
  match operator.kind with
  | .symbol .minus =>
    match v with
    | number x => .ok (number (-x))
    | _ => .error .operandNotNumber
  | .symbol .bang => .ok (bool (!v.isTruthy))
  | _ => .error .invalidUnary

/-- Numbers are added and strings are joined. -/
def add : Value → Value → Except RuntimeFault Value
  | number x, number y => .ok (number (x + y))
  | string s, string t => .ok (string (s ++ t))
  | _, _ => .error .operandsNotAddable

/-- Arithmetic and comparison. -/
def arithmetic (operator : Token) (x y : Float) : Except RuntimeFault Value :=
  match operator.kind with
  | .symbol .minus => .ok (number (x - y))
  | .symbol .star => .ok (number (x * y))
  | .symbol .slash => .ok (number (x / y))
  | .symbol .greater => .ok (bool (y < x))
  | .symbol .greaterEqual => .ok (bool (y ≤ x))
  | .symbol .less => .ok (bool (x < y))
  | .symbol .lessEqual => .ok (bool (x ≤ y))
  | _ => .error .invalidBinary

def binary (operator : Token) (v w : Value) : Except RuntimeFault Value :=
  match operator.kind with
  | .symbol .plus => v.add w
  | .symbol .equalEqual => .ok (bool (v.equals w))
  | .symbol .bangEqual => .ok (bool (!v.equals w))
  | _ =>
    match v, w with
    | number x, number y => arithmetic operator x y
    | _, _ => .error .operandsNotNumbers

/-- Whether the left side of a logical operator is already its value. -/
def decides (operator : Token) (left : Value) : Bool :=
  if operator.isKeyword .orKw then left.isTruthy else !left.isTruthy

end Value

/-- The value that an operator gives, or its fault at the operator. -/
def Eval.operate (operator : Token) : Except RuntimeFault Value → Eval Value
  | .ok v => pure v
  | .error cause => fault cause operator

end Lox
