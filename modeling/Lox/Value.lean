import Lox.Tree

/-!
# Values

Functions are values of their own identity: two are equal only if they are the same object, even
where they have the same code. A user's function keeps the scope it was declared in.
-/

namespace Lox

/-- Scopes are numbered in the order in which they come up. -/
abbrev ScopeId := Nat

/-- A function as it is declared. -/
structure Function where
  name : Token
  params : List Token
  body : List Stmt
  deriving Repr

inductive Callable where
  /-- The one function that is built in: it reads the clock. -/
  | clock (identity : Nat)
  | closure (identity : Nat) (function : Function) (scope : ScopeId)
  deriving Repr

namespace Callable

def identity : Callable → Nat
  | clock identity => identity
  | closure identity _ _ => identity

/-- How many arguments a call has to give. -/
def arity : Callable → Nat
  | clock _ => 0
  | closure _ function _ => function.params.length

def text : Callable → String
  | clock _ => "<native fn>"
  | closure _ function _ => "<fn " ++ function.name.lexeme ++ ">"

end Callable

inductive Value where
  | number (value : Float)
  | string (value : String)
  | bool (value : Bool)
  | nil
  | callable (value : Callable)
  deriving Repr

namespace Value

/-- What a literal stands for. -/
def ofLiteral : Literal → Value
  | .number x => number x
  | .string s => string s
  | .bool b => bool b
  | .nil => nil

/-- Only `nil` and `false` count as false. -/
def isTruthy : Value → Bool
  | nil => false
  | bool b => b
  | _ => true

/-- Equality of the language: values of different types differ, NaN differs from itself, and
functions are the same only if they are one object. -/
def equals : Value → Value → Bool
  | number x, number y => x == y
  | string s, string t => s == t
  | bool a, bool b => a == b
  | nil, nil => true
  | callable f, callable g => f.identity == g.identity
  | _, _ => false

/-- Whole numbers have all their digits and no point. -/
def numberFormat : Decimal.Format :=
  { whole := .exact, pointZero := false, signedZero := true }

/-- The value as it is printed. -/
def text : Value → String
  | number x => numberFormat.text x
  | string s => s
  | bool b => toString b
  | nil => "nil"
  | callable f => f.text

def typeName : Value → String
  | number _ => "number"
  | string _ => "string"
  | bool _ => "bool"
  | nil => "nil"
  | callable _ => "callable"

end Value

end Lox
