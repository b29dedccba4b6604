import Lox.Token

/-!
# Syntax trees

Trees keep the tokens that errors point at and that printed forms spell. Every reference to a
variable, read or written, carries a number of its own, by which the scope analysis records where
the variable lives.
-/

namespace Lox

/-- The number of a reference to a variable. -/
abbrev NodeId := Nat

inductive Literal where
  | number (value : Float)
  | string (value : String)
  | bool (value : Bool)
  | nil
  deriving DecidableEq, Repr

inductive Expr where
  | literal (value : Literal)
  | grouping (inner : Expr)
  | unary (operator : Token) (operand : Expr)
  | binary (left : Expr) (operator : Token) (right : Expr)
  /-- `and` and `or`, whose right side may be left out of an evaluation. -/
  | logical (left : Expr) (operator : Token) (right : Expr)
  | read (id : NodeId) (name : Token)
  | assign (id : NodeId) (name : Token) (value : Expr)
  /-- A call, with its closing parenthesis. -/
  | call (callee : Expr) (paren : Token) (arguments : List Expr)
  deriving Repr

inductive Stmt where
  | expression (value : Expr)
  | print (value : Expr)
  | var (name : Token) (initial : Option Expr)
  | block (body : List Stmt)
  | branch (condition : Expr) (onTrue : Stmt) (onFalse : Option Stmt)
  | loop (condition : Expr) (body : Stmt)
  | function (name : Token) (params : List Token) (body : List Stmt)
  | exit (keyword : Token) (value : Option Expr)
  deriving Repr

mutual

/-- The references in an expression. -/
def Expr.ids : Expr → List NodeId
  | .literal _ => []
  | .grouping inner => inner.ids
  | .unary _ operand => operand.ids
  | .binary left _ right => left.ids ++ right.ids
  | .logical left _ right => left.ids ++ right.ids
  | .read id _ => [id]
  | .assign id _ value => id :: value.ids
  | .call callee _ arguments => callee.ids ++ idsOfAll arguments

def Expr.idsOfAll : List Expr → List NodeId
  | [] => []
  | e :: es => e.ids ++ idsOfAll es

end

/-- The references in an expression that may be absent. -/
def Expr.idsOfOption : Option Expr → List NodeId
  | none => []
  | some e => e.ids

mutual

/-- The references in a statement. -/
def Stmt.ids : Stmt → List NodeId
  | .expression value => value.ids
  | .print value => value.ids
  | .var _ initial => Expr.idsOfOption initial
  | .block body => idsOfAll body
  | .branch condition onTrue none => condition.ids ++ onTrue.ids
  | .branch condition onTrue (some onFalse) => condition.ids ++ onTrue.ids ++ onFalse.ids
  | .loop condition body => condition.ids ++ body.ids
  | .function _ _ body => idsOfAll body
  | .exit _ value => Expr.idsOfOption value

def Stmt.idsOfAll : List Stmt → List NodeId
  | [] => []
  | s :: ss => s.ids ++ idsOfAll ss

end

end Lox
