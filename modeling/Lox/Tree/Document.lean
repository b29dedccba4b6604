import Lox.Json
import Lox.Tree

/-!
# Syntax trees as JSON

A node is an object with one field, named for the node's kind. The fields inside have a fixed order.
-/

namespace Lox

open Json (object array)

/-- A number or a string carries its payload in an object, every other kind is its name alone. -/
def Token.Kind.json (kind : Token.Kind) : Json :=
  match kind with
  | .number value => object [(kind.name, .float value)]
  | .string contents => object [(kind.name, .string contents)]
  | _ => .string kind.name

def Token.json (t : Token) : Json :=
  object [("token_type", t.kind.json), ("lexeme", .string t.lexeme), ("line", .nat t.line)]

def Literal.json : Literal → Json
  | number x => object [("Number", .float x)]
  | string s => object [("Str", .string s)]
  | bool b => object [("Bool", .bool b)]
  | nil => .string "Nil"

namespace Expr

mutual

def json : Expr → Json
  | .literal value => object [("Literal", value.json)]
  | .grouping inner => object [("Grouping", inner.json)]
  | .unary operator operand =>
    object [("Unary", object [("operator", operator.json), ("right", operand.json)])]
  | .binary left operator right =>
    object [("Binary",
      object [("left", left.json), ("operator", operator.json), ("right", right.json)])]
  | .logical left operator right =>
    object [("Logical",
      object [("left", left.json), ("operator", operator.json), ("right", right.json)])]
  | .read id name => object [("Variable", object [("id", .nat id), ("name", name.json)])]
  | .assign id name value =>
    object [("Assign", object [("id", .nat id), ("name", name.json), ("value", value.json)])]
  | .call callee paren arguments =>
    object [("Call", object [("callee", callee.json), ("paren", paren.json),
      ("arguments", array (jsonAll arguments))])]

def jsonAll : List Expr → List Json
  | [] => []
  | e :: es => e.json :: jsonAll es

end

def jsonOption : Option Expr → Json
  | none => .null
  | some e => e.json

end Expr

namespace Stmt

mutual

def json : Stmt → Json
  | .expression value => object [("Expression", value.json)]
  | .print value => object [("Print", value.json)]
  | .var name initial =>
    object [("Var", object [("name", name.json), ("initializer", Expr.jsonOption initial)])]
  | .block body => object [("Block", array (jsonAll body))]
  | .branch condition onTrue none =>
    object [("If", object [("condition", condition.json), ("then_branch", onTrue.json),
      ("else_branch", .null)])]
  | .branch condition onTrue (some onFalse) =>
    object [("If", object [("condition", condition.json), ("then_branch", onTrue.json),
      ("else_branch", onFalse.json)])]
  | .loop condition body =>
    object [("While", object [("condition", condition.json), ("body", body.json)])]
  | .function name params body =>
    object [("Function", object [("name", name.json), ("params", array (params.map Token.json)),
      ("body", array (jsonAll body))])]
  | .exit keyword value =>
    object [("Return", object [("keyword", keyword.json), ("value", Expr.jsonOption value)])]

def jsonAll : List Stmt → List Json
  | [] => []
  | s :: ss => s.json :: jsonAll ss

end

end Stmt

end Lox
