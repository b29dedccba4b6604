import Lox.Tree

/-!
# Where a reference is bound

A reference is bound by the innermost block or function around it that declares its name before the
reference stands there. `references` lists every reference of a program with the number of scopes
between the two; a reference that no scope declares is global and has no distance.
-/

namespace Lox

/-- The names declared so far in each scope around a place, the innermost scope first. Names
declared outside all scopes are global and are not kept. -/
abbrev Names := List (List String)

namespace Names

/-- A name that the innermost scope declares. -/
def declare : Names → String → Names
  | [], _ => []
  | scope :: outer, name => (name :: scope) :: outer

/-- How many scopes out a name is declared, if one declares it. -/
def distance? (names : Names) (name : String) : Option Nat :=
  names.findIdx? (·.contains name)

end Names

/-- A reference and the number of scopes from its place to the one that binds it. -/
structure Reference where
  id : NodeId
  name : Token
  distance? : Option Nat
  deriving Repr

/-- The name that a statement declares in the scope it stands in. -/
def Stmt.declared? : Stmt → Option Token
  | .var name _ => some name
  | .function name _ _ => some name
  | _ => none

/-- The names after a statement. -/
def Names.after (names : Names) (s : Stmt) : Names :=
  match s.declared? with
  | some name => names.declare name.lexeme
  | none => names

namespace Expr

mutual

/-- The references in an expression, an assignment after those in its value. -/
def references (names : Names) : Expr → List Reference
  | .literal _ => []
  | .grouping inner => inner.references names
  | .unary _ operand => operand.references names
  | .binary left _ right => left.references names ++ right.references names
  | .logical left _ right => left.references names ++ right.references names
  | .read id name => [⟨id, name, names.distance? name.lexeme⟩]
  | .assign id name value =>
    value.references names ++ [⟨id, name, names.distance? name.lexeme⟩]
  | .call callee _ arguments => callee.references names ++ referencesOfAll names arguments

def referencesOfAll (names : Names) : List Expr → List Reference
  | [] => []
  | e :: es => e.references names ++ referencesOfAll names es

end

def referencesOfOption (names : Names) : Option Expr → List Reference
  | none => []
  | some e => e.references names

end Expr

namespace Stmt

mutual

/-- The references in a statement. A variable is declared before its initializer, and a function
before its body. -/
def references (names : Names) : Stmt → List Reference
  | .expression value => value.references names
  | .print value => value.references names
  | .var name initial => Expr.referencesOfOption (names.declare name.lexeme) initial
  | .block body => referencesOfAll ([] :: names) body
  | .branch condition onTrue none =>
    condition.references names ++ onTrue.references names
  | .branch condition onTrue (some onFalse) =>
    condition.references names ++ onTrue.references names ++ onFalse.references names
  | .loop condition body => condition.references names ++ body.references names
  | .function name params body =>
    referencesOfAll (params.map (·.lexeme) :: names.declare name.lexeme) body
  | .exit _ value => Expr.referencesOfOption names value

/-- The references in a row of statements, each of which sees what the ones before it declare. -/
def referencesOfAll (names : Names) : List Stmt → List Reference
  | [] => []
  | s :: ss => s.references names ++ referencesOfAll (names.after s) ss

end

end Stmt

/-- The references of a program. -/
def references (program : List Stmt) : List Reference :=
  Stmt.referencesOfAll [] program

end Lox
