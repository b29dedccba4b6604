import Lox.Binding.Reference

/-!
# The rules of declaration

A scope declares a name once. An initializer does not read the variable it is for; at the top level
it may, if the name is bound already. A `return` stands inside a function. `violations` lists every
breach of these rules in a program, in the order of the program.
-/

namespace Lox

inductive BindingFault where
  | redeclared
  | ownInitializer
  | returnOutside
  deriving DecidableEq, Repr

def BindingFault.message : BindingFault → String
  | redeclared => "Already a variable with this name in this scope."
  | ownInitializer => "Can't read local variable in its own initializer."
  | returnOutside => "Can't return from top-level code."

structure BindingError where
  cause : BindingFault
  token : Token
  deriving Repr

/-- What the rules ask about a place in a program. -/
structure Surroundings where
  /-- The names declared so far in the scopes around the place. -/
  names : Names
  /-- The global names bound before the place. -/
  globals : List String
  inFunction : Bool
  deriving Repr

namespace Surroundings

/-- The surroundings after a name was declared. -/
def declare (here : Surroundings) (name : String) : Surroundings :=
  if here.names.isEmpty then
    { here with globals := name :: here.globals }
  else
    { here with names := here.names.declare name }

/-- Inside a block, or a function with some parameters. -/
def enter (here : Surroundings) (names : List String) : Surroundings :=
  { here with names := names :: here.names }

/-- After a statement. -/
def after (here : Surroundings) (s : Stmt) : Surroundings :=
  match s.declared? with
  | some name => here.declare name.lexeme
  | none => here

/-- The variable that an initializer here must not read. -/
def forbidden? (here : Surroundings) (name : String) : Option String :=
  if here.names.isEmpty ∧ here.globals.contains name then none else some name

/-- A declaration of a name that the innermost scope has already. -/
def redeclaration (here : Surroundings) (name : Token) : List BindingError :=
  match here.names with
  | [] => []
  | scope :: _ => if scope.contains name.lexeme then [⟨.redeclared, name⟩] else []

end Surroundings

namespace Expr

mutual

/-- The reads of a variable in its own initializer. -/
def readsOf (own : String) : Expr → List BindingError
  | .literal _ => []
  | .grouping inner => inner.readsOf own
  | .unary _ operand => operand.readsOf own
  | .binary left _ right => left.readsOf own ++ right.readsOf own
  | .logical left _ right => left.readsOf own ++ right.readsOf own
  | .read _ name => if name.lexeme = own then [⟨.ownInitializer, name⟩] else []
  | .assign _ _ value => value.readsOf own
  | .call callee _ arguments => callee.readsOf own ++ readsOfAll own arguments

def readsOfAll (own : String) : List Expr → List BindingError
  | [] => []
  | e :: es => e.readsOf own ++ readsOfAll own es

end

end Expr

/-- Parameters that repeat an earlier one. -/
def repeatedParams (earlier : List String) : List Token → List BindingError
  | [] => []
  | p :: ps =>
    (if earlier.contains p.lexeme then [⟨.redeclared, p⟩] else []) ++
      repeatedParams (p.lexeme :: earlier) ps

namespace Stmt

mutual

/-- The breaches in a statement. -/
def violations (here : Surroundings) : Stmt → List BindingError
  | .expression _ => []
  | .print _ => []
  | .var name initial =>
    here.redeclaration name ++
      match initial, here.forbidden? name.lexeme with
      | some e, some x => e.readsOf x
      | _, _ => []
  | .block body => violationsOfAll (here.enter []) body
  | .branch _ onTrue none => onTrue.violations here
  | .branch _ onTrue (some onFalse) => onTrue.violations here ++ onFalse.violations here
  | .loop _ body => body.violations here
  | .function name params body =>
    let inside := (here.declare name.lexeme).enter (params.map (·.lexeme))
    here.redeclaration name ++ repeatedParams [] params ++
      violationsOfAll { inside with inFunction := true } body
  | .exit keyword _ => if here.inFunction then [] else [⟨.returnOutside, keyword⟩]

def violationsOfAll (here : Surroundings) : List Stmt → List BindingError
  | [] => []
  | s :: ss => s.violations here ++ violationsOfAll (here.after s) ss

end

end Stmt

/-- The breaches in a program that runs where some global names are bound. -/
def violations (globals : List String) (program : List Stmt) : List BindingError :=
  Stmt.violationsOfAll ⟨[], globals, false⟩ program

end Lox
