import Lox.Value

/-!
# Scopes

A scope binds names to values and may have a parent. All scopes of a session stand in one `Scopes`,
since functions and blocks share them: a value written in a scope is seen wherever the scope is.

A name is looked up in two ways: at the nearest scope of a chain that binds it (`find?`), or at the
scope a given number of steps up the chain and nowhere else (`findAt?`). Writing goes to the same
place as reading and fails where reading does.
-/

namespace Lox

/-- The values of some names, each name once. -/
abbrev Bindings := List (String × Value)

namespace Bindings

def get? (b : Bindings) (name : String) : Option Value :=
  b.lookup name

def binds (b : Bindings) (name : String) : Bool :=
  (b.get? name).isSome

/-- Binds a name, or gives it another value. -/
def set (b : Bindings) (name : String) (value : Value) : Bindings :=
  (name, value) :: b.filter fun entry => entry.1 ≠ name

def names (b : Bindings) : List String :=
  b.map (·.1)

end Bindings

structure Scope where
  bindings : Bindings
  parent? : Option ScopeId
  deriving Repr

structure Scopes where
  all : Array Scope
  deriving Repr

namespace Scopes

def empty : Scopes :=
  ⟨#[]⟩

def size (s : Scopes) : Nat :=
  s.all.size

/-- The bindings of one scope. -/
def bindings (s : Scopes) (id : ScopeId) : Bindings :=
  match s.all[id]? with
  | some scope => scope.bindings
  | none => []

def parent? (s : Scopes) (id : ScopeId) : Option ScopeId :=
  s.all[id]?.bind (·.parent?)

/-- A new scope with no names in it. -/
def add (s : Scopes) (parent? : Option ScopeId) : ScopeId × Scopes :=
  (s.size, ⟨s.all.push ⟨[], parent?⟩⟩)

/-- Binds a name in one scope, whether it is bound there or not. -/
def define (s : Scopes) (id : ScopeId) (name : String) (value : Value) : Scopes :=
  ⟨s.all.modify id fun scope => { scope with bindings := scope.bindings.set name value }⟩

/-- Whether a scope itself binds a name. -/
def binds (s : Scopes) (id : ScopeId) (name : String) : Bool :=
  (s.bindings id).binds name

/-- The scopes from `id` outwards, as far as some number of links leads. -/
def chainWithin (s : Scopes) : Nat → ScopeId → List ScopeId
  | 0, id => [id]
  | links + 1, id =>
    match s.parent? id with
    | some parent => id :: s.chainWithin links parent
    | none => [id]

/-- The scopes from `id` outwards. Where no link leads back, a chain has fewer links than there are
scopes. -/
def chain (s : Scopes) (id : ScopeId) : List ScopeId :=
  s.chainWithin s.size id

/-- The nearest scope from `id` outwards that binds a name. -/
def holder? (s : Scopes) (id : ScopeId) (name : String) : Option ScopeId :=
  (s.chain id).find? (s.binds · name)

/-- The scope a number of steps outwards from `id`. -/
def ancestor? (s : Scopes) (id : ScopeId) : Nat → Option ScopeId
  | 0 => some id
  | distance + 1 => (s.parent? id).bind (s.ancestor? · distance)

/-- The scope a number of steps outwards, if it binds a name. -/
def holderAt? (s : Scopes) (id : ScopeId) (distance : Nat) (name : String) : Option ScopeId :=
  (s.ancestor? id distance).filter (s.binds · name)

/-- The value of a name in the nearest scope that binds it. -/
def find? (s : Scopes) (id : ScopeId) (name : String) : Option Value :=
  (s.holder? id name).bind fun holder => (s.bindings holder).get? name

/-- The value of a name in the scope a number of steps outwards. -/
def findAt? (s : Scopes) (id : ScopeId) (distance : Nat) (name : String) : Option Value :=
  (s.holderAt? id distance name).bind fun holder => (s.bindings holder).get? name

/-- Gives a bound name another value, in the nearest scope that binds it. -/
def assign? (s : Scopes) (id : ScopeId) (name : String) (value : Value) : Option Scopes :=
  (s.holder? id name).map fun holder => s.define holder name value

/-- Gives a name another value in the scope a number of steps outwards, which has to bind it. -/
def assignAt? (s : Scopes) (id : ScopeId) (distance : Nat) (name : String) (value : Value) :
    Option Scopes :=
  (s.holderAt? id distance name).map fun holder => s.define holder name value

end Scopes

end Lox
