import Lox.Binding.Reference
import Lox.Scope
import Lox.Sink

/-!
# The state of a session

What a program can change: the scopes and which of them is current, the distances recorded for
references, the sink it prints to, how many functions were made, and the time, which goes on by a
tick with every call and every round of a loop. An `Eval` changes a state and gives a value, or
stops: at an error of the program, or because it was allowed too few steps.
-/

namespace Lox

/-- Why a program cannot go on. -/
inductive RuntimeFault where
  | operandNotNumber
  | operandsNotNumbers
  | operandsNotAddable
  | undefinedVariable (name : String)
  | notCallable
  | wrongArity (expected given : Nat)
  | invalidUnary
  | invalidBinary
  deriving DecidableEq, Repr

def RuntimeFault.message : RuntimeFault → String
  | operandNotNumber => "Operand must be a number."
  | operandsNotNumbers => "Operands must be numbers."
  | operandsNotAddable => "Operands must be two numbers or two strings."
  | undefinedVariable name => "Undefined variable '" ++ name ++ "'."
  | notCallable => "Can only call functions and classes."
  | wrongArity expected given =>
    "Expected " ++ toString expected ++ " arguments but got " ++ toString given ++ "."
  | invalidUnary => "Invalid unary operator."
  | invalidBinary => "Invalid binary operator."

inductive RuntimeError where
  /-- A fault of the program, at a token. -/
  | fault (cause : RuntimeFault) (token : Token)
  | sink (cause : SinkFault)
  deriving Repr

/-- Why an evaluation has no value. -/
inductive Stop where
  | error (error : RuntimeError)
  | outOfFuel
  deriving Repr

/-- The distances recorded for references. -/
structure Distances where
  entries : List (NodeId × Nat)
  deriving Repr

namespace Distances

def empty : Distances :=
  ⟨[]⟩

def get? (d : Distances) (id : NodeId) : Option Nat :=
  d.entries.lookup id

def erase (d : Distances) (id : NodeId) : Distances :=
  ⟨d.entries.filter (·.1 ≠ id)⟩

def insert (d : Distances) (id : NodeId) (distance : Nat) : Distances :=
  ⟨(id, distance) :: (d.erase id).entries⟩

def size (d : Distances) : Nat :=
  d.entries.length

/-- With the distances of some references; a global one has none. -/
def record (d : Distances) (references : List Reference) : Distances :=
  references.foldl (fun d r => r.distance?.elim d (d.insert r.id)) d

/-- Without the distances of some references that have one. -/
def forget (d : Distances) (references : List Reference) : Distances :=
  references.foldl (fun d r => r.distance?.elim d fun _ => d.erase r.id) d

end Distances

structure State where
  scopes : Scopes
  current : ScopeId
  distances : Distances
  sink : Sink
  /-- The identity of the next function. -/
  nextFunction : Nat
  /-- What the clock says after a number of ticks. -/
  clock : Nat → Float
  ticks : Nat

abbrev Eval := EStateM Stop State

namespace State

/-- The scope of the global names. -/
def globals : ScopeId := 0

/-- Before the first program only `clock` is bound. -/
def initial (clock : Nat → Float) (sink : Sink) : State :=
  let (id, scopes) := Scopes.empty.add none
  { scopes := scopes.define id "clock" (.callable (.clock 0))
    current := id
    distances := .empty
    sink
    nextFunction := 1
    clock
    ticks := 0 }

/-- The names bound in the global scope. -/
def globalNames (s : State) : List String :=
  (s.scopes.bindings globals).names

def isGlobal (s : State) (name : String) : Bool :=
  s.scopes.binds globals name

/-- The scope that holds the variable of a reference: the one at the recorded distance, if it binds
the name, and the global scope for a reference that has none. -/
def holder? (s : State) (id : NodeId) (name : String) : Option ScopeId :=
  match s.distances.get? id with
  | some distance => s.scopes.holderAt? s.current distance name
  | none => s.scopes.holder? globals name

def valueOf? (s : State) (id : NodeId) (name : String) : Option Value :=
  (s.holder? id name).bind fun holder => (s.scopes.bindings holder).get? name

end State

namespace Eval

variable {α : Type}

/-- Stops at a fault of the program. -/
def fault (cause : RuntimeFault) (token : Token) : Eval α :=
  throw (.error (.fault cause token))

def outOfFuel : Eval α :=
  throw .outOfFuel

/-- The value of a reference. -/
def read (id : NodeId) (name : Token) : Eval Value := fun s =>
  match s.valueOf? id name.lexeme with
  | some v => .ok v s
  | none => fault (.undefinedVariable name.lexeme) name s

/-- Gives the variable of a reference another value. -/
def assign (id : NodeId) (name : Token) (value : Value) : Eval Unit := fun s =>
  match s.holder? id name.lexeme with
  | some holder => .ok () { s with scopes := s.scopes.define holder name.lexeme value }
  | none => fault (.undefinedVariable name.lexeme) name s

/-- The current scope. -/
def here : Eval ScopeId := fun s =>
  .ok s.current s

/-- Binds a name in the current scope. -/
def define (name : Token) (value : Value) : Eval Unit :=
  modify fun s => { s with scopes := s.scopes.define s.current name.lexeme value }

/-- A new scope inside another, which binds some names in order. -/
def newScope (parent? : Option ScopeId) (bindings : List (String × Value)) : Eval ScopeId :=
  modifyGet fun s =>
    let (id, scopes) := s.scopes.add parent?
    (id, { s with
      scopes := bindings.foldl (fun scopes b => scopes.define id b.1 b.2) scopes })

/-- A function of its own, in the current scope. -/
def newClosure (function : Function) (scope : ScopeId) : Eval Value :=
  modifyGet fun s =>
    (.callable (.closure s.nextFunction function scope),
      { s with nextFunction := s.nextFunction + 1 })

/-- Evaluates in another scope, and comes back to the current one however that ends. -/
def within (scope : ScopeId) (body : Eval α) : Eval α := fun s =>
  let caller := s.current
  match body { s with current := scope } with
  | .ok a s => .ok a { s with current := caller }
  | .error stop s => .error stop { s with current := caller }

/-- Writes a line. -/
def printLine (text : String) : Eval Unit := fun s =>
  match s.sink.write (text.push '\n').toUTF8 with
  | (true, sink) => .ok () { s with sink }
  | (false, sink) => .error (.error (.sink .full)) { s with sink }

/-- Lets the time go on. -/
def tick : Eval Unit :=
  modify fun s => { s with ticks := s.ticks + 1 }

/-- What the clock says. -/
def readClock : Eval Value := fun s =>
  .ok (.number (s.clock s.ticks)) s

/-- Two evaluations, one after the other, come to an end if both do. -/
theorem bind_eq_ok {β : Type} {x : Eval α} {f : α → Eval β} {s s'' : State} {b : β} :
    (x >>= f) s = .ok b s'' ↔ ∃ a s', x s = .ok a s' ∧ f a s' = .ok b s'' := by
  simp only [Bind.bind, EStateM.bind]
  cases x s with
  | ok a s' =>
    refine ⟨fun h => ⟨a, s', rfl, h⟩, ?_⟩
    rintro ⟨_, _, ⟨⟩, h⟩
    exact h
  | error stop s' => exact ⟨nofun, nofun⟩

/-- They stop where the first of them stops, or the second one behind it. -/
theorem bind_eq_error {β : Type} {x : Eval α} {f : α → Eval β} {s s'' : State} {stop : Stop} :
    (x >>= f) s = .error stop s'' ↔
      x s = .error stop s'' ∨ ∃ a s', x s = .ok a s' ∧ f a s' = .error stop s'' := by
  simp only [Bind.bind, EStateM.bind]
  cases x s with
  | ok a s' =>
    refine ⟨fun h => .inr ⟨a, s', rfl, h⟩, ?_⟩
    rintro (⟨⟨⟩⟩ | ⟨_, _, ⟨⟩, h⟩)
    exact h
  | error stop' s' =>
    constructor
    · rintro ⟨⟩
      exact .inl rfl
    · rintro (⟨⟨⟩⟩ | ⟨_, _, ⟨⟩, -⟩)
      rfl

end Eval

end Lox
