import Lox.Session
import Lox.Proofs.Tree.Unnumbered

/-!
# Lexical scoping without scopes

An evaluator that knows neither scopes nor distances. A place in a program has an environment, a
map from names to locations that nothing changes: a block starts from the map around it, a call
from the map that its function captured with a new location for each parameter, and a local
declaration puts one more name in front of the map for itself and what follows it. A function
captures the map with its own name in it. Values stand in a store by their locations. A name that
is not in the map is global, and is looked up in the table of globals whenever it is evaluated.

The numbers of references are never looked at. Bounds, ticks and the sink are those of `Lox.Eval`,
so that the two evaluators can be compared step by step.
-/

namespace Lox.Lexical

abbrev Location := Nat

/-- The locations of the names in force at a place, the innermost first. -/
abbrev Env := List (String × Location)

inductive Value where
  /-- A value that is no function of a program. -/
  | plain (value : Lox.Value)
  | closure (identity : Nat) (function : Function) (env : Env)

/-- The value as operators see it, to which it does not matter where a function was declared. -/
def Value.shown : Value → Lox.Value
  | plain value => value
  | closure identity function _ => .callable (.closure identity function Lox.State.globals)

structure State where
  /-- The value at a location, if it was given one. -/
  store : Location → Option Value
  nextLocation : Location
  globals : List (String × Value)
  sink : Sink
  nextFunction : Nat
  clock : Nat → Float
  ticks : Nat

namespace State

def initial (clock : Nat → Float) (sink : Sink) : State :=
  { store := fun _ => none
    nextLocation := 0
    globals := [("clock", .plain (.callable (.clock 0)))]
    sink
    nextFunction := 1
    clock
    ticks := 0 }

def globalNames (s : State) : List String :=
  s.globals.map (·.1)

/-- The value of a name: at its location, or in the table of globals if it has none. -/
def valueOf? (s : State) (env : Env) (name : String) : Option Value :=
  match env.lookup name with
  | some location => s.store location
  | none => s.globals.lookup name

def fill (s : State) (location : Location) (value : Value) : State :=
  { s with store := fun l => if l = location then some value else s.store l }

def defineGlobal (s : State) (name : String) (value : Value) : State :=
  { s with globals := (name, value) :: s.globals }

/-- Gives a name another value, where it stands. -/
def put (s : State) (env : Env) (name : String) (value : Value) : State :=
  match env.lookup name with
  | some location => s.fill location value
  | none => s.defineGlobal name value

end State

abbrev Eval := EStateM Stop State

/-- How a statement ends: with the environment of what follows it, or with a value to return. -/
inductive Flow where
  | normal (env : Env)
  | returned (value : Value)

namespace Eval

variable {α : Type}

def fault (cause : RuntimeFault) (token : Token) : Eval α :=
  throw (.error (.fault cause token))

def outOfFuel : Eval α :=
  throw .outOfFuel

def read (env : Env) (name : Token) : Eval Value := fun s =>
  match s.valueOf? env name.lexeme with
  | some v => .ok v s
  | none => fault (.undefinedVariable name.lexeme) name s

/-- Gives a name another value, if it has one: a location that is not filled yet does not count. -/
def assign (env : Env) (name : Token) (value : Value) : Eval Unit := fun s =>
  match s.valueOf? env name.lexeme with
  | some _ => .ok () (s.put env name.lexeme value)
  | none => fault (.undefinedVariable name.lexeme) name s

def allocate : Eval Location := fun s =>
  .ok s.nextLocation { s with nextLocation := s.nextLocation + 1 }

def fill (location : Location) (value : Value) : Eval Unit :=
  modify (·.fill location value)

def defineGlobal (name : Token) (value : Value) : Eval Unit :=
  modify (·.defineGlobal name.lexeme value)

/-- A new location in front of an environment for each of some names, filled with its value. -/
def extend (env : Env) : List (String × Value) → Eval Env
  | [] => return env
  | (name, value) :: bindings => do
    let location ← allocate
    fill location value
    extend ((name, location) :: env) bindings

def newClosure (function : Function) (env : Env) : Eval Value :=
  modifyGet fun s =>
    (.closure s.nextFunction function env, { s with nextFunction := s.nextFunction + 1 })

def printLine (text : String) : Eval Unit := fun s =>
  match s.sink.write (text.push '\n').toUTF8 with
  | (true, sink) => .ok () { s with sink }
  | (false, sink) => .error (.error (.sink .full)) { s with sink }

def tick : Eval Unit :=
  modify fun s => { s with ticks := s.ticks + 1 }

def readClock : Eval Value := fun s =>
  .ok (.plain (.number (s.clock s.ticks))) s

def operate (operator : Token) : Except RuntimeFault Lox.Value → Eval Value
  | .ok v => pure (.plain v)
  | .error cause => fault cause operator

end Eval

open Lexical.Eval

mutual

/-- The value of an expression where an environment is in force. -/
def evaluate : Nat → Env → Expr → Eval Value
  | 0, _, _ => outOfFuel
  | n + 1, env, e =>
    match e with
    | .literal value => pure (.plain (.ofLiteral value))
    | .grouping inner => evaluate n env inner
    | .unary operator operand => do
      let v ← evaluate n env operand
      operate operator (v.shown.unary operator)
    | .binary left operator right => do
      let v ← evaluate n env left
      let w ← evaluate n env right
      operate operator (v.shown.binary operator w.shown)
    | .logical left operator right => do
      let v ← evaluate n env left
      if v.shown.decides operator then
        return v
      else
        evaluate n env right
    | .read _ name => Eval.read env name
    | .assign _ name value => do
      let v ← evaluate n env value
      Eval.assign env name v
      return v
    | .call callee paren arguments => do
      let v ← evaluate n env callee
      let vs ← evaluateAll n env arguments
      match v.shown with
      | .callable f =>
        if f.arity = vs.length then
          call n v vs
        else
          fault (.wrongArity f.arity vs.length) paren
      | _ => fault .notCallable paren

def evaluateAll : Nat → Env → List Expr → Eval (List Value)
  | 0, _, _ => outOfFuel
  | _, _, [] => return []
  | n + 1, env, e :: es => do
    let v ← evaluate n env e
    let vs ← evaluateAll n env es
    return v :: vs

/-- Calls a function. The only plain value that can be called is the clock. -/
def call : Nat → Value → List Value → Eval Value
  | 0, _, _ => outOfFuel
  | _, .plain _, _ => do
    tick
    readClock
  | n + 1, .closure _ function env, arguments => do
    tick
    let inner ← extend env ((function.params.map (·.lexeme)).zip arguments)
    match ← executeAll n inner function.body with
    | .returned v => return v
    | .normal _ => return .plain .nil

/-- Runs a statement inside a block or a function. -/
def execute : Nat → Env → Stmt → Eval Flow
  | 0, _, _ => outOfFuel
  | n + 1, env, s =>
    match s with
    | .expression value => do
      let _ ← evaluate n env value
      return .normal env
    | .print value => do
      let v ← evaluate n env value
      printLine v.shown.text
      return .normal env
    | .var name initial => do
      let location ← allocate
      let inner := (name.lexeme, location) :: env
      let v ← evaluateOption n inner initial
      fill location v
      return .normal inner
    | .block body => do
      match ← executeAll n env body with
      | .returned v => return .returned v
      | .normal _ => return .normal env
    | .branch condition onTrue onFalse => do
      let v ← evaluate n env condition
      if v.shown.isTruthy then
        execute n env onTrue
      else
        match onFalse with
        | some onFalse => execute n env onFalse
        | none => return .normal env
    | .loop condition body => repeatWhile n env condition body
    | .function name params body => do
      let location ← allocate
      let inner := (name.lexeme, location) :: env
      let f ← newClosure ⟨name, params, body⟩ inner
      fill location f
      return .normal inner
    | .exit _ value => do
      let v ← evaluateOption n env value
      return .returned v

def evaluateOption : Nat → Env → Option Expr → Eval Value
  | 0, _, _ => outOfFuel
  | _, _, none => return .plain .nil
  | n + 1, env, some e => evaluate n env e

def repeatWhile : Nat → Env → Expr → Stmt → Eval Flow
  | 0, _, _, _ => outOfFuel
  | n + 1, env, condition, body => do
    tick
    let v ← evaluate n env condition
    if v.shown.isTruthy then
      match ← execute n env body with
      | .returned v => return .returned v
      | .normal _ => repeatWhile n env condition body
    else
      return .normal env

/-- Runs statements in order, each in the environment that the one before it leaves. -/
def executeAll : Nat → Env → List Stmt → Eval Flow
  | 0, _, _ => outOfFuel
  | _, env, [] => return .normal env
  | n + 1, env, s :: ss => do
    match ← execute n env s with
    | .returned v => return .returned v
    | .normal env => executeAll n env ss

end

/-- Runs a statement of a program, where no local name is in force. -/
def executeTop : Nat → Stmt → Eval Unit
  | 0, _ => outOfFuel
  | n + 1, .var name initial => do
    let v ← evaluateOption n [] initial
    defineGlobal name v
  | _ + 1, .function name params body => do
    let f ← newClosure ⟨name, params, body⟩ []
    defineGlobal name f
  | n + 1, s => do
    let _ ← execute (n + 1) [] s

def executeProgram (n : Nat) : List Stmt → Eval Unit
  | [] => return ()
  | s :: ss => do
    executeTop n s
    executeProgram n ss

def interpret (n : Nat) (program : List Stmt) : Eval Unit := fun s =>
  match executeProgram n program s with
  | .error .outOfFuel s => .error .outOfFuel s
  | .ok () s => if s.sink.flushFails then .error (.error (.sink .flushFailed)) s else .ok () s
  | .error stop s =>
    if s.sink.flushFails then .error (.error (.sink .flushFailed)) s else .error stop s

end Lox.Lexical
