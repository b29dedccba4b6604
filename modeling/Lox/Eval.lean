import Lox.Eval.Operator

/-!
# Running programs

`evaluate` gives the value of an expression and `execute` runs a statement. Both are bounded by a
number of nested steps, and stop with `Stop.outOfFuel` where it does not suffice; a program that
ends does so with all bounds above some number, and in the same way.

A `return` is no error: it is the `Flow` of its statement, which ends the statements around it up to
the call.
-/

namespace Lox

/-- How a statement ends. -/
inductive Flow where
  | normal
  | returned (value : Value)
  deriving Repr

open Eval

mutual

/-- The value of an expression. -/
def evaluate : Nat → Expr → Eval Value
  | 0, _ => outOfFuel
  | n + 1, e =>
    match e with
    | .literal value => pure (.ofLiteral value)
    | .grouping inner => evaluate n inner
    | .unary operator operand => do
      let v ← evaluate n operand
      operate operator (v.unary operator)
    | .binary left operator right => do
      let v ← evaluate n left
      let w ← evaluate n right
      operate operator (v.binary operator w)
    | .logical left operator right => do
      let v ← evaluate n left
      if v.decides operator then
        return v
      else
        evaluate n right
    | .read id name => Eval.read id name
    | .assign id name value => do
      let v ← evaluate n value
      Eval.assign id name v
      return v
    | .call callee paren arguments => do
      let v ← evaluate n callee
      let vs ← evaluateAll n arguments
      match v with
      | .callable f =>
        if f.arity = vs.length then
          call n f vs
        else
          fault (.wrongArity f.arity vs.length) paren
      | _ => fault .notCallable paren

/-- The values of some expressions, from left to right. -/
def evaluateAll : Nat → List Expr → Eval (List Value)
  | 0, _ => outOfFuel
  | _, [] => return []
  | n + 1, e :: es => do
    let v ← evaluate n e
    let vs ← evaluateAll n es
    return v :: vs

/-- Calls a function. Its scope lies in the one it was declared in, and binds the parameters; a
parameter without an argument stays unbound. -/
def call : Nat → Callable → List Value → Eval Value
  | 0, _, _ => outOfFuel
  | _, .clock _, _ => do
    tick
    readClock
  | n + 1, .closure _ function scope, arguments => do
    tick
    let inner ← newScope scope ((function.params.map (·.lexeme)).zip arguments)
    match ← within inner (executeAll n function.body) with
    | .returned v => return v
    | .normal => return .nil

/-- Runs a statement. -/
def execute : Nat → Stmt → Eval Flow
  | 0, _ => outOfFuel
  | n + 1, s =>
    match s with
    | .expression value => do
      let _ ← evaluate n value
      return .normal
    | .print value => do
      let v ← evaluate n value
      printLine v.text
      return .normal
    | .var name initial => do
      let v ← evaluateOption n initial
      define name v
      return .normal
    | .block body => do
      let inner ← newScope (← here) []
      within inner (executeAll n body)
    | .branch condition onTrue onFalse => do
      let v ← evaluate n condition
      if v.isTruthy then
        execute n onTrue
      else
        match onFalse with
        | some onFalse => execute n onFalse
        | none => return .normal
    | .loop condition body => repeatWhile n condition body
    | .function name params body => do
      let v ← newClosure ⟨name, params, body⟩ (← here)
      define name v
      return .normal
    | .exit _ value => do
      let v ← evaluateOption n value
      return .returned v

/-- The value of an expression that may be absent. -/
def evaluateOption : Nat → Option Expr → Eval Value
  | 0, _ => outOfFuel
  | _, none => return .nil
  | n + 1, some e => evaluate n e

/-- Runs a loop. -/
def repeatWhile : Nat → Expr → Stmt → Eval Flow
  | 0, _, _ => outOfFuel
  | n + 1, condition, body => do
    tick
    let v ← evaluate n condition
    if v.isTruthy then
      match ← execute n body with
      | .returned v => return .returned v
      | .normal => repeatWhile n condition body
    else
      return .normal

/-- Runs statements in order, up to one that returns. -/
def executeAll : Nat → List Stmt → Eval Flow
  | 0, _ => outOfFuel
  | _, [] => return .normal
  | n + 1, s :: ss => do
    match ← execute n s with
    | .returned v => return .returned v
    | .normal => executeAll n ss

end

/-- Runs the statements of a program. One that returns ends there, and the next one follows. -/
def executeProgram (n : Nat) : List Stmt → Eval Unit
  | [] => return ()
  | s :: ss => do
    let _ ← execute n s
    executeProgram n ss

/-- Runs a program and flushes the sink, whether the program ends in an error or not. A sink that
cannot be flushed is the error of the run. -/
def interpret (n : Nat) (program : List Stmt) : Eval Unit := fun s =>
  match executeProgram n program s with
  | .error .outOfFuel s => .error .outOfFuel s
  | .ok () s => if s.sink.flushFails then .error (.error (.sink .flushFailed)) s else .ok () s
  | .error stop s =>
    if s.sink.flushFails then .error (.error (.sink .flushFailed)) s else .error stop s

end Lox
