import Lox.Eval

/-!
# The evaluator in single steps

A run as a machine has it. The machine is busy with one thing (`Control`), keeps what is to be done
after it on a stack (`Frame`) and does one thing at a time (`Machine.step?`). So it shows what the
recursion of the evaluator hides: the scopes that are to be current again once a block or a call is
done, and the values that were computed and are waiting for others.
-/

namespace Lox

/-- What is left to do with what the part at hand comes to. -/
inductive Frame where
  | unary (operator : Token)
  /-- The value is the left side of an operator. -/
  | left (operator : Token) (right : Expr)
  | binary (left : Value) (operator : Token)
  | decide (operator : Token) (right : Expr)
  | assign (id : NodeId) (name : Token)
  | callee (paren : Token) (arguments : List Expr)
  | argument (before : List Value) (rest : List Expr)
  | apply (callee : Value) (paren : Token)
  | expression
  | print
  | var (name : Token)
  | branch (onTrue : Stmt) (onFalse : Option Stmt)
  | exit
  | test (condition : Expr) (body : Stmt)
  | round (condition : Expr) (body : Stmt)
  | rest (ss : List Stmt)
  | program (ss : List Stmt)
  /-- A block or the body of a function is done, and the scope around it is current again. -/
  | scope (caller : ScopeId)
  /-- A body has come to the value of its call. -/
  | result

/-- What a machine is busy with. -/
inductive Control where
  | evaluate (e : Expr)
  /-- The arguments of a call, with the values of those before them. -/
  | evaluateAll (before : List Value) (es : List Expr)
  | evaluateOption (e? : Option Expr)
  | call (f : Callable) (arguments : List Value)
  | execute (s : Stmt)
  | repeatWhile (condition : Expr) (body : Stmt)
  | executeAll (ss : List Stmt)
  | executeProgram (ss : List Stmt)
  | value (v : Value)
  | values (vs : List Value)
  | flow (f : Flow)
  | stopped (stop : Stop)

structure Machine where
  control : Control
  stack : List Frame
  state : State

/-- The state that is left where a run stops inside a frame. -/
def Frame.leave (s : State) : Frame → State
  | scope caller => { s with current := caller }
  | _ => s

namespace Machine

open Eval

variable {α : Type}

/-- Goes on with what an operation gives, or stops where it does. -/
def resume (next : α → Control) (stack : List Frame) : EStateM.Result Stop State α → Machine
  | .ok a s => ⟨next a, stack, s⟩
  | .error stop s => ⟨.stopped stop, stack, s⟩

/-- Runs some statements in a scope that comes up for them. -/
def enter (opening : Eval ScopeId) (body : List Stmt) (stack : List Frame) (s : State) : Machine :=
  match opening s with
  | .ok inner s => ⟨.executeAll body, .scope s.current :: stack, { s with current := inner }⟩
  | .error stop s => ⟨.stopped stop, stack, s⟩

def evaluate (stack : List Frame) (s : State) : Expr → Machine
  | .literal value => ⟨.value (.ofLiteral value), stack, s⟩
  | .grouping inner => ⟨.evaluate inner, stack, s⟩
  | .unary operator operand => ⟨.evaluate operand, .unary operator :: stack, s⟩
  | .binary left operator right => ⟨.evaluate left, .left operator right :: stack, s⟩
  | .logical left operator right => ⟨.evaluate left, .decide operator right :: stack, s⟩
  | .read id name => resume .value stack (Eval.read id name s)
  | .assign id name value => ⟨.evaluate value, .assign id name :: stack, s⟩
  | .call callee paren arguments => ⟨.evaluate callee, .callee paren arguments :: stack, s⟩

def execute (stack : List Frame) (s : State) : Stmt → Machine
  | .expression value => ⟨.evaluate value, .expression :: stack, s⟩
  | .print value => ⟨.evaluate value, .print :: stack, s⟩
  | .var name initial => ⟨.evaluateOption initial, .var name :: stack, s⟩
  | .block body => enter (newScope s.current []) body stack s
  | .branch condition onTrue onFalse => ⟨.evaluate condition, .branch onTrue onFalse :: stack, s⟩
  | .loop condition body => ⟨.repeatWhile condition body, stack, s⟩
  | .function name params body =>
    resume .value (.var name :: stack) (newClosure ⟨name, params, body⟩ s.current s)
  | .exit _ value => ⟨.evaluateOption value, .exit :: stack, s⟩

def call (arguments : List Value) (stack : List Frame) (s : State) : Callable → Machine
  | .clock _ => resume .value stack ((do tick; readClock : Eval Value) s)
  | .closure _ function scope =>
    enter (do tick; newScope scope ((function.params.map (·.lexeme)).zip arguments))
      function.body (.result :: stack) s

/-- Calls a value with some arguments, if it is a function of so many. -/
def apply (callee : Value) (paren : Token) (vs : List Value) (stack : List Frame) (s : State) :
    Machine :=
  match callee with
  | .callable f =>
    if f.arity = vs.length then
      ⟨.call f vs, stack, s⟩
    else
      resume .value stack (fault (.wrongArity f.arity vs.length) paren s)
  | _ => resume .value stack (fault .notCallable paren s)

/-- What comes of a value. -/
def take (v : Value) (stack : List Frame) (s : State) : Frame → Option Machine
  | .unary operator => resume .value stack (operate operator (v.unary operator) s)
  | .left operator right => some ⟨.evaluate right, .binary v operator :: stack, s⟩
  | .binary left operator => resume .value stack (operate operator (left.binary operator v) s)
  | .decide operator right =>
    if v.decides operator then some ⟨.value v, stack, s⟩ else some ⟨.evaluate right, stack, s⟩
  | .assign id name => resume (fun _ => .value v) stack (Eval.assign id name v s)
  | .callee paren arguments => some ⟨.evaluateAll [] arguments, .apply v paren :: stack, s⟩
  | .argument before rest => some ⟨.evaluateAll (before ++ [v]) rest, stack, s⟩
  | .expression => some ⟨.flow .normal, stack, s⟩
  | .print => resume (fun _ => .flow .normal) stack (printLine v.text s)
  | .var name => resume (fun _ => .flow .normal) stack (define name v s)
  | .branch onTrue onFalse =>
    if v.isTruthy then
      some ⟨.execute onTrue, stack, s⟩
    else
      match onFalse with
      | some onFalse => some ⟨.execute onFalse, stack, s⟩
      | none => some ⟨.flow .normal, stack, s⟩
  | .exit => some ⟨.flow (.returned v), stack, s⟩
  | .test condition body =>
    if v.isTruthy then
      some ⟨.execute body, .round condition body :: stack, s⟩
    else
      some ⟨.flow .normal, stack, s⟩
  | _ => none

/-- What comes of a statement that ended in some way. -/
def follow (stack : List Frame) (s : State) : Flow → Frame → Option Machine
  | .normal, .round condition body => some ⟨.repeatWhile condition body, stack, s⟩
  | .normal, .rest ss => some ⟨.executeAll ss, stack, s⟩
  | .normal, .result => some ⟨.value .nil, stack, s⟩
  | .returned v, .round _ _ => some ⟨.flow (.returned v), stack, s⟩
  | .returned v, .rest _ => some ⟨.flow (.returned v), stack, s⟩
  | .returned v, .result => some ⟨.value v, stack, s⟩
  | _, .program ss => some ⟨.executeProgram ss, stack, s⟩
  | f, .scope caller => some ⟨.flow f, stack, { s with current := caller }⟩
  | _, _ => none

def step? : Machine → Option Machine
  | ⟨.evaluate e, stack, s⟩ => evaluate stack s e
  | ⟨.evaluateAll before [], stack, s⟩ => some ⟨.values before, stack, s⟩
  | ⟨.evaluateAll before (e :: es), stack, s⟩ => some ⟨.evaluate e, .argument before es :: stack, s⟩
  | ⟨.evaluateOption none, stack, s⟩ => some ⟨.value .nil, stack, s⟩
  | ⟨.evaluateOption (some e), stack, s⟩ => some ⟨.evaluate e, stack, s⟩
  | ⟨.call f arguments, stack, s⟩ => call arguments stack s f
  | ⟨.execute statement, stack, s⟩ => execute stack s statement
  | ⟨.repeatWhile condition body, stack, s⟩ =>
    resume (fun _ => .evaluate condition) (.test condition body :: stack) (tick s)
  | ⟨.executeAll [], stack, s⟩ => some ⟨.flow .normal, stack, s⟩
  | ⟨.executeAll (statement :: ss), stack, s⟩ => some ⟨.execute statement, .rest ss :: stack, s⟩
  | ⟨.executeProgram (statement :: ss), stack, s⟩ =>
    some ⟨.execute statement, .program ss :: stack, s⟩
  | ⟨.value v, frame :: stack, s⟩ => take v stack s frame
  | ⟨.values vs, .apply callee paren :: stack, s⟩ => apply callee paren vs stack s
  | ⟨.flow f, frame :: stack, s⟩ => follow stack s f frame
  | ⟨.stopped stop, frame :: stack, s⟩ => some ⟨.stopped stop, stack, frame.leave s⟩
  | _ => none

/-- Some steps, with their number. -/
inductive Steps : Nat → Machine → Machine → Prop where
  | refl (m : Machine) : Steps 0 m m
  | head {n : Nat} {m m' m'' : Machine} (h : m.step? = some m') (hs : Steps n m' m'') :
    Steps (n + 1) m m''

def Reaches (m m' : Machine) : Prop :=
  ∃ n, Steps n m m'

/-- The machine after some steps, if it takes so many. -/
def after? : Nat → Machine → Option Machine
  | 0, m => some m
  | n + 1, m => m.step?.bind (after? n)

/-- A machine that runs a program. -/
def start (program : List Stmt) (s : State) : Machine :=
  ⟨.executeProgram program, [], s⟩

variable {m m' m'' : Machine} {n n' : Nat}

theorem Steps.trans (h : Steps n m m') (h' : Steps n' m' m'') : Steps (n + n') m m'' := by
  induction h with
  | refl m => exact (Nat.zero_add n').symm ▸ h'
  | head hstep _ ih => exact Nat.add_right_comm _ _ _ ▸ .head hstep (ih h')

theorem Reaches.refl (m : Machine) : m.Reaches m :=
  ⟨0, .refl m⟩

theorem Reaches.head (h : m.step? = some m') (hs : m'.Reaches m'') : m.Reaches m'' :=
  let ⟨_, hs⟩ := hs
  ⟨_, .head h hs⟩

theorem Reaches.one (h : m.step? = some m') : m.Reaches m' :=
  .head h (.refl m')

theorem Reaches.of_after? : ∀ {n : Nat} {m : Machine}, m.after? n = some m' → m.Reaches m'
  | 0, _, h => Option.some.inj h ▸ .refl _
  | _ + 1, _, h =>
    let ⟨_, hstep, h⟩ := Option.bind_eq_some_iff.1 h
    .head hstep (of_after? h)

theorem Reaches.trans (h : m.Reaches m') (h' : m'.Reaches m'') : m.Reaches m'' :=
  let ⟨_, h⟩ := h
  let ⟨_, h'⟩ := h'
  ⟨_, h.trans h'⟩

/-- A machine that comes to a stop takes no more steps than to there, and all its steps lead
there. -/
theorem Steps.of_halted (h : Steps n m m') (hm : m'.step? = none) (h' : Steps n' m m'') :
    n' ≤ n ∧ m''.Reaches m' := by
  induction h generalizing n' with
  | refl m =>
    cases h' with
    | refl _ => exact ⟨Nat.le_refl _, .refl _⟩
    | head hstep _ => cases hm.symm.trans hstep
  | @head n m m₁ m' hstep hs ih =>
    cases h' with
    | refl _ => exact ⟨Nat.zero_le _, _, .head hstep hs⟩
    | head hstep' hs' =>
      obtain rfl := Option.some.inj (hstep.symm.trans hstep')
      obtain ⟨hle, hr⟩ := ih hm hs'
      exact ⟨Nat.succ_le_succ hle, hr⟩

/-- There is one place to stop at. -/
theorem Reaches.eq_of_halted (h : m.Reaches m') (hm : m'.step? = none) (h' : m.Reaches m'')
    (hm' : m''.step? = none) : m'' = m' := by
  obtain ⟨n, h⟩ := h
  obtain ⟨n', h'⟩ := h'
  obtain ⟨-, k, hk⟩ := h.of_halted hm h'
  cases hk with
  | refl _ => rfl
  | head hstep _ => cases hm'.symm.trans hstep

end Machine

end Lox
