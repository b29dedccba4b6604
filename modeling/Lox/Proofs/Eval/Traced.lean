import Lox.Proofs.Eval.Blind
import Lox.Proofs.Eval.Kept

/-!
# Evaluations with a trace

The evaluator once more, with a list of what happens on the way. A `Probe` says what is put down
where a statement begins, where a line goes to the sink, where a variable is read and where it is
given a value; the evaluation goes on as the evaluator does. So `Traced.run` is `Session.run`
together with a trace of the run, whatever the probe looks at (`Traced.run_fst`).

`Traces P Q x y` says that, from the states that meet `P`, the traced evaluation `x` goes as `y`
goes and makes only entries that meet `Q`.

The recursion of the evaluator is gone through once: a relation that is closed under everything the
evaluator is made of (`Traced.Closed`) holds of every part of it (`Traced.Closed.evaluator`).
-/

namespace Lox

/-- A reference that is read, and the state in which it is. -/
structure Visit where
  id : NodeId
  name : Token
  state : State

/-- A variable that is about to be given a value, and the state in which it is. -/
structure Write where
  /-- The variable whose initializer the assignment stands in, if it stands in one. -/
  own? : Option String
  id : NodeId
  name : Token
  value : Value
  state : State

/-- What is put down of an evaluation. -/
structure Probe (ε : Type) where
  statement : Stmt → List ε
  line : String → List ε
  read : Visit → List ε
  write : Write → List ε

/-- Puts down the reads. -/
def reads : Probe Visit :=
  ⟨fun _ => [], fun _ => [], fun v => [v], fun _ => []⟩

/-- An evaluation with the entries made so far. -/
abbrev Traced (ε : Type) := EStateM Stop (State × List ε)

namespace Traced

variable {ε α β : Type}

/-- The end of an evaluation, with the entries made by then. -/
def attach (log : List ε) :
    EStateM.Result Stop State α → EStateM.Result Stop (State × List ε) α
  | .ok a s => .ok a (s, log)
  | .error stop s => .error stop (s, log)

/-- An evaluation that makes no entries. -/
def lift (x : Eval α) : Traced ε α := fun (s, log) =>
  attach log (x s)

def note (entries : List ε) : Traced ε Unit := fun (s, log) =>
  .ok () (s, log ++ entries)

/-- Evaluates in another scope, and comes back to the current one however that ends. -/
def within (scope : ScopeId) (body : Traced ε α) : Traced ε α := fun (s, log) =>
  let caller := s.current
  match body ({ s with current := scope }, log) with
  | .ok a (s, log) => .ok a ({ s with current := caller }, log)
  | .error stop (s, log) => .error stop ({ s with current := caller }, log)

variable (p : Probe ε)

def printLine (text : String) : Traced ε Unit := do
  note (p.line text)
  lift (Eval.printLine text)

def read (id : NodeId) (name : Token) : Traced ε Value := fun (s, log) =>
  attach (log ++ p.read ⟨id, name, s⟩) (Eval.read id name s)

def assign (own? : Option String) (id : NodeId) (name : Token) (value : Value) :
    Traced ε Unit := fun (s, log) =>
  attach (log ++ p.write ⟨own?, id, name, value, s⟩) (Eval.assign id name value s)

open Lox.Eval

mutual

/-- The value of an expression, which may stand in the initializer of a variable. -/
def evaluate : Nat → Option String → Expr → Traced ε Value
  | 0, _, _ => lift outOfFuel
  | n + 1, own?, e =>
    match e with
    | .literal value => pure (.ofLiteral value)
    | .grouping inner => evaluate n own? inner
    | .unary operator operand => do
      let v ← evaluate n own? operand
      lift (operate operator (v.unary operator))
    | .binary left operator right => do
      let v ← evaluate n own? left
      let w ← evaluate n own? right
      lift (operate operator (v.binary operator w))
    | .logical left operator right => do
      let v ← evaluate n own? left
      if v.decides operator then
        return v
      else
        evaluate n own? right
    | .read id name => read p id name
    | .assign id name value => do
      let v ← evaluate n own? value
      assign p own? id name v
      return v
    | .call callee paren arguments => do
      let v ← evaluate n own? callee
      let vs ← evaluateAll n own? arguments
      match v with
      | .callable f =>
        if f.arity = vs.length then
          call n f vs
        else
          lift (fault (.wrongArity f.arity vs.length) paren)
      | _ => lift (fault .notCallable paren)

def evaluateAll : Nat → Option String → List Expr → Traced ε (List Value)
  | 0, _, _ => lift outOfFuel
  | _, _, [] => return []
  | n + 1, own?, e :: es => do
    let v ← evaluate n own? e
    let vs ← evaluateAll n own? es
    return v :: vs

def call : Nat → Callable → List Value → Traced ε Value
  | 0, _, _ => lift outOfFuel
  | _, .clock _, _ => lift do
    tick
    readClock
  | n + 1, .closure _ function scope, arguments => do
    lift tick
    let inner ← lift (newScope scope ((function.params.map (·.lexeme)).zip arguments))
    match ← within inner (executeAll n function.body) with
    | .returned v => return v
    | .normal => return .nil

def execute : Nat → Stmt → Traced ε Flow
  | 0, _ => lift outOfFuel
  | n + 1, s => do
    note (p.statement s)
    match s with
    | .expression value => do
      let _ ← evaluate n none value
      return .normal
    | .print value => do
      let v ← evaluate n none value
      printLine p v.text
      return .normal
    | .var name initial => do
      let v ← evaluateOption n (some name.lexeme) initial
      lift (define name v)
      return .normal
    | .block body => do
      let inner ← lift (newScope (← lift here) [])
      within inner (executeAll n body)
    | .branch condition onTrue onFalse => do
      let v ← evaluate n none condition
      if v.isTruthy then
        execute n onTrue
      else
        match onFalse with
        | some onFalse => execute n onFalse
        | none => return .normal
    | .loop condition body => repeatWhile n condition body
    | .function name params body => lift do
      let v ← newClosure ⟨name, params, body⟩ (← here)
      define name v
      return .normal
    | .exit _ value => do
      let v ← evaluateOption n none value
      return .returned v

def evaluateOption : Nat → Option String → Option Expr → Traced ε Value
  | 0, _, _ => lift outOfFuel
  | _, _, none => return .nil
  | n + 1, own?, some e => evaluate n own? e

def repeatWhile : Nat → Expr → Stmt → Traced ε Flow
  | 0, _, _ => lift outOfFuel
  | n + 1, condition, body => do
    lift tick
    let v ← evaluate n none condition
    if v.isTruthy then
      match ← execute n body with
      | .returned v => return .returned v
      | .normal => repeatWhile n condition body
    else
      return .normal

def executeAll : Nat → List Stmt → Traced ε Flow
  | 0, _ => lift outOfFuel
  | _, [] => return .normal
  | n + 1, s :: ss => do
    match ← execute n s with
    | .returned v => return .returned v
    | .normal => executeAll n ss

end

def executeProgram (n : Nat) : List Stmt → Traced ε Unit
  | [] => return ()
  | s :: ss => do
    let _ ← execute p n s
    executeProgram n ss

def interpret (n : Nat) (program : List Stmt) : Traced ε Unit := fun s =>
  match executeProgram p n program s with
  | .error .outOfFuel s => .error .outOfFuel s
  | .ok () s => if s.1.sink.flushFails then .error (.error (.sink .flushFailed)) s else .ok () s
  | .error stop s =>
    if s.1.sink.flushFails then .error (.error (.sink .flushFailed)) s else .error stop s

def runProgram (fuel : Nat) (program : List Stmt) (nextId : NodeId) (state : State) :
    Run × List ε :=
  match interpret p fuel program (state, []) with
  | .ok () (state, log) => (⟨some {}, ⟨state, nextId⟩⟩, log)
  | .error (.error e) (state, log) => (⟨some { runtime := e.diagnostic }, ⟨state, nextId⟩⟩, log)
  | .error .outOfFuel (state, log) => (⟨none, ⟨state, nextId⟩⟩, log)

/-- Runs a source text. Of one that is refused nothing is put down. -/
def run (fuel : Nat) (source : String) (session : Session) : Run × List ε :=
  let lexical := (lexicalErrors source).map (·.diagnostic)
  let parse := Grammar.parseProgram session.nextId (tokens source)
  let session := { session with nextId := parse.nextId }
  match parse.result with
  | .error faults =>
    (⟨some { lexical, grammar := faults.map (·.diagnostic) }, session⟩, [])
  | .ok program =>
    if !lexical.isEmpty then
      (⟨some { lexical }, session⟩, [])
    else
      match session.state.resolve program with
      | ([], state) => runProgram p fuel program session.nextId state
      | (faults, state) =>
        (⟨some { binding := faults.map (·.diagnostic) }, { session with state }⟩, [])

end Traced

/-- A traced evaluation that goes as another one and makes entries of a kind only. -/
def Traces {ε α : Type} (P : State → Prop) (Q : ε → Prop) (x : Traced ε α) (y : Eval α) : Prop :=
  ∀ s log, P s → ∃ more, x (s, log) = Traced.attach (log ++ more) (y s) ∧ ∀ entry ∈ more, Q entry

namespace Traces

variable {ε α β : Type} {p : Probe ε} {P P' : State → Prop} {Q : ε → Prop} {x : Traced ε α}
  {y : Eval α} {f : α → Traced ε β} {g : α → Eval β}

theorem imp (h : Traces P' Q x y) (hP : ∀ s, P s → P' s) : Traces P Q x y :=
  fun s log hs => h s log (hP s hs)

theorem assume (h : ∀ s, P s → Traces P Q x y) : Traces P Q x y :=
  fun s log hs => h s hs s log hs

theorem lift (y : Eval α) : Traces P Q (Traced.lift y) y :=
  fun s log _ => ⟨[], by rw [List.append_nil]; rfl, List.forall_mem_nil _⟩

theorem outOfFuel : Traces P Q (Traced.lift Eval.outOfFuel) (Eval.outOfFuel : Eval α) :=
  lift Eval.outOfFuel

theorem pure (a : α) : Traces P Q (pure a) (pure a) :=
  lift (Pure.pure a)

/-- One evaluation after the other, where the second one starts in the states that the first one
leaves. -/
theorem bind_of_ok (hx : Traces P Q x y)
    (hf : ∀ s a s', P s → y s = .ok a s' → Traces (· = s') Q (f a) (g a)) :
    Traces P Q (x >>= f) (y >>= g) := by
  intro s log hs
  obtain ⟨more, hmore, hQ⟩ := hx s log hs
  simp only [Bind.bind, EStateM.bind, hmore]
  cases hy : y s with
  | error stop s' => exact ⟨more, rfl, hQ⟩
  | ok a s' =>
    obtain ⟨more', hmore', hQ'⟩ := hf s a s' hs hy s' (log ++ more) rfl
    refine ⟨more ++ more', by rw [← List.append_assoc]; exact hmore', fun entry he => ?_⟩
    exact (List.mem_append.1 he).elim (hQ entry) (hQ' entry)

/-- Entries of one kind are entries of a larger one. -/
theorem mono {Q' : ε → Prop} (h : Traces P Q x y) (hQ : ∀ entry, Q entry → Q' entry) :
    Traces P Q' x y := by
  intro s log hs
  obtain ⟨more, hmore, hentries⟩ := h s log hs
  exact ⟨more, hmore, fun entry he => hQ entry (hentries entry he)⟩

/-- Nothing has to be known of the states in which the second one starts. -/
theorem bind_quiet (hx : Traces P Q x y)
    (hf : ∀ a, Traces (fun _ => True) Q (f a) (g a)) : Traces P Q (x >>= f) (y >>= g) :=
  hx.bind_of_ok fun _ a _ _ _ => (hf a).imp fun _ _ => trivial

/-- Entries that are made before an evaluation. -/
theorem note {entries : List ε} {z : Traced ε α} (he : ∀ entry ∈ entries, Q entry)
    (h : Traces P Q z y) : Traces P Q (Traced.note entries >>= fun _ => z) y := by
  intro s log hs
  obtain ⟨more, hmore, hQ⟩ := h s (log ++ entries) hs
  refine ⟨entries ++ more, by rw [← List.append_assoc]; exact hmore, fun entry hm => ?_⟩
  exact (List.mem_append.1 hm).elim (he entry) (hQ entry)

theorem printLine {text : String} (he : ∀ entry ∈ p.line text, Q entry) :
    Traces P Q (Traced.printLine p text) (Eval.printLine text) :=
  note he (lift _)

theorem read {id : NodeId} {name : Token}
    (he : ∀ s, P s → ∀ entry ∈ p.read ⟨id, name, s⟩, Q entry) :
    Traces P Q (Traced.read p id name) (Eval.read id name) :=
  fun s _ hs => ⟨_, rfl, he s hs⟩

theorem assign {own? : Option String} {id : NodeId} {name : Token} {v : Value}
    (he : ∀ s, P s → ∀ entry ∈ p.write ⟨own?, id, name, v, s⟩, Q entry) :
    Traces P Q (Traced.assign p own? id name v) (Eval.assign id name v) :=
  fun s _ hs => ⟨_, rfl, he s hs⟩

theorem within {inner : ScopeId} (h : Traces P' Q x y)
    (hP : ∀ s, P s → P' { s with current := inner }) :
    Traces P Q (Traced.within inner x) (Eval.within inner y) := by
  intro s log hs
  obtain ⟨more, hmore, hQ⟩ := h { s with current := inner } log (hP s hs)
  refine ⟨more, ?_, hQ⟩
  simp only [Traced.within, Eval.within, hmore]
  cases y { s with current := inner } <;> rfl

end Traces

namespace Traced

/-- A relation of traced evaluations to evaluations that is closed under everything the evaluator is
made of. -/
structure Closed {ε : Type} (p : Probe ε) (R : ∀ {α : Type}, Traced ε α → Eval α → Prop) :
    Prop where
  lift {α : Type} {y : Eval α} (hblind : y.Blind) (hkeeps : Eval.Keeps true y) :
    R (lift y) y
  bind {α β : Type} {x : Traced ε α} {y : Eval α} {f : α → Traced ε β} {g : α → Eval β}
    (hx : R x y) (hf : ∀ a, R (f a) (g a)) : R (x >>= f) (y >>= g)
  within {α : Type} {inner : ScopeId} {x : Traced ε α} {y : Eval α} (hx : R x y) :
    R (within inner x) (Eval.within inner y)
  statement {α : Type} {x : Traced ε α} {y : Eval α} (s : Stmt) (hx : R x y) :
    R (note (p.statement s) >>= fun _ => x) y
  printLine (text : String) : R (printLine p text) (Eval.printLine text)
  read (id : NodeId) (name : Token) : R (read p id name) (Eval.read id name)
  assign (own? : Option String) (id : NodeId) (name : Token) (v : Value) :
    R (assign p own? id name v) (Eval.assign id name v)

/-- With `n` steps every part of the traced evaluator is related to the part of the evaluator. -/
structure EvaluatorRelated {ε : Type} (p : Probe ε)
    (R : ∀ {α : Type}, Traced ε α → Eval α → Prop) (n : Nat) : Prop where
  evaluate (own? : Option String) (e : Expr) : R (evaluate p n own? e) (Lox.evaluate n e)
  evaluateAll (own? : Option String) (es : List Expr) :
    R (evaluateAll p n own? es) (Lox.evaluateAll n es)
  call (f : Callable) (vs : List Value) : R (call p n f vs) (Lox.call n f vs)
  execute (s : Stmt) : R (execute p n s) (Lox.execute n s)
  evaluateOption (own? : Option String) (e? : Option Expr) :
    R (evaluateOption p n own? e?) (Lox.evaluateOption n e?)
  repeatWhile (e : Expr) (s : Stmt) : R (repeatWhile p n e s) (Lox.repeatWhile n e s)
  executeAll (ss : List Stmt) : R (executeAll p n ss) (Lox.executeAll n ss)

namespace Closed

variable {ε : Type} {p : Probe ε} {R : ∀ {α : Type}, Traced ε α → Eval α → Prop}
  (closed : Closed p R)

include closed

theorem pure {α : Type} (a : α) : R (pure a) (pure a : Eval α) :=
  closed.lift (.pure a) (.pure a)

theorem outOfFuel {α : Type} : R (Traced.lift Eval.outOfFuel) (Eval.outOfFuel : Eval α) :=
  closed.lift .outOfFuel .outOfFuel

theorem fault {α : Type} (cause : RuntimeFault) (token : Token) :
    R (Traced.lift (Eval.fault cause token)) (Eval.fault cause token : Eval α) :=
  closed.lift (.fault cause token) (.fault cause token)

theorem operate (operator : Token) (result : Except RuntimeFault Value) :
    R (Traced.lift (Eval.operate operator result)) (Eval.operate operator result) :=
  closed.lift (.operate operator result) (.operate operator result)

theorem tick : R (Traced.lift Eval.tick) Eval.tick :=
  closed.lift .tick .tick

theorem here : R (Traced.lift Eval.here) Eval.here :=
  closed.lift .here .here

theorem define (name : Token) (v : Value) :
    R (Traced.lift (Eval.define name v)) (Eval.define name v) :=
  closed.lift (.define name v) (.define name v)

theorem newScope (parent? : Option ScopeId) (bindings : List (String × Value)) :
    R (Traced.lift (Eval.newScope parent? bindings)) (Eval.newScope parent? bindings) :=
  closed.lift (.newScope parent? bindings) (.newScope parent? bindings)

theorem evaluator_zero : EvaluatorRelated p R 0 where
  evaluate _ _ := closed.outOfFuel
  evaluateAll _ _ := closed.outOfFuel
  call _ _ := closed.outOfFuel
  execute _ := closed.outOfFuel
  evaluateOption _ _ := closed.outOfFuel
  repeatWhile _ _ := closed.outOfFuel
  executeAll _ := closed.outOfFuel

variable {n : Nat} (h : EvaluatorRelated p R n)

include h

theorem evaluate_succ (own? : Option String) (e : Expr) :
    R (evaluate p (n + 1) own? e) (Lox.evaluate (n + 1) e) := by
  cases e with
  | literal value => exact closed.pure _
  | grouping inner => exact h.evaluate own? inner
  | unary operator operand =>
    exact closed.bind (h.evaluate own? operand) fun _ => closed.operate operator _
  | binary left operator right =>
    exact closed.bind (h.evaluate own? left) fun _ =>
      closed.bind (h.evaluate own? right) fun _ => closed.operate operator _
  | logical left operator right =>
    refine closed.bind (h.evaluate own? left) fun v => ?_
    split
    · exact closed.pure v
    · exact h.evaluate own? right
  | read id name => exact closed.read id name
  | assign id name value =>
    exact closed.bind (h.evaluate own? value) fun v =>
      closed.bind (closed.assign own? id name v) fun _ => closed.pure v
  | call callee paren arguments =>
    refine closed.bind (h.evaluate own? callee) fun v =>
      closed.bind (h.evaluateAll own? arguments) fun vs => ?_
    cases v with
    | callable f =>
      dsimp only
      split
      · exact h.call f vs
      · exact closed.fault _ paren
    | _ => exact closed.fault .notCallable paren

theorem evaluateAll_succ (own? : Option String) (es : List Expr) :
    R (evaluateAll p (n + 1) own? es) (Lox.evaluateAll (n + 1) es) := by
  cases es with
  | nil => exact closed.pure []
  | cons e es =>
    exact closed.bind (h.evaluate own? e) fun v =>
      closed.bind (h.evaluateAll own? es) fun vs => closed.pure (v :: vs)

theorem call_succ (f : Callable) (vs : List Value) :
    R (call p (n + 1) f vs) (Lox.call (n + 1) f vs) := by
  cases f with
  | clock identity =>
    exact closed.lift (.bind .tick fun _ => .readClock) (.bind .tick fun _ => .readClock)
  | closure identity function scope =>
    refine closed.bind closed.tick fun _ => closed.bind (closed.newScope _ _) fun inner => ?_
    refine closed.bind (closed.within (h.executeAll function.body)) fun flow => ?_
    cases flow <;> exact closed.pure _

theorem execute_succ (s : Stmt) : R (execute p (n + 1) s) (Lox.execute (n + 1) s) := by
  refine closed.statement s ?_
  cases s with
  | expression value => exact closed.bind (h.evaluate none value) fun _ => closed.pure _
  | print value =>
    exact closed.bind (h.evaluate none value) fun v =>
      closed.bind (closed.printLine v.text) fun _ => closed.pure _
  | var name initial =>
    exact closed.bind (h.evaluateOption _ initial) fun v =>
      closed.bind (closed.define name v) fun _ => closed.pure _
  | block body =>
    exact closed.bind closed.here fun _ =>
      closed.bind (closed.newScope _ _) fun _ => closed.within (h.executeAll body)
  | branch condition onTrue onFalse =>
    refine closed.bind (h.evaluate none condition) fun v => ?_
    split
    · exact h.execute onTrue
    · cases onFalse with
      | none => exact closed.pure _
      | some onFalse => exact h.execute onFalse
  | loop condition body => exact h.repeatWhile condition body
  | function name params body =>
    exact closed.lift
      (.bind .here fun scope => .bind (.newClosure _ scope) fun v =>
        .bind (.define name v) fun _ => .pure _)
      (.bind .here fun scope => .bind (.newClosure _ scope) fun v =>
        .bind (.define name v) fun _ => .pure _)
  | exit keyword value => exact closed.bind (h.evaluateOption none value) fun _ => closed.pure _

theorem evaluateOption_succ (own? : Option String) (e? : Option Expr) :
    R (evaluateOption p (n + 1) own? e?) (Lox.evaluateOption (n + 1) e?) := by
  cases e? with
  | none => exact closed.pure Value.nil
  | some e => exact h.evaluate own? e

theorem repeatWhile_succ (e : Expr) (s : Stmt) :
    R (repeatWhile p (n + 1) e s) (Lox.repeatWhile (n + 1) e s) := by
  refine closed.bind closed.tick fun _ => closed.bind (h.evaluate none e) fun v => ?_
  split
  · refine closed.bind (h.execute s) fun flow => ?_
    cases flow with
    | returned v => exact closed.pure _
    | normal => exact h.repeatWhile e s
  · exact closed.pure _

theorem executeAll_succ (ss : List Stmt) :
    R (executeAll p (n + 1) ss) (Lox.executeAll (n + 1) ss) := by
  cases ss with
  | nil => exact closed.pure _
  | cons s ss =>
    refine closed.bind (h.execute s) fun flow => ?_
    cases flow with
    | returned v => exact closed.pure _
    | normal => exact h.executeAll ss

theorem evaluator_succ : EvaluatorRelated p R (n + 1) where
  evaluate := closed.evaluate_succ h
  evaluateAll := closed.evaluateAll_succ h
  call := closed.call_succ h
  execute := closed.execute_succ h
  evaluateOption := closed.evaluateOption_succ h
  repeatWhile := closed.repeatWhile_succ h
  executeAll := closed.executeAll_succ h

omit h

/-- So the traced evaluator as a whole is related to the evaluator. -/
theorem evaluator (n : Nat) : EvaluatorRelated p R n := by
  induction n with
  | zero => exact closed.evaluator_zero
  | succ n ih => exact closed.evaluator_succ ih

theorem executeProgram (n : Nat) (program : List Stmt) :
    R (executeProgram p n program) (Lox.executeProgram n program) := by
  induction program with
  | nil => exact closed.pure ()
  | cons s ss ih => exact closed.bind ((closed.evaluator n).execute s) fun _ => ih

end Closed

/-- Every traced evaluation goes as the evaluation. -/
theorem closed_along {ε : Type} (p : Probe ε) :
    Closed p fun x y => Traces (fun _ => True) (fun _ => True) x y where
  lift _ _ := .lift _
  bind := .bind_quiet
  within hx := hx.within fun _ _ => trivial
  statement _ hx := .note (fun _ _ => trivial) hx
  printLine _ := .printLine fun _ _ => trivial
  read _ _ := .read fun _ _ _ _ => trivial
  assign _ _ _ _ := .assign fun _ _ _ _ => trivial

end Traced

/-- What flushes the sink at the end makes no entries. -/
theorem Traces.interpret {ε : Type} {p : Probe ε} {P : State → Prop} {Q : ε → Prop} {n : Nat}
    {program : List Stmt}
    (h : Traces P Q (Traced.executeProgram p n program) (executeProgram n program)) :
    Traces P Q (Traced.interpret p n program) (Lox.interpret n program) := by
  intro s log hs
  obtain ⟨more, hmore, hQ⟩ := h s log hs
  refine ⟨more, ?_, hQ⟩
  unfold Traced.interpret Lox.interpret
  rw [hmore]
  cases executeProgram n program s with
  | ok _ s' => cases hflush : s'.sink.flushFails <;> simp [Traced.attach, hflush]
  | error stop s' =>
    cases stop <;> cases hflush : s'.sink.flushFails <;> simp [Traced.attach, hflush]

/-- A traced run of a program is the run, and its entries are of a kind if those of the program
are. -/
theorem Traces.runProgram {ε : Type} {p : Probe ε} {P : State → Prop} {Q : ε → Prop} {n : Nat}
    {program : List Stmt} {next : NodeId} {s : State} (hs : P s)
    (h : Traces P Q (Traced.executeProgram p n program) (executeProgram n program)) :
    (Traced.runProgram p n program next s).1 = Session.runProgram n program next s ∧
      ∀ entry ∈ (Traced.runProgram p n program next s).2, Q entry := by
  obtain ⟨more, hmore, hQ⟩ := h.interpret s [] hs
  unfold Traced.runProgram Session.runProgram
  rw [hmore]
  cases Lox.interpret n program s with
  | ok _ s' => exact ⟨rfl, hQ⟩
  | error stop s' => cases stop <;> exact ⟨rfl, hQ⟩

/-- A source is run as a program that was admitted, or it is refused and makes no entries. -/
theorem Traced.run_cases {ε : Type} (p : Probe ε) (n : Nat) (source : String) (S : Session) :
    (∃ program s, (Grammar.parseProgram S.nextId (tokens source)).result = .ok program ∧
      S.state.admit program = .ok s ∧
      Traced.run p n source S = Traced.runProgram p n program
        (Grammar.parseProgram S.nextId (tokens source)).nextId s ∧
      S.run n source = Session.runProgram n program
        (Grammar.parseProgram S.nextId (tokens source)).nextId s) ∨
    Traced.run p n source S = (S.run n source, []) := by
  unfold Traced.run Session.run
  cases hp : (Grammar.parseProgram S.nextId (tokens source)).result with
  | error faults => exact .inr (by simp only [hp])
  | ok program =>
    simp only [hp]
    split
    · exact .inr rfl
    · cases hres : S.state.resolve program with
      | mk faults s =>
        cases faults with
        | cons fault faults => exact .inr rfl
        | nil => exact .inl ⟨program, s, rfl, by simp only [hres, State.admit], rfl, rfl⟩

/-- A traced run is the run. -/
theorem Traced.run_fst {ε : Type} (p : Probe ε) (n : Nat) (source : String) (S : Session) :
    (Traced.run p n source S).1 = S.run n source := by
  rcases Traced.run_cases p n source S with ⟨program, s, -, -, htraced, hrun⟩ | h
  · rw [htraced, hrun]
    exact (Traces.runProgram (P := fun _ => True) trivial
      ((Traced.closed_along p).executeProgram n program)).1
  · rw [h]

end Lox
