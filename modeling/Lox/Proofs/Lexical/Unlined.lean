import Lox.Proofs.Eval.Alike
import Lox.Proofs.Lexical.Evaluator
import Lox.Proofs.Tree.Unlined

/-!
# Runs on other lines

Lexical scoping never looks at a line. What a tree does in a state, the tree without lines does in
the state without lines, and it ends in the same way but for the line of an error
(`unlinedStep`, `interpret_unlined`).
-/

namespace Lox

/-- The same function on no line. -/
def Function.unlined (f : Function) : Function :=
  ⟨f.name.unlined, f.params.map (·.unlined), Stmt.unlinedAll f.body⟩

/-- The same error on no line. -/
def RuntimeError.unlined : RuntimeError → RuntimeError
  | .fault cause token => .fault cause token.unlined
  | .sink cause => .sink cause

def Stop.unlined : Stop → Stop
  | .error e => .error e.unlined
  | .outOfFuel => .outOfFuel

namespace Lexical

/-- The same value with its code on no line. -/
def Value.unlined : Value → Value
  | .plain v => .plain v
  | .closure identity function env => .closure identity function.unlined env

/-- The same state with all code on no line. -/
def State.unlined (s : State) : State :=
  { s with
    store := fun l => (s.store l).map (·.unlined)
    globals := s.globals.map fun b => (b.1, b.2.unlined) }

def Flow.unlined : Flow → Flow
  | .normal env => .normal env
  | .returned v => .returned v.unlined

/-- The end of a run, on no line. -/
def unlinedEnd {α β : Type} (g : α → β) :
    EStateM.Result Stop State α → EStateM.Result Stop State β
  | .ok a s => .ok (g a) s.unlined
  | .error stop s => .error stop.unlined s.unlined

/-- What `x` does in a state, `y` does in the state without lines. -/
def RunsUnlined {α β : Type} (x : Eval α) (y : Eval β) (g : α → β) : Prop :=
  ∀ s, y s.unlined = unlinedEnd g (x s)

theorem Value.shown_unlined (v : Value) : v.unlined.shown.Alike v.shown := by
  cases v with
  | plain v => exact .refl v
  | closure i f env =>
    have hname : f.unlined.name.lexeme = f.name.lexeme := rfl
    exact .closure i hname _ _

namespace State

variable (s : State)

theorem globalNames_unlined : s.unlined.globalNames = s.globalNames := by
  simp only [globalNames, State.unlined, List.map_map, Function.comp_def]

theorem lookup_unlined (name : String) (globals : List (String × Value)) :
    (globals.map fun b => (b.1, b.2.unlined)).lookup name =
      (globals.lookup name).map (·.unlined) := by
  induction globals with
  | nil => rfl
  | cons b globals ih =>
    rw [List.map_cons, List.lookup_cons, List.lookup_cons, ih]
    cases name == b.1 <;> rfl

theorem valueOf?_unlined (env : Env) (name : String) :
    s.unlined.valueOf? env name = (s.valueOf? env name).map (·.unlined) := by
  unfold valueOf?
  cases env.lookup name with
  | none => exact lookup_unlined name s.globals
  | some location => rfl

theorem fill_unlined (location : Location) (v : Value) :
    s.unlined.fill location v.unlined = (s.fill location v).unlined := by
  unfold fill State.unlined
  congr 1
  funext l
  dsimp only
  split <;> rfl

theorem put_unlined (env : Env) (name : String) (v : Value) :
    s.unlined.put env name v.unlined = (s.put env name v).unlined := by
  unfold put
  cases env.lookup name with
  | none => rfl
  | some location => exact s.fill_unlined location v

end State

namespace RunsUnlined

variable {α α' β β' : Type} {x : Eval α} {x' : Eval α'} {g : α → α'} {h : β → β'}

theorem pure {a : α} {a' : α'} (ha : g a = a') : RunsUnlined (Pure.pure a) (Pure.pure a') g :=
  fun _ => ha ▸ rfl

theorem bind {f : α → Eval β} {f' : α' → Eval β'} (hx : RunsUnlined x x' g)
    (hf : ∀ a, RunsUnlined (f a) (f' (g a)) h) : RunsUnlined (x >>= f) (x' >>= f') h := by
  intro s
  simp only [Bind.bind, EStateM.bind, hx s]
  cases x s with
  | ok a s' => exact hf a s'
  | error stop s' => rfl

theorem outOfFuel : RunsUnlined (Eval.outOfFuel : Eval α) (Eval.outOfFuel : Eval α') g :=
  fun _ => rfl

theorem fault (cause : RuntimeFault) (token : Token) :
    RunsUnlined (Eval.fault cause token : Eval α) (Eval.fault cause token.unlined : Eval α') g :=
  fun _ => rfl

theorem operate (op : Token) (result : Except RuntimeFault Lox.Value) :
    RunsUnlined (Eval.operate op result) (Eval.operate op.unlined result) (·.unlined) := by
  cases result with
  | ok v => exact .pure rfl
  | error cause => exact .fault cause op

theorem read (env : Env) (name : Token) :
    RunsUnlined (Eval.read env name) (Eval.read env name.unlined) (·.unlined) := by
  intro s
  have hvalue : s.unlined.valueOf? env name.unlined.lexeme = _ := s.valueOf?_unlined env name.lexeme
  simp only [Eval.read, hvalue]
  cases s.valueOf? env name.lexeme <;> rfl

theorem assign (env : Env) (name : Token) (v : Value) :
    RunsUnlined (Eval.assign env name v) (Eval.assign env name.unlined v.unlined) id := by
  intro s
  have hvalue : s.unlined.valueOf? env name.unlined.lexeme = _ := s.valueOf?_unlined env name.lexeme
  have hput : s.unlined.put env name.unlined.lexeme v.unlined = _ := s.put_unlined env name.lexeme v
  simp only [Eval.assign, hvalue, hput]
  cases s.valueOf? env name.lexeme <;> rfl

theorem allocate : RunsUnlined Eval.allocate Eval.allocate id :=
  fun _ => rfl

theorem fill (location : Location) (v : Value) :
    RunsUnlined (Eval.fill location v) (Eval.fill location v.unlined) id :=
  fun s => congrArg (EStateM.Result.ok ()) (s.fill_unlined location v)

theorem defineGlobal (name : Token) (v : Value) :
    RunsUnlined (Eval.defineGlobal name v) (Eval.defineGlobal name.unlined v.unlined) id :=
  fun _ => rfl

theorem extend : ∀ (env : Env) (bindings : List (String × Value)),
    RunsUnlined (Eval.extend env bindings)
      (Eval.extend env (bindings.map fun b => (b.1, b.2.unlined))) id
  | _, [] => .pure rfl
  | env, (name, v) :: bindings => allocate.bind fun location =>
    (fill location v).bind fun _ => extend ((name, location) :: env) bindings

theorem newClosure (f : Function) (env : Env) :
    RunsUnlined (Eval.newClosure f env) (Eval.newClosure f.unlined env) (·.unlined) :=
  fun _ => rfl

theorem printLine (text : String) :
    RunsUnlined (Eval.printLine text) (Eval.printLine text) id := by
  intro s
  have hsink : s.unlined.sink = s.sink := rfl
  simp only [Eval.printLine, hsink]
  rcases s.sink.write (text.push '\n').toUTF8 with ⟨_ | _, sink⟩ <;> rfl

theorem tick : RunsUnlined Eval.tick Eval.tick id :=
  fun _ => rfl

theorem readClock : RunsUnlined Eval.readClock Eval.readClock (·.unlined) :=
  fun _ => rfl

end RunsUnlined

/-! ## The evaluator -/

/-- The functions of the evaluator do without lines, with a bound. -/
structure UnlinedStep (n : Nat) : Prop where
  evaluate : ∀ env (e : Expr),
    RunsUnlined (evaluate n env e) (evaluate n env e.unlined) (·.unlined)
  evaluateAll : ∀ env (es : List Expr), RunsUnlined (evaluateAll n env es)
    (evaluateAll n env (Expr.unlinedAll es)) (List.map (·.unlined))
  call : ∀ v vs, RunsUnlined (call n v vs) (call n v.unlined (vs.map (·.unlined))) (·.unlined)
  execute : ∀ env (s : Stmt), RunsUnlined (execute n env s) (execute n env s.unlined) (·.unlined)
  evaluateOption : ∀ env (e? : Option Expr), RunsUnlined (evaluateOption n env e?)
    (evaluateOption n env (e?.map (·.unlined))) (·.unlined)
  repeatWhile : ∀ env (condition : Expr) (body : Stmt),
    RunsUnlined (repeatWhile n env condition body)
      (repeatWhile n env condition.unlined body.unlined) (·.unlined)
  executeAll : ∀ env (ss : List Stmt),
    RunsUnlined (executeAll n env ss) (executeAll n env (Stmt.unlinedAll ss)) (·.unlined)

theorem unlinedStep_zero : UnlinedStep 0 where
  evaluate _ _ := .outOfFuel
  evaluateAll _ _ := .outOfFuel
  call _ _ := .outOfFuel
  execute _ _ := .outOfFuel
  evaluateOption _ _ := .outOfFuel
  repeatWhile _ _ _ := .outOfFuel
  executeAll _ _ := .outOfFuel

section Step

variable {n : Nat} (ih : UnlinedStep n)

include ih

theorem call_unlined (v : Value) (vs : List Value) :
    RunsUnlined (call (n + 1) v vs) (call (n + 1) v.unlined (vs.map (·.unlined)))
      (·.unlined) := by
  cases v with
  | plain v => exact RunsUnlined.tick.bind fun _ => .readClock
  | closure i f env =>
    have hbindings : (f.unlined.params.map (·.lexeme)).zip (vs.map (·.unlined)) =
        ((f.params.map (·.lexeme)).zip vs).map fun b => (b.1, b.2.unlined) := by
      rw [Function.unlined, Token.lexemes_unlined, List.zip_map_right]
      rfl
    refine RunsUnlined.tick.bind fun _ => ?_
    rw [hbindings]
    refine (RunsUnlined.extend env _).bind fun inner => (ih.executeAll inner f.body).bind
      fun flow => ?_
    cases flow <;> exact .pure rfl

variable (env : Env)

theorem evaluate_unlined (e : Expr) :
    RunsUnlined (evaluate (n + 1) env e) (evaluate (n + 1) env e.unlined) (·.unlined) := by
  cases e with
  | literal value => exact .pure rfl
  | grouping inner => exact ih.evaluate env inner
  | unary op operand =>
    refine (ih.evaluate env operand).bind fun v => ?_
    rw [v.shown_unlined.unary]
    exact .operate op _
  | binary left op right =>
    refine (ih.evaluate env left).bind fun v => (ih.evaluate env right).bind fun w => ?_
    rw [v.shown_unlined.binary w.shown_unlined]
    exact .operate op _
  | logical left op right =>
    refine (ih.evaluate env left).bind fun v => ?_
    have hdecides : v.unlined.shown.decides op.unlined = v.shown.decides op :=
      v.shown_unlined.decides op
    rw [hdecides]
    cases v.shown.decides op with
    | true => exact .pure rfl
    | false => exact ih.evaluate env right
  | read id name => exact .read env name
  | assign id name value =>
    exact (ih.evaluate env value).bind fun v =>
      (RunsUnlined.assign env name v).bind fun _ => .pure rfl
  | call callee paren arguments =>
    refine (ih.evaluate env callee).bind fun v => (ih.evaluateAll env arguments).bind fun vs => ?_
    have hcall (f f' : Callable) (harity : f'.arity = f.arity) :
        RunsUnlined
          (if f.arity = vs.length then call n v vs
            else Eval.fault (.wrongArity f.arity vs.length) paren)
          (if f'.arity = (vs.map (·.unlined)).length then
            call n v.unlined (vs.map (·.unlined))
            else Eval.fault (.wrongArity f'.arity (vs.map (·.unlined)).length) paren.unlined)
          (·.unlined) := by
      rw [harity, List.length_map]
      split
      · exact ih.call v vs
      · exact .fault _ paren
    cases v with
    | plain v =>
      cases v with
      | callable f => exact hcall f f rfl
      | _ => exact .fault .notCallable paren
    | closure i f env => exact hcall _ _ (List.length_map _)

theorem evaluateAll_unlined (es : List Expr) : RunsUnlined (evaluateAll (n + 1) env es)
    (evaluateAll (n + 1) env (Expr.unlinedAll es)) (List.map (·.unlined)) := by
  cases es with
  | nil => exact .pure rfl
  | cons e es =>
    exact (ih.evaluate env e).bind fun v => (ih.evaluateAll env es).bind fun vs => .pure rfl

theorem execute_unlined (s : Stmt) :
    RunsUnlined (execute (n + 1) env s) (execute (n + 1) env s.unlined) (·.unlined) := by
  cases s with
  | expression value => exact (ih.evaluate env value).bind fun _ => .pure rfl
  | print value =>
    refine (ih.evaluate env value).bind fun v => ?_
    rw [v.shown_unlined.text]
    exact (RunsUnlined.printLine _).bind fun _ => .pure rfl
  | var name initial =>
    exact RunsUnlined.allocate.bind fun location =>
      (ih.evaluateOption ((name.lexeme, location) :: env) initial).bind fun v =>
        (RunsUnlined.fill location v).bind fun _ => .pure rfl
  | block body =>
    refine (ih.executeAll env body).bind fun flow => ?_
    cases flow <;> exact .pure rfl
  | branch condition onTrue onFalse =>
    rw [Stmt.unlined_branch]
    refine (ih.evaluate env condition).bind fun v => ?_
    rw [v.shown_unlined.isTruthy]
    cases v.shown.isTruthy with
    | true => exact ih.execute env onTrue
    | false =>
      cases onFalse with
      | none => exact .pure rfl
      | some onFalse => exact ih.execute env onFalse
  | loop condition body => exact ih.repeatWhile env condition body
  | function name params body =>
    exact RunsUnlined.allocate.bind fun location =>
      (RunsUnlined.newClosure ⟨name, params, body⟩ ((name.lexeme, location) :: env)).bind
        fun f => (RunsUnlined.fill location f).bind fun _ => .pure rfl
  | exit keyword value => exact (ih.evaluateOption env value).bind fun _ => .pure rfl

theorem evaluateOption_unlined (e? : Option Expr) : RunsUnlined (evaluateOption (n + 1) env e?)
    (evaluateOption (n + 1) env (e?.map (·.unlined))) (·.unlined) := by
  cases e? with
  | none => exact .pure rfl
  | some e => exact ih.evaluate env e

theorem repeatWhile_unlined (condition : Expr) (body : Stmt) :
    RunsUnlined (repeatWhile (n + 1) env condition body)
      (repeatWhile (n + 1) env condition.unlined body.unlined) (·.unlined) := by
  refine RunsUnlined.tick.bind fun _ => (ih.evaluate env condition).bind fun v => ?_
  rw [v.shown_unlined.isTruthy]
  cases v.shown.isTruthy with
  | true =>
    refine (ih.execute env body).bind fun flow => ?_
    cases flow with
    | normal _ => exact ih.repeatWhile env condition body
    | returned v => exact .pure rfl
  | false => exact .pure rfl

theorem executeAll_unlined (ss : List Stmt) : RunsUnlined (executeAll (n + 1) env ss)
    (executeAll (n + 1) env (Stmt.unlinedAll ss)) (·.unlined) := by
  cases ss with
  | nil => exact .pure rfl
  | cons s ss =>
    refine (ih.execute env s).bind fun flow => ?_
    cases flow with
    | normal env => exact ih.executeAll env ss
    | returned v => exact .pure rfl

end Step

/-- The evaluator does without lines, whatever the bound. -/
theorem unlinedStep : ∀ n, UnlinedStep n
  | 0 => unlinedStep_zero
  | n + 1 => by
    have ih := unlinedStep n
    exact
      { evaluate := evaluate_unlined ih
        evaluateAll := evaluateAll_unlined ih
        call := call_unlined ih
        execute := execute_unlined ih
        evaluateOption := evaluateOption_unlined ih
        repeatWhile := repeatWhile_unlined ih
        executeAll := executeAll_unlined ih }

section Program

variable (n : Nat)

theorem executeTop_unlined (s : Stmt) :
    RunsUnlined (executeTop n s) (executeTop n s.unlined) id := by
  cases n with
  | zero =>
    cases s with
    | branch _ _ onFalse => cases onFalse <;> exact .outOfFuel
    | _ => exact .outOfFuel
  | succ n =>
    have hother : RunsUnlined (execute (n + 1) [] s >>= fun _ => pure ())
        (execute (n + 1) [] s.unlined >>= fun _ => pure ()) id :=
      ((unlinedStep (n + 1)).execute [] s).bind fun _ => .pure rfl
    cases s with
    | var name initial =>
      exact ((unlinedStep n).evaluateOption [] initial).bind fun v => .defineGlobal name v
    | function name params body =>
      exact (RunsUnlined.newClosure ⟨name, params, body⟩ []).bind fun f => .defineGlobal name f
    | branch condition onTrue onFalse => cases onFalse <;> exact hother
    | _ => exact hother

theorem executeProgram_unlined (program : List Stmt) :
    RunsUnlined (executeProgram n program) (executeProgram n (Stmt.unlinedAll program)) id := by
  induction program with
  | nil => exact .pure rfl
  | cons s ss ih => exact (executeTop_unlined n s).bind fun _ => ih

/-- A program ends in the same way without lines. -/
theorem interpret_unlined (program : List Stmt) :
    RunsUnlined (interpret n program) (interpret n (Stmt.unlinedAll program)) id := by
  intro s
  unfold interpret
  rw [executeProgram_unlined n program s]
  have hsink (s : State) : s.unlined.sink = s.sink := rfl
  rcases executeProgram n program s with ⟨⟨⟩, s⟩ | ⟨_ | _, s⟩
  · simp only [unlinedEnd, hsink]
    split <;> rfl
  · simp only [unlinedEnd, Stop.unlined, hsink]
    split <;> rfl
  · rfl

end Program

end Lexical

end Lox
