import Lox.Proofs.Machine.Step

/-!
# The machine does what the evaluator does

Where an evaluation has an end, the machine comes to it from the same state, with the same stack;
where the evaluation was given too few steps, the machine takes at least as many
(`Machine.Runs`). So the machine comes to a stop with a program exactly if the program has an end,
and its stop is that end (`Machine.stops_iff`).
-/

namespace Lox.Machine

open Eval

variable {α β : Type}

/-- The machine comes to the end of an evaluation, or takes as many steps as it was given. -/
def Ends (n : Nat) (m : Machine) (stack : List Frame) (finish : α → Control) :
    EStateM.Result Stop State α → Prop
  | .ok a s => m.Reaches ⟨finish a, stack, s⟩
  | .error (.error e) s => m.Reaches ⟨.stopped (.error e), stack, s⟩
  | .error .outOfFuel _ => ∃ k m', n ≤ k ∧ Steps k m m'

/-- What the machine does from some places, on any stack and in any state, is an evaluation. -/
def Runs (n : Nat) (place : List Frame → State → Machine) (x : Eval α) (finish : α → Control) :
    Prop :=
  ∀ stack s, Ends n (place stack s) stack finish (x s)

namespace Ends

variable {n n' : Nat} {m m' : Machine} {stack : List Frame} {finish : α → Control}
  {r : EStateM.Result Stop State α}

theorem head (h : m.step? = some m') (hr : Ends n m' stack finish r) :
    Ends (n + 1) m stack finish r := by
  rcases r with ⟨a, s⟩ | ⟨_ | _, s⟩
  · exact .head h hr
  · exact .head h hr
  · obtain ⟨k, m'', hk, hs⟩ := hr
    exact ⟨k + 1, m'', Nat.succ_le_succ hk, .head h hs⟩

theorem mono (hr : Ends n m stack finish r) (hle : n' ≤ n) : Ends n' m stack finish r := by
  rcases r with ⟨a, s⟩ | ⟨_ | _, s⟩
  · exact hr
  · exact hr
  · obtain ⟨k, m', hk, hs⟩ := hr
    exact ⟨k, m', Nat.le_trans hle hk, hs⟩

theorem trans (h : m.Reaches m') (hr : Ends n m' stack finish r) : Ends n m stack finish r := by
  obtain ⟨j, h⟩ := h
  rcases r with ⟨a, s⟩ | ⟨_ | _, s⟩
  · exact .trans ⟨j, h⟩ hr
  · exact .trans ⟨j, h⟩ hr
  · obtain ⟨k, m'', hk, hs⟩ := hr
    exact ⟨j + k, m'', Nat.le_trans hk (Nat.le_add_left k j), h.trans hs⟩

/-- An operation is one step. -/
theorem of_resume (h : m.step? = some (resume finish stack r))
    (hr : ∀ s, r ≠ .error .outOfFuel s) : Ends n m stack finish r := by
  rcases r with ⟨a, s⟩ | ⟨_ | _, s⟩
  · exact .one h
  · exact .one h
  · exact absurd rfl (hr s)

/-- After an evaluation the frame below it goes on, or is left where it stops. -/
theorem bind {x : Eval α} {g : α → Eval β} {middle : α → Control} {finish : β → Control}
    {frame : Frame} {s : State} (hx : Ends n m (frame :: stack) middle (x s))
    (hframe : ∀ s, frame.leave s = s)
    (hg : ∀ a s, Ends n ⟨middle a, frame :: stack, s⟩ stack finish (g a s)) :
    Ends n m stack finish ((x >>= g) s) := by
  simp only [Bind.bind, EStateM.bind]
  rcases hxs : x s with ⟨a, s'⟩ | ⟨e | _, s'⟩ <;> rw [hxs] at hx
  · exact (hg a s').trans hx
  · refine Reaches.trans hx (.one ?_)
    show some (Machine.mk (.stopped (.error e)) stack (frame.leave s')) = _
    rw [hframe]
  · exact hx

/-- An evaluation in another scope, with the current one on the stack. -/
theorem within {x : Eval Flow} {s : State} {inner : ScopeId}
    (hx : Ends n m (.scope s.current :: stack) .flow (x { s with current := inner })) :
    Ends n m stack .flow (within inner x s) := by
  unfold Eval.within
  rcases hxs : x { s with current := inner } with ⟨a, s'⟩ | ⟨e | _, s'⟩ <;> rw [hxs] at hx
  · refine Reaches.trans hx (.one ?_)
    cases a <;> rfl
  · exact Reaches.trans hx (.one rfl)
  · exact hx

end Ends

namespace Runs

variable {n n' : Nat} {place place' : List Frame → State → Machine} {x : Eval α}
  {g : α → Eval β} {finish : α → Control}

theorem outOfFuel : Runs 0 place (outOfFuel : Eval α) finish :=
  fun stack s => ⟨0, place stack s, Nat.le_refl 0, .refl _⟩

theorem head (h : ∀ stack s, (place stack s).step? = some (place' stack s))
    (hx : Runs n place' x finish) : Runs (n + 1) place x finish :=
  fun stack s => (hx stack s).head (h stack s)

theorem mono (hx : Runs n place x finish) (hle : n' ≤ n) : Runs n' place x finish :=
  fun stack s => (hx stack s).mono hle

/-- A step on the way, which no step is counted for. -/
theorem next (h : ∀ stack s, (place stack s).step? = some (place' stack s))
    (hx : Runs n place' x finish) : Runs n place x finish :=
  (hx.head h).mono (Nat.le_succ n)

theorem operation (h : ∀ stack s, (place stack s).step? = some (resume finish stack (x s)))
    (hx : ∀ s s', x s ≠ .error .outOfFuel s') : Runs n place x finish :=
  fun stack s => .of_resume (h stack s) (hx s)

theorem pure {a : α} (h : ∀ stack s, (place stack s).step? = some ⟨finish a, stack, s⟩) :
    Runs n place (pure a) finish :=
  operation h nofun

theorem bind {control : Control} {frame : Frame} {middle : α → Control} {finish : β → Control}
    (hx : Runs n (fun stack s => ⟨control, stack, s⟩) x middle)
    (hframe : ∀ s, frame.leave s = s)
    (hg : ∀ a, Runs n (fun stack s => ⟨middle a, frame :: stack, s⟩) (g a) finish) :
    Runs n (fun stack s => ⟨control, frame :: stack, s⟩) (x >>= g) finish :=
  fun stack s => .bind (hx (frame :: stack) s) hframe fun a s => hg a stack s

/-- What an evaluation gives, in other terms. -/
theorem map {f : α → β} {finish : β → Control} (hx : Runs n place x fun a => finish (f a)) :
    Runs n place (x >>= fun a => Pure.pure (f a)) finish := by
  intro stack s
  have h := hx stack s
  simp only [Bind.bind, EStateM.bind]
  rcases hxs : x s with ⟨a, s'⟩ | ⟨_ | _, s'⟩ <;> rw [hxs] at h <;> exact h

end Runs

/-! ## Operations have an end -/

theorem operate_ne_outOfFuel (operator : Token) (r : Except RuntimeFault Value) (s s' : State) :
    operate operator r s ≠ .error .outOfFuel s' := by
  cases r <;> nofun

theorem read_ne_outOfFuel (id : NodeId) (name : Token) (s s' : State) :
    Eval.read id name s ≠ .error .outOfFuel s' := by
  unfold Eval.read
  split <;> nofun

theorem assign_ne_outOfFuel (id : NodeId) (name : Token) (v : Value) (s s' : State) :
    Eval.assign id name v s ≠ .error .outOfFuel s' := by
  unfold Eval.assign
  split <;> rintro ⟨⟩

theorem printLine_ne_outOfFuel (text : String) (s s' : State) :
    printLine text s ≠ .error .outOfFuel s' := by
  unfold printLine
  split <;> nofun

/-! ## The evaluator -/

/-- With `n` steps each part of the evaluator is what the machine does. -/
structure EvaluatorRuns (n : Nat) : Prop where
  evaluate (e : Expr) : Runs n (⟨.evaluate e, ·, ·⟩) (Lox.evaluate n e) .value
  evaluateAll (before : List Value) (es : List Expr) :
    Runs n (⟨.evaluateAll before es, ·, ·⟩) (evaluateAll n es) fun vs => .values (before ++ vs)
  evaluateOption (e? : Option Expr) :
    Runs n (⟨.evaluateOption e?, ·, ·⟩) (evaluateOption n e?) .value
  call (f : Callable) (vs : List Value) : Runs n (⟨.call f vs, ·, ·⟩) (Lox.call n f vs) .value
  execute (s : Stmt) : Runs n (⟨.execute s, ·, ·⟩) (Lox.execute n s) .flow
  repeatWhile (e : Expr) (s : Stmt) :
    Runs n (⟨.repeatWhile e s, ·, ·⟩) (repeatWhile n e s) .flow
  executeAll (ss : List Stmt) : Runs n (⟨.executeAll ss, ·, ·⟩) (executeAll n ss) .flow

theorem evaluatorRuns_zero : EvaluatorRuns 0 where
  evaluate _ := .outOfFuel
  evaluateAll _ _ := .outOfFuel
  evaluateOption _ := .outOfFuel
  call _ _ := .outOfFuel
  execute _ := .outOfFuel
  repeatWhile _ _ := .outOfFuel
  executeAll _ := .outOfFuel

namespace EvaluatorRuns

variable {n : Nat} (ih : EvaluatorRuns n)

include ih

theorem apply (v : Value) (paren : Token) (vs : List Value) :
    Runs n (⟨.values vs, .apply v paren :: ·, ·⟩) (match v with
      | .callable f =>
        if f.arity = vs.length then Lox.call n f vs
        else fault (.wrongArity f.arity vs.length) paren
      | _ => fault .notCallable paren) .value := by
  cases v with
  | callable f =>
    dsimp only
    split
    · refine .next (fun stack s => ?_) (ih.call f vs)
      exact congrArg some (if_pos ‹_›)
    · refine .operation (fun stack s => ?_) nofun
      exact congrArg some (if_neg ‹_›)
  | _ => exact .operation (fun _ _ => rfl) nofun

theorem evaluate_succ (e : Expr) :
    Runs (n + 1) (⟨.evaluate e, ·, ·⟩) (Lox.evaluate (n + 1) e) .value := by
  cases e with
  | literal value => exact .pure fun _ _ => rfl
  | grouping inner => exact .head (fun _ _ => rfl) (ih.evaluate inner)
  | unary operator operand =>
    refine .head (fun _ _ => rfl) (.bind (ih.evaluate operand) (fun _ => rfl) fun v => ?_)
    exact .operation (fun _ _ => rfl) (operate_ne_outOfFuel operator _)
  | binary left operator right =>
    refine .head (fun _ _ => rfl) (.bind (ih.evaluate left) (fun _ => rfl) fun v => ?_)
    refine .next (fun _ _ => rfl) (.bind (ih.evaluate right) (fun _ => rfl) fun w => ?_)
    exact .operation (fun _ _ => rfl) (operate_ne_outOfFuel operator _)
  | logical left operator right =>
    refine .head (fun _ _ => rfl) (.bind (ih.evaluate left) (fun _ => rfl) fun v => ?_)
    split
    · exact .pure fun _ _ => if_pos ‹_›
    · exact .next (fun _ _ => if_neg ‹_›) (ih.evaluate right)
  | read id name => exact .operation (fun _ _ => rfl) (read_ne_outOfFuel id name)
  | assign id name value =>
    refine .head (fun _ _ => rfl) (.bind (ih.evaluate value) (fun _ => rfl) fun v => ?_)
    exact .map (.operation (fun _ _ => rfl) (assign_ne_outOfFuel id name v))
  | call callee paren arguments =>
    refine .head (fun _ _ => rfl) (.bind (ih.evaluate callee) (fun _ => rfl) fun v => ?_)
    exact .next (fun _ _ => rfl)
      (.bind (ih.evaluateAll [] arguments) (fun _ => rfl) (ih.apply v paren))

theorem evaluateAll_succ (before : List Value) (es : List Expr) :
    Runs (n + 1) (⟨.evaluateAll before es, ·, ·⟩) (Lox.evaluateAll (n + 1) es)
      fun vs => .values (before ++ vs) := by
  cases es with
  | nil => exact .pure fun _ _ => by rw [List.append_nil]; rfl
  | cons e es =>
    refine .head (fun _ _ => rfl) (.bind (ih.evaluate e) (fun _ => rfl) fun v => ?_)
    have h := ih.evaluateAll (before ++ [v]) es
    simp only [List.append_assoc, List.singleton_append] at h
    exact .next (fun _ _ => rfl) (.map h)

theorem call_succ (f : Callable) (vs : List Value) :
    Runs (n + 1) (⟨.call f vs, ·, ·⟩) (Lox.call (n + 1) f vs) .value := by
  cases f with
  | clock identity => exact .operation (fun _ _ => rfl) nofun
  | closure identity function scope =>
    intro stack s
    refine .head rfl (.bind (x := within s.scopes.size (Lox.executeAll n function.body))
      (.within (ih.executeAll function.body _ _)) (fun _ => rfl) fun flow s => ?_)
    cases flow <;> exact .one rfl

theorem execute_succ (s : Stmt) :
    Runs (n + 1) (⟨.execute s, ·, ·⟩) (Lox.execute (n + 1) s) .flow := by
  cases s with
  | expression value =>
    refine .head (fun _ _ => rfl) (.bind (ih.evaluate value) (fun _ => rfl) fun v => ?_)
    exact .pure fun _ _ => rfl
  | print value =>
    refine .head (fun _ _ => rfl) (.bind (ih.evaluate value) (fun _ => rfl) fun v => ?_)
    exact .map (.operation (fun _ _ => rfl) (printLine_ne_outOfFuel v.text))
  | var name initial =>
    refine .head (fun _ _ => rfl) (.bind (ih.evaluateOption initial) (fun _ => rfl) fun v => ?_)
    exact .map (.operation (fun _ _ => rfl) nofun)
  | block body =>
    intro stack s
    exact .head rfl (.within (ih.executeAll body _ _))
  | branch condition onTrue onFalse =>
    refine .head (fun _ _ => rfl) (.bind (ih.evaluate condition) (fun _ => rfl) fun v => ?_)
    split
    · exact .next (fun _ _ => if_pos ‹_›) (ih.execute onTrue)
    · cases onFalse with
      | none => exact .pure fun _ _ => if_neg ‹_›
      | some onFalse => exact .next (fun _ _ => if_neg ‹_›) (ih.execute onFalse)
  | loop condition body => exact .head (fun _ _ => rfl) (ih.repeatWhile condition body)
  | function name params body =>
    intro stack s
    exact .head rfl (.of_resume rfl nofun)
  | exit keyword value =>
    refine .head (fun _ _ => rfl) (.bind (ih.evaluateOption value) (fun _ => rfl) fun v => ?_)
    exact .pure fun _ _ => rfl

theorem evaluateOption_succ : ∀ e? : Option Expr,
    Runs (n + 1) (⟨.evaluateOption e?, ·, ·⟩) (Lox.evaluateOption (n + 1) e?) .value
  | none => .pure fun _ _ => rfl
  | some e => .head (fun _ _ => rfl) (ih.evaluate e)

theorem test (v : Value) (e : Expr) (s : Stmt) :
    Runs n (⟨.value v, .test e s :: ·, ·⟩) (if v.isTruthy then do
        match ← Lox.execute n s with
        | .returned v => return .returned v
        | .normal => Lox.repeatWhile n e s
      else return .normal) .flow := by
  split
  · refine .next (fun _ _ => if_pos ‹_›) (.bind (ih.execute s) (fun _ => rfl) fun flow => ?_)
    cases flow with
    | returned v => exact .pure fun _ _ => rfl
    | normal => exact .next (fun _ _ => rfl) (ih.repeatWhile e s)
  · exact .pure fun _ _ => if_neg ‹_›

theorem repeatWhile_succ (e : Expr) (s : Stmt) :
    Runs (n + 1) (⟨.repeatWhile e s, ·, ·⟩) (Lox.repeatWhile (n + 1) e s) .flow :=
  fun stack t => .head rfl (.bind (x := Lox.evaluate n e) (s := { t with ticks := t.ticks + 1 })
    (ih.evaluate e _ _) (fun _ => rfl) fun v => ih.test v e s stack)

theorem executeAll_succ (ss : List Stmt) :
    Runs (n + 1) (⟨.executeAll ss, ·, ·⟩) (Lox.executeAll (n + 1) ss) .flow := by
  cases ss with
  | nil => exact .pure fun _ _ => rfl
  | cons s ss =>
    refine .head (fun _ _ => rfl) (.bind (ih.execute s) (fun _ => rfl) fun flow => ?_)
    cases flow with
    | returned v => exact .pure fun _ _ => rfl
    | normal => exact .next (fun _ _ => rfl) (ih.executeAll ss)

end EvaluatorRuns

theorem evaluatorRuns : ∀ n : Nat, EvaluatorRuns n
  | 0 => evaluatorRuns_zero
  | n + 1 => by
    have ih := evaluatorRuns n
    exact
      { evaluate := ih.evaluate_succ
        evaluateAll := ih.evaluateAll_succ
        evaluateOption := ih.evaluateOption_succ
        call := ih.call_succ
        execute := ih.execute_succ
        repeatWhile := ih.repeatWhile_succ
        executeAll := ih.executeAll_succ }

/-! ## Programs -/

theorem executeProgram_runs (n : Nat) (program : List Stmt) :
    Runs n (⟨.executeProgram program, ·, ·⟩) (executeProgram n program)
      fun _ => .executeProgram [] := by
  induction program with
  | nil => exact fun _ _ => .refl _
  | cons s ss ih =>
    refine .next (fun _ _ => rfl) (.bind ((evaluatorRuns n).execute s) (fun _ => rfl) fun f => ?_)
    refine .next (fun _ _ => ?_) ih
    cases f <;> rfl

/-- Where a machine is when a program has ended. -/
def ended (r : EStateM.Result Stop State Unit) : Machine :=
  resume (fun _ => .executeProgram []) [] r

theorem step?_ended (r : EStateM.Result Stop State Unit) : (ended r).step? = none := by
  cases r <;> rfl

/-- The machine comes to a stop with a program if the program has an end, and then at that end. -/
theorem stops_iff {program : List Stmt} {s : State} {m : Machine} :
    (start program s).Reaches m ∧ m.step? = none ↔
      ∃ n, (∀ s', executeProgram n program s ≠ .error .outOfFuel s') ∧
        m = ended (executeProgram n program s) := by
  have hruns : ∀ n, Ends n (start program s) [] (fun _ => .executeProgram [])
      (executeProgram n program s) := fun n => executeProgram_runs n program [] s
  constructor
  · rintro ⟨⟨n, hsteps⟩, hm⟩
    -- With more steps than the machine takes the program cannot run short of them.
    have h := hruns (n + 1)
    refine ⟨n + 1, ?_⟩
    rcases hr : executeProgram (n + 1) program s with ⟨a, s'⟩ | ⟨e | _, s'⟩ <;> rw [hr] at h
    · exact ⟨nofun, Reaches.eq_of_halted h rfl ⟨n, hsteps⟩ hm⟩
    · exact ⟨nofun, Reaches.eq_of_halted h rfl ⟨n, hsteps⟩ hm⟩
    · obtain ⟨k, m', hk, hs⟩ := h
      exact absurd (hsteps.of_halted hm hs).1 (Nat.not_le_of_lt hk)
  · rintro ⟨n, hn, rfl⟩
    refine ⟨?_, step?_ended _⟩
    have h := hruns n
    rcases hr : executeProgram n program s with ⟨a, s'⟩ | ⟨e | _, s'⟩ <;> rw [hr] at h
    · exact h
    · exact h
    · exact absurd hr (hn s')

end Lox.Machine
