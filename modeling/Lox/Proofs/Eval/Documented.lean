import Lox.Proofs.Grammar.Meaningful
import Lox.Proofs.Lexical.Scopes
import Lox.Eval

/-!
# The faults of a program

A program can stop at an operand of the wrong type, at a name that is not bound, at a value that is
no function and at a wrong number of arguments, but never at an operator
(`RuntimeFault.Documented`). The evaluator needs meaningful code for this, also in the functions
that values are: `Scopes.Meaningful` says that all functions within reach have it, and
`Eval.Yields` that an evaluation keeps it so. It passes from the parts of the evaluator to the
whole by induction on the bound of steps (`evaluatorYields`).
-/

namespace Lox

variable {α β : Type}

/-- The faults that programs can have: all but those of operators. -/
def RuntimeFault.Documented : RuntimeFault → Prop
  | operandNotNumber | operandsNotNumbers | operandsNotAddable | notCallable => True
  | undefinedVariable x => IsName x
  | wrongArity expected given => expected ≠ given
  | invalidUnary | invalidBinary => False

def Stop.Documented : Stop → Prop
  | error (.fault cause _) => cause.Documented
  | error (.sink _) | outOfFuel => True

/-- The code of a user's function is meaningful. -/
def Callable.Meaningful : Callable → Prop
  | clock _ => True
  | closure _ function _ => Stmt.MeaningfulAll function.body

def Value.Meaningful : Value → Prop
  | callable f => f.Meaningful
  | _ => True

def Flow.Meaningful : Flow → Prop
  | normal => True
  | returned v => v.Meaningful

/-- All functions that are bound to a name have meaningful code. -/
def Scopes.Meaningful (s : Scopes) : Prop :=
  s.Holds Value.Meaningful

theorem Value.meaningful_ofLiteral (l : Literal) : (ofLiteral l).Meaningful := by
  cases l <;> trivial

/-! ## Operators -/

section Operators

variable {operator : Token} {v w : Value}

theorem Value.documented_unary
    (ho : operator.kind = .symbol .bang ∨ operator.kind = .symbol .minus) :
    match v.unary operator with
    | .ok w => w.Meaningful
    | .error cause => cause.Documented := by
  unfold Value.unary
  rcases ho with ho | ho <;> rw [ho]
  · trivial
  · cases v <;> trivial

theorem Value.documented_binary (ho : ∃ s ∈ binaryOperators, operator.kind = .symbol s) :
    match v.binary operator w with
    | .ok w => w.Meaningful
    | .error cause => cause.Documented := by
  obtain ⟨s, hs, ho⟩ := ho
  simp only [binaryOperators, List.mem_cons, List.not_mem_nil, or_false] at hs
  unfold Value.binary Value.add Value.arithmetic
  rw [ho]
  rcases hs with rfl | rfl | rfl | rfl | rfl | rfl | rfl | rfl | rfl | rfl <;>
    cases v <;> first | trivial | (cases w <;> trivial)

end Operators

/-! ## Evaluations -/

namespace Eval

/-- With meaningful functions within reach, an evaluation gives what meets `P` or stops at a
documented fault, and leaves meaningful functions within reach. -/
def Yields (P : α → Prop) (x : Eval α) : Prop :=
  ∀ s : State, s.scopes.Meaningful → match x s with
    | .ok a s' => P a ∧ s'.scopes.Meaningful
    | .error stop s' => stop.Documented ∧ s'.scopes.Meaningful

namespace Yields

variable {P : α → Prop} {Q : β → Prop} {x : Eval α} {f : α → Eval β}

theorem pure {a : α} (ha : P a) : Yields P (pure a) :=
  fun _ hs => ⟨ha, hs⟩

theorem fault (cause : RuntimeFault) (token : Token) (hc : cause.Documented) :
    Yields P (Eval.fault cause token : Eval α) :=
  fun _ hs => ⟨hc, hs⟩

theorem outOfFuel : Yields P (Eval.outOfFuel : Eval α) :=
  fun _ hs => ⟨trivial, hs⟩

theorem bind (hx : Yields P x) (hf : ∀ a, P a → Yields Q (f a)) : Yields Q (x >>= f) := by
  intro s hs
  have h := hx s hs
  simp only [Bind.bind, EStateM.bind]
  cases hxs : x s with
  | error stop s' =>
    rw [hxs] at h
    exact h
  | ok a s' =>
    rw [hxs] at h
    exact hf a h.1 s' h.2

/-- A step that changes no binding and gives what meets `P`. -/
theorem of_same (h : ∀ s, ∃ a s', x s = .ok a s' ∧ P a ∧ s'.scopes = s.scopes) :
    Yields P x := by
  intro s hs
  obtain ⟨a, s', hx, ha, hscopes⟩ := h s
  rw [hx]
  exact ⟨ha, hscopes ▸ hs⟩

theorem tick : Yields (fun _ => True) tick :=
  of_same fun s => ⟨(), { s with ticks := s.ticks + 1 }, rfl, trivial, rfl⟩

theorem readClock : Yields Value.Meaningful readClock :=
  of_same fun s => ⟨.number (s.clock s.ticks), s, rfl, trivial, rfl⟩

theorem here : Yields (fun _ => True) here :=
  of_same fun s => ⟨s.current, s, rfl, trivial, rfl⟩

theorem newClosure (function : Function) (scope : ScopeId)
    (h : Stmt.MeaningfulAll function.body) :
    Yields Value.Meaningful (newClosure function scope) :=
  of_same fun s => ⟨.callable (.closure s.nextFunction function scope),
    { s with nextFunction := s.nextFunction + 1 }, rfl, h, rfl⟩

theorem printLine (text : String) : Yields (fun _ => True) (printLine text) := by
  intro s hs
  unfold Eval.printLine
  rcases s.sink.write (text.push '\n').toUTF8 with ⟨_ | _, sink⟩ <;> exact ⟨trivial, hs⟩

theorem operate {operator : Token} {result : Except RuntimeFault Value}
    (h : match result with
      | .ok v => v.Meaningful
      | .error cause => cause.Documented) : Yields Value.Meaningful (operate operator result) := by
  cases result with
  | ok v => exact pure h
  | error cause => exact fault cause operator h

theorem read (id : NodeId) {name : Token} (hn : IsName name.lexeme) :
    Yields Value.Meaningful (read id name) := by
  intro s hs
  unfold Eval.read
  cases hv : s.valueOf? id name.lexeme with
  | none => exact ⟨hn, hs⟩
  | some v =>
    obtain ⟨holder, -, hget⟩ := Option.bind_eq_some_iff.1 hv
    exact ⟨hs holder name.lexeme v hget, hs⟩

theorem assign (id : NodeId) {name : Token} {v : Value} (hn : IsName name.lexeme)
    (hv : v.Meaningful) : Yields (fun _ => True) (assign id name v) := by
  intro s hs
  unfold Eval.assign
  cases s.holder? id name.lexeme with
  | none => exact ⟨hn, hs⟩
  | some holder => exact ⟨trivial, hs.define hv holder name.lexeme⟩

theorem define (name : Token) {v : Value} (hv : v.Meaningful) :
    Yields (fun _ => True) (define name v) :=
  fun s hs => ⟨trivial, hs.define hv s.current name.lexeme⟩

theorem newScope (parent? : Option ScopeId) {bindings : List (String × Value)}
    (hb : ∀ b ∈ bindings, b.2.Meaningful) :
    Yields (fun _ => True) (newScope parent? bindings) :=
  fun s hs => ⟨trivial, (hs.add parent?).defineAll s.scopes.size bindings hb⟩

theorem within (scope : ScopeId) (hx : Yields P x) : Yields P (within scope x) := by
  intro s hs
  have h := hx { s with current := scope } hs
  unfold Eval.within
  generalize x { s with current := scope } = xs at h ⊢
  cases xs <;> exact h

end Yields

end Eval

open Eval

/-- With `n` steps meaningful code yields meaningful values. -/
structure EvaluatorYields (n : Nat) : Prop where
  evaluate (e : Expr) (he : e.Meaningful) : Yields Value.Meaningful (evaluate n e)
  evaluateAll (es : List Expr) (hes : Expr.MeaningfulAll es) :
    Yields (fun vs => ∀ v ∈ vs, v.Meaningful) (evaluateAll n es)
  call (f : Callable) (vs : List Value) (hf : f.Meaningful) (hvs : ∀ v ∈ vs, v.Meaningful) :
    Yields Value.Meaningful (call n f vs)
  evaluateOption (e? : Option Expr) (he : Expr.MeaningfulOption e?) :
    Yields Value.Meaningful (evaluateOption n e?)
  execute (s : Stmt) (hs : s.Meaningful) : Yields Flow.Meaningful (execute n s)
  repeatWhile (e : Expr) (s : Stmt) (he : e.Meaningful) (hs : s.Meaningful) :
    Yields Flow.Meaningful (repeatWhile n e s)
  executeAll (ss : List Stmt) (hss : Stmt.MeaningfulAll ss) :
    Yields Flow.Meaningful (executeAll n ss)

theorem evaluatorYields_zero : EvaluatorYields 0 where
  evaluate _ _ := .outOfFuel
  evaluateAll _ _ := .outOfFuel
  call _ _ _ _ := .outOfFuel
  evaluateOption _ _ := .outOfFuel
  execute _ _ := .outOfFuel
  repeatWhile _ _ _ _ := .outOfFuel
  executeAll _ _ := .outOfFuel

namespace EvaluatorYields

variable {n : Nat} (h : EvaluatorYields n)

include h

theorem evaluate_succ (e : Expr) (he : e.Meaningful) :
    Yields Value.Meaningful (Lox.evaluate (n + 1) e) := by
  cases e with
  | literal value => exact .pure (Value.meaningful_ofLiteral value)
  | grouping inner => exact h.evaluate inner he
  | unary operator operand =>
    exact (h.evaluate operand he.2).bind fun v _ => .operate (Value.documented_unary he.1)
  | binary left operator right =>
    exact (h.evaluate left he.1).bind fun v _ => (h.evaluate right he.2.2).bind fun w _ =>
      .operate (Value.documented_binary he.2.1)
  | logical left operator right =>
    refine (h.evaluate left he.1).bind fun v hv => ?_
    split
    · exact .pure hv
    · exact h.evaluate right he.2
  | read id name => exact .read id he
  | assign id name value =>
    exact (h.evaluate value he.2).bind fun v hv =>
      (Yields.assign id he.1 hv).bind fun _ _ => .pure hv
  | call callee paren arguments =>
    refine (h.evaluate callee he.1).bind fun v hv =>
      (h.evaluateAll arguments he.2).bind fun vs hvs => ?_
    cases v with
    | callable f =>
      dsimp only
      split
      · exact h.call f vs hv hvs
      · exact .fault _ paren (by assumption)
    | _ => exact .fault .notCallable paren trivial

theorem evaluateAll_succ (es : List Expr) (hes : Expr.MeaningfulAll es) :
    Yields (fun vs => ∀ v ∈ vs, v.Meaningful) (Lox.evaluateAll (n + 1) es) := by
  cases es with
  | nil => exact .pure (List.forall_mem_nil _)
  | cons e es =>
    exact (h.evaluate e hes.1).bind fun v hv => (h.evaluateAll es hes.2).bind fun vs hvs =>
      .pure (List.forall_mem_cons.2 ⟨hv, hvs⟩)

/-- The body of a function runs in a scope whose names are bound to the arguments. -/
theorem call_succ (f : Callable) (vs : List Value) (hf : f.Meaningful)
    (hvs : ∀ v ∈ vs, v.Meaningful) : Yields Value.Meaningful (Lox.call (n + 1) f vs) := by
  cases f with
  | clock identity => exact Yields.tick.bind fun _ _ => .readClock
  | closure identity function scope =>
    have hbindings : ∀ b ∈ (function.params.map (·.lexeme)).zip vs, b.2.Meaningful :=
      fun b hb => hvs b.2 (List.of_mem_zip hb).2
    refine Yields.tick.bind fun _ _ => (Yields.newScope scope hbindings).bind fun inner _ =>
      ((h.executeAll function.body hf).within inner).bind fun flow hflow => ?_
    cases flow with
    | normal => exact .pure trivial
    | returned v => exact .pure hflow

theorem evaluateOption_succ : ∀ e? : Option Expr, Expr.MeaningfulOption e? →
    Yields Value.Meaningful (Lox.evaluateOption (n + 1) e?)
  | none, _ => .pure trivial
  | some e, he => h.evaluate e he

theorem execute_succ (s : Stmt) (hs : s.Meaningful) :
    Yields Flow.Meaningful (Lox.execute (n + 1) s) := by
  cases s with
  | expression value => exact (h.evaluate value hs).bind fun _ _ => .pure trivial
  | print value =>
    exact (h.evaluate value hs).bind fun v _ => (Yields.printLine v.text).bind fun _ _ =>
      .pure trivial
  | var name initial =>
    exact (h.evaluateOption initial hs).bind fun v hv => (Yields.define name hv).bind fun _ _ =>
      .pure trivial
  | block body =>
    exact Yields.here.bind fun scope _ => (Yields.newScope _ (List.forall_mem_nil _)).bind
      fun inner _ => (h.executeAll body hs).within inner
  | branch condition onTrue onFalse =>
    cases onFalse with
    | none =>
      refine (h.evaluate condition hs.1).bind fun v _ => ?_
      split
      · exact h.execute onTrue hs.2
      · exact .pure trivial
    | some onFalse =>
      refine (h.evaluate condition hs.1).bind fun v _ => ?_
      split
      · exact h.execute onTrue hs.2.1
      · exact h.execute onFalse hs.2.2
  | loop condition body => exact h.repeatWhile condition body hs.1 hs.2
  | function name params body =>
    exact Yields.here.bind fun scope _ =>
      (Yields.newClosure ⟨name, params, body⟩ scope hs).bind fun v hv =>
        (Yields.define name hv).bind fun _ _ => .pure trivial
  | exit keyword value =>
    exact (h.evaluateOption value hs).bind fun v hv => .pure hv

theorem repeatWhile_succ (e : Expr) (s : Stmt) (he : e.Meaningful) (hs : s.Meaningful) :
    Yields Flow.Meaningful (Lox.repeatWhile (n + 1) e s) := by
  refine Yields.tick.bind fun _ _ => (h.evaluate e he).bind fun v _ => ?_
  split
  · refine (h.execute s hs).bind fun flow hflow => ?_
    cases flow with
    | returned v => exact .pure hflow
    | normal => exact h.repeatWhile e s he hs
  · exact .pure trivial

theorem executeAll_succ (ss : List Stmt) (hss : Stmt.MeaningfulAll ss) :
    Yields Flow.Meaningful (Lox.executeAll (n + 1) ss) := by
  cases ss with
  | nil => exact .pure trivial
  | cons s ss =>
    refine (h.execute s hss.1).bind fun flow hflow => ?_
    cases flow with
    | returned v => exact .pure hflow
    | normal => exact h.executeAll ss hss.2

theorem succ : EvaluatorYields (n + 1) where
  evaluate := h.evaluate_succ
  evaluateAll := h.evaluateAll_succ
  call := h.call_succ
  evaluateOption := h.evaluateOption_succ
  execute := h.execute_succ
  repeatWhile := h.repeatWhile_succ
  executeAll := h.executeAll_succ

end EvaluatorYields

theorem evaluatorYields : ∀ n : Nat, EvaluatorYields n
  | 0 => evaluatorYields_zero
  | n + 1 => (evaluatorYields n).succ

theorem executeProgram_yields (n : Nat) : ∀ program : List Stmt, Stmt.MeaningfulAll program →
    Yields (fun _ => True) (executeProgram n program)
  | [], _ => .pure trivial
  | s :: ss, ⟨hs, hss⟩ =>
    ((evaluatorYields n).execute s hs).bind fun _ _ => executeProgram_yields n ss hss

theorem interpret_yields (n : Nat) {program : List Stmt} (hp : Stmt.MeaningfulAll program) :
    Yields (fun _ => True) (interpret n program) := by
  intro s hs
  have h := executeProgram_yields n program hp s hs
  unfold interpret
  generalize executeProgram n program s = xs at h ⊢
  rcases xs with ⟨_, s'⟩ | ⟨stop, s'⟩
  · cases hflush : s'.sink.flushFails <;> simp only [hflush, if_true] <;> exact ⟨trivial, h.2⟩
  · cases stop with
    | outOfFuel => exact h
    | error e =>
      cases hflush : s'.sink.flushFails <;> simp only [hflush, if_true]
      · exact h
      · exact ⟨trivial, h.2⟩

end Lox
