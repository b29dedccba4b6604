import Lox.Proofs.Binding.Accepted
import Lox.Proofs.Lexical.Session

/-!
# What an evaluation leaves as it was

However an evaluation ends, the scope that was current is so again, the distances are as they were,
and no scope was taken away or put into another (`State.Restored`); names are bound in new scopes,
and at most in the current one of the old (`State.Kept`). `Eval.Keeps` says so of one evaluation.
It passes from the parts of the evaluator to the whole by induction on the bound of steps
(`evaluatorKeeps`), the only scopes that are entered being new (`Keeps.nested`).
-/

namespace Lox

variable {α β : Type}

/-- The current scope and the distances are the same, and each scope that was there is where it
was. -/
structure State.Restored (s s' : State) : Prop where
  current : s'.current = s.current
  distances : s'.distances = s.distances
  size : s.scopes.size ≤ s'.scopes.size
  parent? : ∀ i < s.scopes.size, s'.scopes.parent? i = s.scopes.parent? i

/-- No name is lost either, and of the scopes that were there only `o?` may have got new ones. -/
structure State.Kept (o? : Option ScopeId) (s s' : State) : Prop extends State.Restored s s' where
  bound : ∀ i x, s.scopes.binds i x = true → s'.scopes.binds i x = true
  names : ∀ i < s.scopes.size, some i ≠ o? → ∀ x, s'.scopes.binds i x = true →
    s.scopes.binds i x = true

namespace Scopes

variable {s : Scopes} {i j : ScopeId} {x y : String} {v : Value}

theorem binds_define : (s.define i x v).binds j y = true ↔
    s.binds j y = true ∨ i < s.size ∧ j = i ∧ y = x := by
  by_cases hi : i < s.size
  · rw [binds_iff, binds_iff, get?_define hi]
    split <;> rename_i h <;> simp [h, hi]
  · simp [binds, bindings_define_of_size_le (Nat.le_of_not_lt hi), hi]

theorem binds_add {parent? : Option ScopeId} :
    (s.add parent?).2.binds j y = s.binds j y := by
  unfold binds
  rw [bindings_add]

theorem binds_of_holderAt? {d : Nat} {holder : ScopeId} (h : s.holderAt? i d x = some holder) :
    s.binds holder x = true :=
  (Option.filter_eq_some_iff.1 h).2

theorem binds_of_holder? {holder : ScopeId} (h : s.holder? i x = some holder) :
    s.binds holder x = true :=
  List.find?_some (p := (s.binds · x)) h

end Scopes

theorem State.binds_of_holder? {s : State} {id : NodeId} {x : String} {holder : ScopeId}
    (h : s.holder? id x = some holder) : s.scopes.binds holder x = true := by
  unfold State.holder? at h
  split at h
  · exact Scopes.binds_of_holderAt? h
  · exact Scopes.binds_of_holder? h

namespace State.Kept

variable {o? : Option ScopeId} {s s' s'' : State}

theorem refl (o? : Option ScopeId) (s : State) : s.Kept o? s :=
  ⟨⟨rfl, rfl, Nat.le_refl _, fun _ _ => rfl⟩, fun _ _ h => h, fun _ _ _ _ h => h⟩

theorem trans (h : s.Kept o? s') (h' : s'.Kept o? s'') : s.Kept o? s'' where
  current := h'.current.trans h.current
  distances := h'.distances.trans h.distances
  size := Nat.le_trans h.size h'.size
  parent? i hi := (h'.parent? i (Nat.lt_of_lt_of_le hi h.size)).trans (h.parent? i hi)
  bound i x hx := h'.bound i x (h.bound i x hx)
  names i hi ho x hx := h.names i hi ho x (h'.names i (Nat.lt_of_lt_of_le hi h.size) ho x hx)

theorem weaken (h : s.Kept none s') : s.Kept o? s' :=
  { h with names := fun i hi _ => h.names i hi nofun }

/-- A name is bound in the scope `i`, and only there. -/
theorem define (s : State) (i : ScopeId) (x : String) (v : Value) :
    s.Kept (some i) { s with scopes := s.scopes.define i x v } where
  current := rfl
  distances := rfl
  size := by simp
  parent? _ _ := Scopes.parent?_define
  bound _ _ h := Scopes.binds_define.2 (.inl h)
  names j _ hj y h := by
    rcases Scopes.binds_define.1 h with h | ⟨-, rfl, -⟩
    · exact h
    · exact absurd rfl hj

/-- A name that is bound already gets another value. -/
theorem assign {i : ScopeId} {x : String} (v : Value) (h : s.scopes.binds i x = true) :
    s.Kept none { s with scopes := s.scopes.define i x v } :=
  { define s i x v with
    names := fun j _ _ y hy => by
      rcases Scopes.binds_define.1 hy with hy | ⟨-, rfl, rfl⟩
      · exact hy
      · exact h }

theorem add (s : State) (parent? : Option ScopeId) :
    s.Kept none { s with scopes := (s.scopes.add parent?).2 } where
  current := rfl
  distances := rfl
  size := by simp
  parent? _ hi := Scopes.parent?_add_ne (Nat.ne_of_lt hi)
  bound _ _ h := by rwa [Scopes.binds_add]
  names _ _ _ _ h := by rwa [Scopes.binds_add] at h

/-- What happens in a scope that is new does not show in the scopes that were there. -/
theorem fresh (h : s.Kept none s') (h' : s'.Kept (some s.scopes.size) s'') : s.Kept none s'' where
  current := h'.current.trans h.current
  distances := h'.distances.trans h.distances
  size := Nat.le_trans h.size h'.size
  parent? i hi := (h'.parent? i (Nat.lt_of_lt_of_le hi h.size)).trans (h.parent? i hi)
  bound i x hx := h'.bound i x (h.bound i x hx)
  names i hi ho x hx := by
    refine h.names i hi ho x (h'.names i (Nat.lt_of_lt_of_le hi h.size) ?_ x hx)
    rintro ⟨⟩
    exact Nat.lt_irrefl _ hi

/-- An evaluation in another scope, after which the current one is put back. -/
theorem within {scope : ScopeId} (h : State.Kept o? { s with current := scope } s') :
    s.Kept o? { s' with current := s.current } :=
  { h with current := rfl }

/-- Names that are bound in a scope that is new. -/
theorem defineAll : ∀ (bindings : List (String × Value)) {s' : State}, s.Kept none s' →
    s.Kept none { s' with
      scopes := bindings.foldl (fun scopes b => scopes.define s.scopes.size b.1 b.2) s'.scopes }
  | [], _, h => h
  | b :: bindings, s', h => by
    have hstep : s.Kept none { s' with
        scopes := s'.scopes.define s.scopes.size b.1 b.2 } :=
      h.fresh (define s' s.scopes.size b.1 b.2)
    exact hstep.defineAll bindings

end State.Kept

namespace Eval

/-- However the evaluation ends, all is kept; where `adds` holds, the current scope may have got
names. -/
def Keeps (adds : Bool) (x : Eval α) : Prop :=
  ∀ s : State, s.Kept (bif adds then some s.current else none) (stateOf (x s))

namespace Keeps

variable {adds : Bool} {x : Eval α} {f : α → Eval β}

theorem weaken (h : Keeps false x) : Keeps adds x :=
  fun s => (h s).weaken

/-- An evaluation that leaves the state alone. -/
theorem of_eq (h : ∀ s, stateOf (x s) = s) : Keeps adds x := by
  intro s
  rw [h s]
  exact .refl _ s

theorem pure (a : α) : Keeps adds (pure a) :=
  of_eq fun _ => rfl

theorem fault (cause : RuntimeFault) (token : Token) :
    Keeps adds (Eval.fault cause token : Eval α) :=
  of_eq fun _ => rfl

theorem outOfFuel : Keeps adds (Eval.outOfFuel : Eval α) :=
  of_eq fun _ => rfl

theorem bind (hx : Keeps adds x) (hf : ∀ a, Keeps adds (f a)) : Keeps adds (x >>= f) := by
  intro s
  have h := hx s
  simp only [Bind.bind, EStateM.bind]
  cases hxs : x s with
  | error stop s' =>
    rw [hxs] at h
    exact h
  | ok a s' =>
    rw [hxs] at h
    have h' := hf a s'
    rw [show s'.current = s.current from h.current] at h'
    exact h.trans h'

/-- A change of what has nothing to do with scopes. -/
theorem of_same (h : ∀ s, (stateOf (x s)).scopes = s.scopes ∧
    (stateOf (x s)).current = s.current ∧ (stateOf (x s)).distances = s.distances) :
    Keeps adds x := by
  intro s
  obtain ⟨hscopes, hcurrent, hdistances⟩ := h s
  exact
    { current := hcurrent
      distances := hdistances
      size := Nat.le_of_eq (congrArg Scopes.size hscopes.symm)
      parent? := fun i _ => by rw [hscopes]
      bound := fun i x hx => by rwa [hscopes]
      names := fun i _ _ x hx => by rwa [hscopes] at hx }

theorem tick : Keeps adds tick :=
  of_same fun _ => ⟨rfl, rfl, rfl⟩

theorem readClock : Keeps adds readClock :=
  of_eq fun _ => rfl

theorem here : Keeps adds here :=
  of_eq fun _ => rfl

theorem newClosure (function : Function) (scope : ScopeId) :
    Keeps adds (newClosure function scope) :=
  of_same fun _ => ⟨rfl, rfl, rfl⟩

theorem printLine (text : String) : Keeps adds (printLine text) := by
  refine of_same fun s => ?_
  unfold Eval.printLine
  rcases s.sink.write (text.push '\n').toUTF8 with ⟨_ | _, sink⟩ <;> exact ⟨rfl, rfl, rfl⟩

theorem operate (op : Token) (result : Except RuntimeFault Value) :
    Keeps adds (operate op result) := by
  cases result with
  | ok v => exact pure v
  | error cause => exact fault cause op

theorem read (id : NodeId) (name : Token) : Keeps adds (read id name) := by
  refine of_eq fun s => ?_
  unfold Eval.read
  split <;> rfl

theorem assign (id : NodeId) (name : Token) (v : Value) : Keeps adds (assign id name v) := by
  refine weaken fun s => ?_
  unfold Eval.assign
  cases hholder : s.holder? id name.lexeme with
  | some holder => exact .assign v (State.binds_of_holder? hholder)
  | none => exact .refl _ s

theorem define (name : Token) (v : Value) : Keeps true (define name v) :=
  fun s => .define s s.current name.lexeme v

theorem newScope (parent? : Option ScopeId) (bindings : List (String × Value)) :
    Keeps adds (newScope parent? bindings) :=
  weaken fun s => (State.Kept.add s parent?).defineAll bindings

/-- What is evaluated in a new scope keeps the scopes that were there, the current one included. -/
theorem nested {parent? : Option ScopeId} {bindings : List (String × Value)}
    (hx : Keeps true x) :
    Keeps adds (Eval.newScope parent? bindings >>= fun inner => within inner x) := by
  refine weaken fun s => ?_
  have hkeeps : Keeps false (Eval.newScope parent? bindings) := newScope parent? bindings
  have hnew : s.Kept none (stateOf (Eval.newScope parent? bindings s)) := hkeeps s
  have h := hnew.fresh (hx { stateOf (Eval.newScope parent? bindings s) with
    current := s.scopes.size }).within
  show s.Kept none
    (stateOf (Eval.within s.scopes.size x (stateOf (Eval.newScope parent? bindings s))))
  unfold Eval.within
  generalize x { stateOf (Eval.newScope parent? bindings s) with
    current := s.scopes.size } = xs at h ⊢
  cases xs <;> exact h

end Keeps

end Eval

open Eval

/-- A statement that may stand where no names are to be added. -/
def Stmt.Adding (adds : Bool) (s : Stmt) : Prop :=
  adds = false → s.Proper ∧ s.declared? = none

theorem Stmt.adding_true (s : Stmt) : s.Adding true :=
  nofun

/-- With `n` steps no part of the evaluator changes more than it may. -/
structure EvaluatorKeeps (n : Nat) : Prop where
  evaluate (e : Expr) : Keeps false (evaluate n e)
  evaluateAll (es : List Expr) : Keeps false (evaluateAll n es)
  call (f : Callable) (vs : List Value) : Keeps false (call n f vs)
  evaluateOption (e? : Option Expr) : Keeps false (evaluateOption n e?)
  execute {adds : Bool} (s : Stmt) (hs : s.Adding adds) : Keeps adds (execute n s)
  repeatWhile {adds : Bool} (e : Expr) (s : Stmt) (hs : s.Adding adds) :
    Keeps adds (repeatWhile n e s)
  executeAll (ss : List Stmt) : Keeps true (executeAll n ss)

theorem evaluatorKeeps_zero : EvaluatorKeeps 0 where
  evaluate _ := .outOfFuel
  evaluateAll _ := .outOfFuel
  call _ _ := .outOfFuel
  evaluateOption _ := .outOfFuel
  execute _ _ := .outOfFuel
  repeatWhile _ _ _ := .outOfFuel
  executeAll _ := .outOfFuel

namespace EvaluatorKeeps

variable {n : Nat} (h : EvaluatorKeeps n)

include h

theorem evaluate_succ (e : Expr) : Keeps false (Lox.evaluate (n + 1) e) := by
  cases e with
  | literal value => exact .pure _
  | grouping inner => exact h.evaluate inner
  | unary operator operand => exact (h.evaluate operand).bind fun v => .operate operator _
  | binary left operator right =>
    exact (h.evaluate left).bind fun v => (h.evaluate right).bind fun w => .operate operator _
  | logical left operator right =>
    refine (h.evaluate left).bind fun v => ?_
    split
    · exact .pure v
    · exact h.evaluate right
  | read id name => exact .read id name
  | assign id name value =>
    exact (h.evaluate value).bind fun v => (Keeps.assign id name v).bind fun _ => .pure v
  | call callee paren arguments =>
    refine (h.evaluate callee).bind fun v => (h.evaluateAll arguments).bind fun vs => ?_
    cases v with
    | callable f =>
      dsimp only
      split
      · exact h.call f vs
      · exact .fault _ paren
    | _ => exact .fault _ paren

theorem evaluateAll_succ (es : List Expr) : Keeps false (Lox.evaluateAll (n + 1) es) := by
  cases es with
  | nil => exact .pure []
  | cons e es =>
    exact (h.evaluate e).bind fun v => (h.evaluateAll es).bind fun vs => .pure (v :: vs)

theorem call_succ (f : Callable) (vs : List Value) : Keeps false (Lox.call (n + 1) f vs) := by
  cases f with
  | clock identity => exact Keeps.tick.bind fun _ => .readClock
  | closure identity function scope =>
    refine Keeps.tick.bind fun _ => ?_
    rw [← bind_assoc]
    refine (Keeps.nested (h.executeAll function.body)).bind fun flow => ?_
    cases flow <;> exact .pure _

theorem evaluateOption_succ : ∀ e? : Option Expr, Keeps false (Lox.evaluateOption (n + 1) e?)
  | none => .pure Value.nil
  | some e => h.evaluate e

theorem execute_succ {adds : Bool} (s : Stmt) (hs : s.Adding adds) :
    Keeps adds (Lox.execute (n + 1) s) := by
  cases s with
  | expression value => exact (h.evaluate value).weaken.bind fun _ => .pure Flow.normal
  | print value =>
    exact (h.evaluate value).weaken.bind fun v =>
      (Keeps.printLine v.text).bind fun _ => .pure Flow.normal
  | var name initial =>
    cases adds with
    | false => cases (hs rfl).2
    | true =>
      exact (h.evaluateOption initial).weaken.bind fun v =>
        (Keeps.define name v).bind fun _ => .pure Flow.normal
  | block body => exact Keeps.here.bind fun scope => .nested (h.executeAll body)
  | branch condition onTrue onFalse =>
    refine (h.evaluate condition).weaken.bind fun v => ?_
    cases onFalse with
    | none =>
      have hTrue : onTrue.Adding adds := fun ha => ⟨(hs ha).1.2, (hs ha).1.1⟩
      split
      · exact h.execute onTrue hTrue
      · exact .pure Flow.normal
    | some onFalse =>
      have hTrue : onTrue.Adding adds := fun ha => ⟨(hs ha).1.1.2, (hs ha).1.1.1⟩
      have hFalse : onFalse.Adding adds := fun ha => ⟨(hs ha).1.2.2, (hs ha).1.2.1⟩
      split
      · exact h.execute onTrue hTrue
      · exact h.execute onFalse hFalse
  | loop condition body =>
    exact h.repeatWhile condition body fun ha => ⟨(hs ha).1.2, (hs ha).1.1⟩
  | function name params body =>
    cases adds with
    | false => cases (hs rfl).2
    | true =>
      exact Keeps.here.bind fun scope => (Keeps.newClosure _ scope).bind fun v =>
        (Keeps.define name v).bind fun _ => .pure Flow.normal
  | exit keyword value =>
    exact (h.evaluateOption value).weaken.bind fun v => .pure (Flow.returned v)

theorem repeatWhile_succ {adds : Bool} (e : Expr) (s : Stmt) (hs : s.Adding adds) :
    Keeps adds (Lox.repeatWhile (n + 1) e s) := by
  refine Keeps.tick.bind fun _ => (h.evaluate e).weaken.bind fun v => ?_
  split
  · refine (h.execute s hs).bind fun flow => ?_
    cases flow with
    | returned v => exact .pure _
    | normal => exact h.repeatWhile e s hs
  · exact .pure Flow.normal

theorem executeAll_succ (ss : List Stmt) : Keeps true (Lox.executeAll (n + 1) ss) := by
  cases ss with
  | nil => exact .pure Flow.normal
  | cons s ss =>
    refine (h.execute s s.adding_true).bind fun flow => ?_
    cases flow with
    | returned v => exact .pure _
    | normal => exact h.executeAll ss

theorem succ : EvaluatorKeeps (n + 1) where
  evaluate := h.evaluate_succ
  evaluateAll := h.evaluateAll_succ
  call := h.call_succ
  evaluateOption := h.evaluateOption_succ
  execute := h.execute_succ
  repeatWhile := h.repeatWhile_succ
  executeAll := h.executeAll_succ

end EvaluatorKeeps

theorem evaluatorKeeps : ∀ n : Nat, EvaluatorKeeps n
  | 0 => evaluatorKeeps_zero
  | n + 1 => (evaluatorKeeps n).succ

theorem executeProgram_keeps (n : Nat) (program : List Stmt) :
    Keeps true (executeProgram n program) := by
  induction program with
  | nil => exact .pure ()
  | cons s ss ih => exact ((evaluatorKeeps n).execute s s.adding_true).bind fun _ => ih

/-- Flushing the sink changes nothing else. -/
theorem stateOf_interpret (n : Nat) (program : List Stmt) (s : State) :
    stateOf (interpret n program s) = stateOf (executeProgram n program s) := by
  unfold interpret
  generalize executeProgram n program s = xs
  rcases xs with ⟨⟨⟩, s'⟩ | ⟨_ | _, s'⟩
  · dsimp only
    split <;> rfl
  · dsimp only
    split <;> rfl
  · rfl

theorem interpret_keeps (n : Nat) (program : List Stmt) : Keeps true (interpret n program) := by
  intro s
  rw [stateOf_interpret]
  exact executeProgram_keeps n program s

theorem State.resolve_current (s : State) (program : List Stmt) :
    (s.resolve program).2.current = s.current := by
  unfold State.resolve
  split <;> rfl

/-- A run comes back to the scope that it started in, refused or not. -/
theorem Session.run_current (n : Nat) (source : String) (S : Session) :
    (S.run n source).session.state.current = S.state.current := by
  unfold Session.run
  dsimp only
  split
  · rfl
  · rename_i program _
    have hresolve := S.state.resolve_current program
    split
    · rfl
    · split <;> rename_i hs <;> rw [hs] at hresolve
      · rw [Session.runProgram_session]
        exact (interpret_keeps n program _).current.trans hresolve
      · exact hresolve

theorem Session.after_current : ∀ (sources : List (Nat × String)) (S : Session),
    (S.after sources).state.current = S.state.current
  | [], _ => rfl
  | (n, source) :: sources, S =>
    (Session.after_current sources (S.run n source).session).trans (S.run_current n source)

/-- However an evaluation ends, the scope that was current before is so again, in a place as before,
and the distances are unchanged; so every session is in the global scope between its programs. -/
theorem current_restored (n : Nat) (s : State) :
    (∀ e, s.Restored (stateOf (evaluate n e s))) ∧
      (∀ f vs, s.Restored (stateOf (call n f vs s))) ∧
      (∀ t, s.Restored (stateOf (execute n t s))) ∧
      (∀ ts, s.Restored (stateOf (executeAll n ts s))) ∧
      (∀ scope ts, s.Restored (stateOf (within scope (executeAll n ts) s))) ∧
      (∀ program, s.Restored (stateOf (interpret n program s))) ∧
      ∀ clock sink sources,
        ((Session.initial clock sink).after sources).state.current = State.globals := by
  have h := evaluatorKeeps n
  refine ⟨fun e => (h.evaluate e s).toRestored, fun f vs => (h.call f vs s).toRestored,
    fun t => (h.execute t t.adding_true s).toRestored,
    fun ts => (h.executeAll ts s).toRestored, fun scope ts => ?_,
    fun program => (interpret_keeps n program s).toRestored,
    fun clock sink sources => Session.after_current sources _⟩
  have hin := (h.executeAll ts { s with current := scope }).within
  unfold within
  generalize executeAll n ts { s with current := scope } = xs at hin ⊢
  cases xs <;> exact hin.toRestored

end Lox
