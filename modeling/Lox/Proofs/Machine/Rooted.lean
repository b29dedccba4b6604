import Lox.Proofs.Machine.Step
import Lox.Proofs.Scope.Rooted

/-!
# The scopes that a machine refers to

A machine refers to the scope that is current, to those that will be current again, and to the
scopes that functions keep, be they bound somewhere or on their way (`Machine.Refers`). None of them
is one that does not exist, and all scopes lie in the global one (`Machine.Rooted`). Values and
scopes refer to each other in circles, so it is the number of scopes that bounds both: a scope is
added inside one that exists, and a function keeps the scope that is current. So a step keeps the
machine rooted (`Machine.Rooted.step?`), and with it any number of steps
(`Machine.Rooted.reaches`).
-/

namespace Lox

variable {α : Type}

/-- The scope that a function keeps. -/
def Value.scope? : Value → Option ScopeId
  | .callable (.closure _ _ scope) => some scope
  | _ => none

namespace Frame

/-- The values that wait for others. -/
def held : Frame → List Value
  | binary v _ => [v]
  | argument vs _ => vs
  | apply v _ => [v]
  | _ => []

/-- The scope that is going to be current again. -/
def caller? : Frame → Option ScopeId
  | scope caller => some caller
  | _ => none

end Frame

/-- The values on their way. -/
def Control.held : Control → List Value
  | evaluateAll vs _ => vs
  | call f vs => .callable f :: vs
  | value v => [v]
  | values vs => vs
  | flow (.returned v) => [v]
  | _ => []

/-- A scope that is current, waits to be so, or is kept by a function. -/
inductive Machine.Refers (m : Machine) : ScopeId → Prop where
  | current : m.Refers m.state.current
  | caller {frame : Frame} {i : ScopeId} (hf : frame ∈ m.stack) (hi : frame.caller? = some i) :
    m.Refers i
  | bound {j i : ScopeId} {x : String} {v : Value}
    (hv : (m.state.scopes.bindings j).get? x = some v) (hi : v.scope? = some i) : m.Refers i
  | atHand {v : Value} {i : ScopeId} (hv : v ∈ m.control.held) (hi : v.scope? = some i) :
    m.Refers i
  | waiting {frame : Frame} {v : Value} {i : ScopeId} (hf : frame ∈ m.stack)
    (hv : v ∈ frame.held) (hi : v.scope? = some i) : m.Refers i

/-- A value that keeps at most one of the first `n` scopes. -/
def Value.Below (n : Nat) (v : Value) : Prop :=
  ∀ i, v.scope? = some i → i < n

def Control.Below (n : Nat) (c : Control) : Prop :=
  ∀ v ∈ c.held, v.Below n

structure Frame.Below (n : Nat) (f : Frame) : Prop where
  held : ∀ v ∈ f.held, v.Below n
  caller? : ∀ i, f.caller? = some i → i < n

structure State.Rooted (s : State) : Prop where
  scopes : s.scopes.Rooted
  current : s.current < s.scopes.size
  bound : s.scopes.Holds (Value.Below s.scopes.size)

structure Machine.Rooted (m : Machine) : Prop where
  state : m.state.Rooted
  control : m.control.Below m.state.scopes.size
  stack : ∀ frame ∈ m.stack, frame.Below m.state.scopes.size

/-- A rooted state with all scopes of another one. -/
structure State.Later (s t : State) : Prop where
  rooted : t.Rooted
  scopes : s.scopes.Extends t.scopes

theorem Machine.Rooted.lt_size {m : Machine} (h : m.Rooted) {i : ScopeId} (hi : m.Refers i) :
    i < m.state.scopes.size := by
  cases hi with
  | current => exact h.state.current
  | caller hf hi => exact (h.stack _ hf).caller? i hi
  | bound hv hi => exact h.state.bound _ _ _ hv i hi
  | atHand hv hi => exact h.control _ hv i hi
  | waiting hf hv hi => exact (h.stack _ hf).held _ hv i hi

section Below

variable {n n' : Nat} {v : Value} {f : Frame}

theorem Value.below_of_scope? (h : v.scope? = none) : v.Below n := by
  intro i hi
  cases h.symm.trans hi

theorem Value.Below.mono (h : v.Below n) (hle : n ≤ n') : v.Below n' :=
  fun i hi => Nat.lt_of_lt_of_le (h i hi) hle

theorem Frame.Below.mono (h : f.Below n) (hle : n ≤ n') : f.Below n' where
  held v hv := (h.held v hv).mono hle
  caller? i hi := Nat.lt_of_lt_of_le (h.caller? i hi) hle

/-- Frames that hold neither values nor scopes. -/
theorem Frame.below_of_empty (hv : f.held = []) (hc : f.caller? = none) : f.Below n where
  held := hv ▸ List.forall_mem_nil _
  caller? i hi := by cases hc.symm.trans hi

theorem Control.below_value (h : v.Below n) : (Control.value v).Below n :=
  List.forall_mem_singleton.2 h

theorem Control.below_of_empty {c : Control} (h : c.held = []) : c.Below n := by
  unfold Control.Below
  rw [h]
  exact List.forall_mem_nil _

/-- What operators give is no function. -/
theorem Value.scope?_of_unary {u : Value} {operator : Token}
    (h : v.unary operator = .ok u) : u.scope? = none := by
  unfold Value.unary at h
  split at h
  · split at h <;> cases h
    rfl
  · cases h
    rfl
  · cases h

theorem Value.scope?_of_binary {w u : Value} {operator : Token}
    (h : v.binary operator w = .ok u) : u.scope? = none := by
  unfold Value.binary at h
  split at h
  · unfold Value.add at h
    split at h <;> cases h <;> rfl
  · cases h
    rfl
  · cases h
    rfl
  · split at h
    · unfold Value.arithmetic at h
      split at h <;> cases h <;> rfl
    · cases h

end Below

/-! ## Operations -/

namespace State

variable {s t : State} {v : Value} {i p : ScopeId}

/-- However an operation ends, the state is rooted and has all scopes of the one before. -/
def LeadsTo (s : State) (P : Nat → α → Prop) : EStateM.Result Stop State α → Prop
  | .ok a t => s.Later t ∧ P t.scopes.size a
  | .error _ t => s.Later t

namespace Later

theorem refl (h : s.Rooted) : s.Later s :=
  ⟨h, .refl _⟩

theorem trans {u : State} (h : s.Later t) (h' : t.Later u) : s.Later u :=
  ⟨h'.rooted, h.scopes.trans h'.scopes⟩

/-- A change of what has nothing to do with scopes. -/
theorem of_same (h : s.Rooted) (hscopes : t.scopes = s.scopes) (hcurrent : t.current = s.current) :
    s.Later t where
  rooted := by
    refine ⟨?_, ?_, ?_⟩ <;> rw [hscopes]
    · exact h.scopes
    · rw [hcurrent]
      exact h.current
    · exact h.bound
  scopes := hscopes ▸ .refl _

theorem define (h : s.Rooted) (hv : v.Below s.scopes.size) (i : ScopeId) (x : String) :
    s.Later { s with scopes := s.scopes.define i x v } where
  rooted :=
    { scopes := h.scopes.define
      current := Scopes.size_define.symm ▸ h.current
      bound := Scopes.size_define.symm ▸ h.bound.define hv i x }
  scopes := .define _ i x v

theorem add (h : s.Rooted) (hp : p < s.scopes.size) :
    s.Later { s with scopes := (s.scopes.add (some p)).2 } where
  rooted :=
    { scopes := h.scopes.add hp
      current := Scopes.size_add.symm ▸ Nat.lt_succ_of_lt h.current
      bound := (h.bound.add _).imp fun _ hv =>
        hv.mono (Scopes.size_add.symm ▸ Nat.le_succ _) }
  scopes := .add _ _

theorem defineAll (i : ScopeId) (bindings : List (String × Value)) (h : s.Rooted)
    (hb : ∀ b ∈ bindings, b.2.Below s.scopes.size) : s.Later { s with
      scopes := bindings.foldl (fun scopes b => scopes.define i b.1 b.2) s.scopes } := by
  induction bindings generalizing s with
  | nil => exact .refl h
  | cons b bindings ih =>
    obtain ⟨hv, hb⟩ := List.forall_mem_cons.1 hb
    have hfirst := define h hv i b.1
    refine hfirst.trans (ih hfirst.rooted ?_)
    rw [Scopes.size_define]
    exact hb

end Later

theorem LeadsTo.of_later {P : Nat → α → Prop} {r : EStateM.Result Stop State α}
    (hr : t.LeadsTo P r) (h : s.Later t) : s.LeadsTo P r := by
  cases r with
  | ok a u => exact ⟨h.trans hr.1, hr.2⟩
  | error stop u => exact h.trans hr

namespace Rooted

variable (h : s.Rooted)

include h

theorem operate (operator : Token) {r : Except RuntimeFault Value}
    (hr : ∀ v, r = .ok v → v.scope? = none) :
    s.LeadsTo Value.Below (Eval.operate operator r s) := by
  cases r with
  | ok v => exact ⟨.refl h, Value.below_of_scope? (hr v rfl)⟩
  | error cause => exact .refl h

theorem read (id : NodeId) (name : Token) :
    s.LeadsTo Value.Below (Eval.read id name s) := by
  unfold Eval.read
  split
  · rename_i v hv
    obtain ⟨holder, -, hv⟩ := Option.bind_eq_some_iff.1 hv
    exact ⟨.refl h, h.bound _ _ _ hv⟩
  · exact .refl h

theorem assign (id : NodeId) (name : Token) (hv : v.Below s.scopes.size) :
    s.LeadsTo (fun _ _ => True) (Eval.assign id name v s) := by
  unfold Eval.assign
  split
  · exact ⟨.define h hv _ _, trivial⟩
  · exact .refl h

theorem newScope (hp : p < s.scopes.size) {bindings : List (String × Value)}
    (hb : ∀ b ∈ bindings, b.2.Below s.scopes.size) :
    s.LeadsTo (fun n inner => inner < n) (Eval.newScope (some p) bindings s) := by
  have hadd := Later.add h hp
  have hdefine := Later.defineAll s.scopes.size bindings hadd.rooted fun b hmem =>
    (hb b hmem).mono hadd.scopes.size
  refine ⟨hadd.trans hdefine, Nat.lt_of_lt_of_le ?_ hdefine.scopes.size⟩
  rw [Scopes.size_add]
  exact Nat.lt_succ_self _

theorem printLine (text : String) : s.LeadsTo (fun _ _ => True) (Eval.printLine text s) := by
  unfold Eval.printLine
  split
  · exact ⟨.of_same h rfl rfl, trivial⟩
  · exact .of_same h rfl rfl

end Rooted

end State

/-! ## Steps -/

namespace Machine

variable {s : State} {stack : List Frame} {m m' : Machine} {v : Value}

/-- A rooted machine, with all scopes of a state. -/
structure After (s : State) (m : Machine) : Prop where
  rooted : m.Rooted
  scopes : s.scopes.Extends m.state.scopes

/-- The frames of a stack refer to scopes of a state. -/
abbrev Holds (s : State) (stack : List Frame) : Prop :=
  ∀ frame ∈ stack, frame.Below s.scopes.size

theorem Holds.later {t : State} (h : Holds s stack) (ht : s.Later t) : Holds t stack :=
  fun frame hf => (h frame hf).mono ht.scopes.size

theorem Holds.push {frame : Frame} (h : Holds s stack) (hf : frame.Below s.scopes.size) :
    Holds s (frame :: stack) :=
  List.forall_mem_cons.2 ⟨hf, h⟩

namespace After

theorem of_same {c : Control} (hs : s.Rooted) (hstack : Holds s stack)
    (hc : c.Below s.scopes.size) : After s ⟨c, stack, s⟩ :=
  ⟨⟨hs, hc, hstack⟩, .refl _⟩

theorem of_later {c : Control} {t : State} (h : s.Later t) (hstack : Holds s stack)
    (hc : c.Below t.scopes.size) : After s ⟨c, stack, t⟩ :=
  ⟨⟨h.rooted, hc, hstack.later h⟩, h.scopes⟩

theorem resume {P : Nat → α → Prop} {next : α → Control} {r : EStateM.Result Stop State α}
    (hr : s.LeadsTo P r) (hstack : Holds s stack)
    (hnext : ∀ n a, s.scopes.size ≤ n → P n a → (next a).Below n) :
    After s (resume next stack r) := by
  cases r with
  | ok a t => exact .of_later hr.1 hstack (hnext _ a hr.1.scopes.size hr.2)
  | error stop t => exact .of_later hr hstack (Control.below_of_empty rfl)

theorem enter {opening : Eval ScopeId} {body : List Stmt}
    (hopening : s.LeadsTo (fun n inner => inner < n) (opening s)) (hstack : Holds s stack) :
    After s (enter opening body stack s) := by
  unfold Machine.enter
  cases hr : opening s with
  | error stop t =>
    rw [hr] at hopening
    exact .of_later hopening hstack (Control.below_of_empty rfl)
  | ok inner t =>
    rw [hr] at hopening
    obtain ⟨ht, hinner⟩ := hopening
    have hcaller : (Frame.scope t.current).Below t.scopes.size :=
      ⟨List.forall_mem_nil _, fun i hi => Option.some.inj hi ▸ ht.rooted.current⟩
    exact ⟨⟨⟨ht.rooted.scopes, hinner, ht.rooted.bound⟩, Control.below_of_empty rfl,
      (hstack.later ht).push hcaller⟩, ht.scopes⟩

end After

namespace Rooted

variable (hs : s.Rooted) (hstack : Holds s stack)

include hs hstack

theorem evaluate (e : Expr) : After s (evaluate stack s e) := by
  have hpush {frame : Frame} (e : Expr) (hv : frame.held = []) (hc : frame.caller? = none) :
      After s ⟨.evaluate e, frame :: stack, s⟩ :=
    .of_same hs (hstack.push (Frame.below_of_empty hv hc)) (Control.below_of_empty rfl)
  cases e with
  | literal value =>
    refine .of_same hs hstack (Control.below_value (Value.below_of_scope? ?_))
    cases value <;> rfl
  | grouping inner => exact .of_same hs hstack (Control.below_of_empty rfl)
  | unary operator operand => exact hpush operand rfl rfl
  | binary left operator right => exact hpush left rfl rfl
  | logical left operator right => exact hpush left rfl rfl
  | read id name => exact .resume (hs.read id name) hstack fun _ _ _ => Control.below_value
  | assign id name value => exact hpush value rfl rfl
  | call callee paren arguments => exact hpush callee rfl rfl

theorem execute (statement : Stmt) : After s (execute stack s statement) := by
  have hpush {frame : Frame} (c : Control) (hc : c.held = []) (hv : frame.held = [])
      (hcaller : frame.caller? = none) : After s ⟨c, frame :: stack, s⟩ :=
    .of_same hs (hstack.push (Frame.below_of_empty hv hcaller)) (Control.below_of_empty hc)
  cases statement with
  | expression value => exact hpush _ rfl rfl rfl
  | print value => exact hpush _ rfl rfl rfl
  | var name initial => exact hpush _ rfl rfl rfl
  | block body => exact .enter (hs.newScope hs.current (List.forall_mem_nil _)) hstack
  | branch condition onTrue onFalse => exact hpush _ rfl rfl rfl
  | loop condition body => exact .of_same hs hstack (Control.below_of_empty rfl)
  | function name params body =>
    refine .of_later (.of_same hs rfl rfl) (hstack.push (Frame.below_of_empty rfl rfl)) ?_
    exact Control.below_value fun i hi => Option.some.inj hi ▸ hs.current
  | exit keyword value => exact hpush _ rfl rfl rfl

theorem call {f : Callable} {arguments : List Value}
    (hf : (Control.call f arguments).Below s.scopes.size) :
    After s (call arguments stack s f) := by
  obtain ⟨hf, harguments⟩ := List.forall_mem_cons.1 hf
  have htick : s.Later { s with ticks := s.ticks + 1 } := .of_same hs rfl rfl
  cases f with
  | clock identity =>
    exact .of_later htick hstack (Control.below_value (Value.below_of_scope? rfl))
  | closure identity function scope =>
    have hbindings : ∀ b ∈ (function.params.map (·.lexeme)).zip arguments,
        b.2.Below s.scopes.size := fun b hb => harguments b.2 (List.of_mem_zip hb).2
    have hopening := (htick.rooted.newScope (hf scope rfl) hbindings).of_later htick
    have hresult : Frame.result.Below s.scopes.size := Frame.below_of_empty rfl rfl
    unfold Machine.call
    exact .enter hopening (hstack.push hresult)

theorem apply {callee : Value} {vs : List Value} (hcallee : callee.Below s.scopes.size)
    (hvs : (Control.values vs).Below s.scopes.size) (paren : Token) :
    After s (apply callee paren vs stack s) := by
  have hfault (cause : RuntimeFault) :
      After s (resume .value stack (Eval.fault cause paren s)) :=
    .of_same hs hstack (Control.below_of_empty rfl)
  cases callee with
  | callable f =>
    unfold Machine.apply
    dsimp only
    split
    · exact .of_same hs hstack (List.forall_mem_cons.2 ⟨hcallee, hvs⟩)
    · exact hfault _
  | _ => exact hfault _

theorem take {frame : Frame} (hframe : frame.Below s.scopes.size) (hv : v.Below s.scopes.size)
    (hm : take v stack s frame = some m) : After s m := by
  have hempty (c : Control) (hc : c.held = []) : After s ⟨c, stack, s⟩ :=
    .of_same hs hstack (Control.below_of_empty hc)
  cases frame <;> simp only [Machine.take, Option.some.injEq, reduceCtorEq] at hm
  case unary operator =>
    subst hm
    exact .resume (hs.operate operator fun _ => Value.scope?_of_unary) hstack
      fun _ _ _ => Control.below_value
  case left operator right =>
    subst hm
    refine .of_same hs (hstack.push ⟨?_, nofun⟩) (Control.below_of_empty rfl)
    exact List.forall_mem_singleton.2 hv
  case binary left operator =>
    subst hm
    exact .resume (hs.operate operator fun _ => Value.scope?_of_binary) hstack
      fun _ _ _ => Control.below_value
  case decide operator right =>
    split at hm <;> cases hm
    · exact .of_same hs hstack (Control.below_value hv)
    · exact hempty _ rfl
  case assign id name =>
    subst hm
    exact .resume (hs.assign id name hv) hstack
      fun _ _ hle _ => Control.below_value (hv.mono hle)
  case callee paren arguments =>
    subst hm
    refine .of_same hs (hstack.push ⟨?_, nofun⟩) (List.forall_mem_nil _)
    exact List.forall_mem_singleton.2 hv
  case argument before rest =>
    subst hm
    exact .of_same hs hstack
      (List.forall_mem_append.2 ⟨hframe.held, List.forall_mem_singleton.2 hv⟩)
  case expression =>
    subst hm
    exact hempty _ rfl
  case print =>
    subst hm
    exact .resume (hs.printLine v.text) hstack fun _ _ _ _ => Control.below_of_empty rfl
  case var name =>
    subst hm
    exact .of_later (.define hs hv s.current name.lexeme) hstack (Control.below_of_empty rfl)
  case branch onTrue onFalse =>
    split at hm
    · cases hm
      exact hempty _ rfl
    · split at hm <;> cases hm <;> exact hempty _ rfl
  case exit =>
    subst hm
    exact .of_same hs hstack (List.forall_mem_singleton.2 hv)
  case test condition body =>
    split at hm <;> cases hm
    · exact .of_same hs (hstack.push (Frame.below_of_empty rfl rfl)) (Control.below_of_empty rfl)
    · exact hempty _ rfl

/-- Another scope is current, one that exists. -/
theorem leave {frame : Frame} {c : Control} (hframe : frame.Below s.scopes.size)
    (hc : c.Below s.scopes.size) : After s ⟨c, stack, frame.leave s⟩ := by
  cases frame with
  | scope caller =>
    exact ⟨⟨⟨hs.scopes, hframe.caller? caller rfl, hs.bound⟩, hc, hstack⟩, .refl _⟩
  | _ => exact .of_same hs hstack hc

theorem follow {frame : Frame} {f : Flow} (hframe : frame.Below s.scopes.size)
    (hf : (Control.flow f).Below s.scopes.size) (hm : follow stack s f frame = some m) :
    After s m := by
  have hempty (c : Control) (hc : c.held = []) : After s ⟨c, stack, s⟩ :=
    .of_same hs hstack (Control.below_of_empty hc)
  cases frame <;> cases f <;> simp only [Machine.follow, Option.some.injEq, reduceCtorEq] at hm <;>
    subst hm
  case scope.normal caller => exact leave hs hstack hframe hf
  case scope.returned caller v => exact leave hs hstack hframe hf
  case result.normal => exact .of_same hs hstack (Control.below_value (Value.below_of_scope? rfl))
  case result.returned v => exact .of_same hs hstack hf
  case round.returned condition body v => exact .of_same hs hstack hf
  case rest.returned ss v => exact .of_same hs hstack hf
  all_goals exact hempty _ rfl

omit hs hstack

/-- A step keeps a machine rooted and its scopes where they are. -/
theorem step? (h : m.Rooted) (hm : m.step? = some m') : After m.state m' := by
  obtain ⟨c, stack, s⟩ := m
  obtain ⟨hs, hc, hstack⟩ := h
  have hempty (c : Control) (hc : c.held = []) : After s ⟨c, stack, s⟩ :=
    .of_same hs hstack (Control.below_of_empty hc)
  have hpush (c : Control) (frame : Frame) (hc : c.held = []) (hv : frame.held = [])
      (hcaller : frame.caller? = none) : After s ⟨c, frame :: stack, s⟩ :=
    .of_same hs (Holds.push hstack (Frame.below_of_empty hv hcaller)) (Control.below_of_empty hc)
  cases c with
  | evaluate e =>
    obtain rfl := Option.some.inj hm
    exact evaluate hs hstack e
  | evaluateAll before es =>
    cases es <;> obtain rfl := Option.some.inj hm
    · exact .of_same hs hstack hc
    · exact .of_same hs (Holds.push hstack ⟨hc, nofun⟩) (Control.below_of_empty rfl)
  | evaluateOption e? =>
    cases e? <;> obtain rfl := Option.some.inj hm
    · exact .of_same hs hstack (Control.below_value (Value.below_of_scope? rfl))
    · exact hempty _ rfl
  | call f vs =>
    obtain rfl := Option.some.inj hm
    exact call hs hstack hc
  | execute statement =>
    obtain rfl := Option.some.inj hm
    exact execute hs hstack statement
  | repeatWhile condition body =>
    obtain rfl := Option.some.inj hm
    exact .of_later (.of_same hs rfl rfl) (Holds.push hstack (Frame.below_of_empty rfl rfl))
      (Control.below_of_empty rfl)
  | executeAll ss =>
    cases ss <;> obtain rfl := Option.some.inj hm
    · exact hempty _ rfl
    · exact hpush _ _ rfl rfl rfl
  | executeProgram ss =>
    cases ss with
    | nil => cases hm
    | cons statement ss =>
      obtain rfl := Option.some.inj hm
      exact hpush _ _ rfl rfl rfl
  | value v =>
    cases stack with
    | nil => cases hm
    | cons frame stack =>
      obtain ⟨hframe, hstack⟩ := List.forall_mem_cons.1 hstack
      exact take hs hstack hframe (List.forall_mem_singleton.1 hc) hm
  | values vs =>
    cases stack with
    | nil => cases hm
    | cons frame stack =>
      obtain ⟨hframe, hstack⟩ := List.forall_mem_cons.1 hstack
      cases frame with
      | apply callee paren =>
        obtain rfl := Option.some.inj hm
        exact apply hs hstack (List.forall_mem_singleton.1 hframe.held) hc paren
      | _ => cases hm
  | flow f =>
    cases stack with
    | nil => cases hm
    | cons frame stack =>
      obtain ⟨hframe, hstack⟩ := List.forall_mem_cons.1 hstack
      exact follow hs hstack hframe hc hm
  | stopped stop =>
    cases stack with
    | nil => cases hm
    | cons frame stack =>
      obtain ⟨hframe, hstack⟩ := List.forall_mem_cons.1 hstack
      obtain rfl := Option.some.inj hm
      exact leave hs hstack hframe hc

/-- So do any number of steps. -/
theorem reaches (h : m.Rooted) (hm : m.Reaches m') : After m.state m' := by
  obtain ⟨n, hsteps⟩ := hm
  induction hsteps with
  | refl m => exact ⟨h, .refl _⟩
  | head hstep _ ih =>
    have hfirst := h.step? hstep
    have hrest := ih hfirst.rooted
    exact ⟨hrest.rooted, hfirst.scopes.trans hrest.scopes⟩

end Rooted

end Machine

end Lox
