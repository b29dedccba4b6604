import Lox.Proofs.Binding.Around
import Lox.Proofs.Session.Accepts

/-!
# No return leaves a program

A `return` ends the statements around it up to the call. In a program that keeps the rules every
`return` stands in a function, so outside of functions there is nothing to end: a statement of the
program ends normally, if it ends without an error (`State.admit_normal`). A run of a program keeps
nothing of how its statements end (`executeProgram`); `executeFlows` is the same run with what is
left out there.
-/

namespace Lox

variable {α : Type}

/-- An evaluation that does not return if it ends without an error. -/
def Eval.Falls (x : Eval Flow) : Prop :=
  ∀ s flow s', x s = .ok flow s' → flow = .normal

namespace Eval.Falls

variable {x : Eval Flow}

theorem normal : Falls (pure .normal) := by
  rintro s flow s' ⟨⟩
  rfl

theorem outOfFuel : Falls outOfFuel := by
  rintro s flow s' ⟨⟩

/-- What is evaluated before does not count: a value that a call returned is no longer a `Flow`. -/
theorem after (y : Eval α) {f : α → Eval Flow} (hf : ∀ a, Falls (f a)) : Falls (y >>= f) := by
  intro s flow s' h
  obtain ⟨a, s₁, -, h⟩ := bind_eq_ok.1 h
  exact hf a s₁ flow s' h

/-- Behind a statement that falls through only the way of a normal end is left. -/
theorem andThen {f : Flow → Eval Flow} (hx : Falls x) (hf : Falls (f .normal)) :
    Falls (x >>= f) := by
  intro s flow s' h
  obtain ⟨first, s₁, hfirst, h⟩ := bind_eq_ok.1 h
  obtain rfl := hx s first s₁ hfirst
  exact hf s₁ flow s' h

theorem within {scope : ScopeId} (hx : Falls x) : Falls (within scope x) := by
  intro s flow s' h
  unfold Eval.within at h
  cases hy : x { s with current := scope } with
  | error stop s₁ =>
    rw [hy] at h
    cases h
  | ok first s₁ =>
    rw [hy] at h
    cases h
    exact hx _ _ s₁ hy

end Eval.Falls

open Eval

theorem Surroundings.inFunction_after (here : Surroundings) (s : Stmt) :
    (here.after s).inFunction = here.inFunction := by
  unfold after
  split
  · exact here.inFunction_declare _
  · rfl

/-- Outside of functions, statements that keep the rules fall through, with `n` steps. -/
structure FallsStep (n : Nat) : Prop where
  execute : ∀ {here : Surroundings} (s : Stmt), here.inFunction = false → s.violations here = [] →
    Falls (execute n s)
  repeatWhile : ∀ {here : Surroundings} (e : Expr) (s : Stmt), here.inFunction = false →
    s.violations here = [] → Falls (repeatWhile n e s)
  executeAll : ∀ {here : Surroundings} (ss : List Stmt), here.inFunction = false →
    Stmt.violationsOfAll here ss = [] → Falls (executeAll n ss)

theorem fallsStep_zero : FallsStep 0 where
  execute _ _ _ := .outOfFuel
  repeatWhile _ _ _ _ := .outOfFuel
  executeAll _ _ _ := .outOfFuel

namespace FallsStep

variable {n : Nat} {here : Surroundings} (ih : FallsStep n) (hf : here.inFunction = false)

include ih hf

theorem execute_succ (s : Stmt) (hv : s.violations here = []) :
    Falls (Lox.execute (n + 1) s) := by
  cases s with
  | expression value => exact .after _ fun _ => .normal
  | print value => exact .after _ fun v => .after _ fun _ => .normal
  | var name initial => exact .after _ fun v => .after _ fun _ => .normal
  | function name params body =>
    exact .after _ fun scope => .after _ fun v => .after _ fun _ => .normal
  | block body =>
    have hinner : (here.enter []).inFunction = false := hf
    have hbody := ih.executeAll body hinner hv
    exact .after _ fun scope => .after _ fun inner => hbody.within
  | branch condition onTrue onFalse =>
    refine .after _ fun v => ?_
    cases onFalse with
    | none =>
      split
      · exact ih.execute onTrue hf hv
      · exact .normal
    | some onFalse =>
      simp only [Stmt.violations, List.append_eq_nil_iff] at hv
      split
      · exact ih.execute onTrue hf hv.1
      · exact ih.execute onFalse hf hv.2
  | loop condition body => exact ih.repeatWhile condition body hf hv
  | exit keyword value =>
    -- The one statement that returns breaks a rule here.
    simp [Stmt.violations, hf] at hv

theorem repeatWhile_succ (e : Expr) (s : Stmt) (hv : s.violations here = []) :
    Falls (Lox.repeatWhile (n + 1) e s) := by
  refine .after _ fun _ => .after _ fun v => ?_
  split
  · exact (ih.execute s hf hv).andThen (ih.repeatWhile e s hf hv)
  · exact .normal

theorem executeAll_succ (ss : List Stmt) (hv : Stmt.violationsOfAll here ss = []) :
    Falls (Lox.executeAll (n + 1) ss) := by
  cases ss with
  | nil => exact .normal
  | cons s ss =>
    obtain ⟨hs, hss⟩ := List.append_eq_nil_iff.1 hv
    exact (ih.execute s hf hs).andThen
      (ih.executeAll ss ((here.inFunction_after s).trans hf) hss)

end FallsStep

theorem fallsStep : ∀ n : Nat, FallsStep n
  | 0 => fallsStep_zero
  | n + 1 => by
    have ih := fallsStep n
    exact
      { execute := fun s hf => ih.execute_succ hf s
        repeatWhile := fun e s hf => ih.repeatWhile_succ hf e s
        executeAll := fun ss hf => ih.executeAll_succ hf ss }

/-- The statements of a program that keeps the rules fall through. -/
theorem Stmt.falls_of_violations (n : Nat) : ∀ (ss : List Stmt) {here : Surroundings},
    here.inFunction = false → violationsOfAll here ss = [] → ∀ s ∈ ss, Falls (execute n s)
  | [], _, _, _ => List.forall_mem_nil _
  | s :: ss, here, hf, hv => by
    obtain ⟨hs, hss⟩ := List.append_eq_nil_iff.1 hv
    refine List.forall_mem_cons.2 ⟨(fallsStep n).execute s hf hs, ?_⟩
    exact falls_of_violations n ss ((here.inFunction_after s).trans hf) hss

/-- Runs the statements of a program, and keeps how each of them ends. -/
def executeFlows (n : Nat) : List Stmt → Eval (List Flow)
  | [] => return []
  | s :: ss => do
    let flow ← execute n s
    let flows ← executeFlows n ss
    return flow :: flows

theorem executeProgram_eq_flows (n : Nat) (program : List Stmt) :
    executeProgram n program = executeFlows n program >>= fun _ => pure () := by
  induction program with
  | nil => rfl
  | cons s ss ih => simp only [executeProgram, executeFlows, ih, bind_assoc, pure_bind]

theorem executeFlows_normal {n : Nat} : ∀ {program : List Stmt} {s s' : State} {flows : List Flow},
    (∀ t ∈ program, Falls (execute n t)) → executeFlows n program s = .ok flows s' →
    ∀ flow ∈ flows, flow = .normal
  | [], s, s', flows, _, h => by
    cases h
    exact List.forall_mem_nil _
  | t :: ts, s, s', flows, ht, h => by
    obtain ⟨ht, hts⟩ := List.forall_mem_cons.1 ht
    obtain ⟨first, s₁, hfirst, h⟩ := bind_eq_ok.1 h
    obtain ⟨rest, s₂, hrest, h⟩ := bind_eq_ok.1 h
    cases h
    exact List.forall_mem_cons.2 ⟨ht s first s₁ hfirst, executeFlows_normal hts hrest⟩

/-- Every statement of an accepted program ends normally or in an error, in whatever state and
whichever functions it calls; so a run of the program, which keeps nothing of how its statements
end, leaves out no value that one of them returned. -/
theorem State.admit_normal {s ready : State} {program : List Stmt}
    (h : s.admit program = .ok ready) (n : Nat) (s' : State) :
    (∀ t ∈ program, ∀ flow s'', execute n t s' = .ok flow s'' → flow = .normal) ∧
      executeProgram n program s' = (executeFlows n program >>= fun _ => pure ()) s' ∧
      ∀ flows s'', executeFlows n program s' = .ok flows s'' → ∀ flow ∈ flows, flow = .normal := by
  have hfalls : ∀ t ∈ program, Falls (execute n t) :=
    Stmt.falls_of_violations n program rfl (State.admit_eq_ok.1 h).1
  refine ⟨fun t ht => hfalls t ht s', ?_, fun flows s'' hflows => ?_⟩
  · rw [executeProgram_eq_flows]
  · exact executeFlows_normal hfalls hflows

/-- A call of a function that an earlier run left, which returns out of a loop. -/
theorem State.admit_normal_loop :
    let source := "fun f(x) \x7b while (true) \x7b if (x) return x; \x7d \x7d"
    let S := ((Session.initial Float.ofNat .unbounded).run 9 source).session
    let call := Expr.call (.read 9 ⟨.identifier, "f", 1⟩) ⟨.symbol .rightParen, ")", 1⟩
      [.literal (.bool true)]
    S.state.admit [.expression call] = .ok S.state ∧
      ∃ flow s, execute 20 (.expression call) S.state = .ok flow s ∧ flow = .normal := by
  intro source S call
  have hready : S.state.admit [.expression call] = .ok S.state := State.admit_eq_ok.2 ⟨rfl, rfl⟩
  have hend : (execute 20 (.expression call) S.state matches .ok _ _) = true := by decide +kernel
  cases hrun : execute 20 (.expression call) S.state with
  | error stop s =>
    rw [hrun] at hend
    cases hend
  | ok flow s =>
    refine ⟨hready, flow, s, rfl, ?_⟩
    exact (State.admit_normal hready 20 S.state).1 _ (List.mem_singleton_self _) flow s hrun

end Lox
