import Lox.Proofs.Eval.Alike
import Lox.Proofs.Lexical.Scopes
import Lox.Proofs.Tree.Reline

/-!
# The same state on other lines

A state keeps tokens only in the functions that are bound in it. `State.reline φ` takes these to
other lines; nothing else of the state changes, and what the scopes answer changes only in that the
values do.
-/

namespace Lox

section Reline

variable (φ : Nat → Nat)

def Function.reline (f : Function) : Function :=
  ⟨f.name.reline φ, f.params.map (·.reline φ), Stmt.relineAll φ f.body⟩

def Callable.reline : Callable → Callable
  | .clock i => .clock i
  | .closure i f scope => .closure i (f.reline φ) scope

def Value.reline : Value → Value
  | .callable f => .callable (f.reline φ)
  | v => v

def Bindings.reline (b : Bindings) : Bindings :=
  b.map fun e => (e.1, e.2.reline φ)

def Scopes.reline (s : Scopes) : Scopes :=
  ⟨s.all.map fun scope => { scope with bindings := scope.bindings.reline φ }⟩

def State.reline (s : State) : State :=
  { s with scopes := s.scopes.reline φ }

end Reline

variable {φ ψ : Nat → Nat}

/-! ## Lines that are changed twice -/

section Comp

theorem Function.reline_id (f : Function) : f.reline id = f := by
  have hparams : f.params.map (·.reline id) = f.params := List.map_id _
  simp only [reline, hparams, Stmt.relineAll_id]
  rfl

theorem Function.reline_reline (f : Function) : (f.reline φ).reline ψ = f.reline (ψ ∘ φ) := by
  simp only [reline, Token.map_reline_reline, Stmt.relineAll_relineAll]
  rfl

theorem Value.reline_id (v : Value) : v.reline id = v := by
  cases v with
  | callable f =>
    cases f with
    | clock i => rfl
    | closure i f scope => simp only [reline, Callable.reline, f.reline_id]
  | _ => rfl

theorem Value.reline_reline (v : Value) : (v.reline φ).reline ψ = v.reline (ψ ∘ φ) := by
  cases v with
  | callable f =>
    cases f with
    | clock i => rfl
    | closure i f scope => simp only [reline, Callable.reline, f.reline_reline]
  | _ => rfl

theorem Bindings.reline_id (b : Bindings) : b.reline id = b := by
  simp [reline, Value.reline_id]

theorem Bindings.reline_reline (b : Bindings) : (b.reline φ).reline ψ = b.reline (ψ ∘ φ) := by
  simp [reline, Value.reline_reline]

theorem Scopes.reline_id (s : Scopes) : s.reline id = s := by
  simp [reline, Bindings.reline_id]

theorem Scopes.reline_reline (s : Scopes) : (s.reline φ).reline ψ = s.reline (ψ ∘ φ) := by
  simp [reline, Bindings.reline_reline, Function.comp_def]

theorem State.reline_id (s : State) : s.reline id = s := by
  simp only [reline, Scopes.reline_id]

end Comp

/-! ## Values -/

namespace Value

variable {v : Value}

theorem alike_reline (v : Value) : v.Alike (v.reline φ) := by
  cases v with
  | callable f =>
    cases f with
    | clock i => exact .refl _
    | closure i f scope =>
      have hname : f.name.lexeme = (f.reline φ).name.lexeme := rfl
      exact .closure i hname scope scope
  | _ => exact .refl _

theorem reline_of_not_isClosure (h : ¬ v.IsClosure) : v.reline φ = v := by
  cases v with
  | callable f =>
    cases f with
    | clock i => rfl
    | closure i f scope => exact absurd ⟨i, f, scope, rfl⟩ h
  | _ => rfl

end Value

theorem Callable.arity_reline (f : Callable) : (f.reline φ).arity = f.arity := by
  cases f with
  | clock i => rfl
  | closure i f scope => exact List.length_map _

theorem Function.lexemes_reline (f : Function) :
    (f.reline φ).params.map (·.lexeme) = f.params.map (·.lexeme) := by
  unfold reline
  rw [List.map_map]
  rfl

/-! ## Scopes -/

namespace Bindings

variable (b : Bindings) (x : String)

theorem get?_reline : (b.reline φ).get? x = (b.get? x).map (·.reline φ) := by
  induction b with
  | nil => rfl
  | cons e b ih =>
    simp only [get?, reline] at ih ⊢
    rw [List.map_cons, List.lookup_cons, List.lookup_cons]
    split
    · rfl
    · exact ih

theorem binds_reline : (b.reline φ).binds x = b.binds x := by
  simp [binds, get?_reline]

theorem set_reline (v : Value) : (b.reline φ).set x (v.reline φ) = (b.set x v).reline φ := by
  simp only [set, reline, List.filter_map, List.map_cons]
  rfl

end Bindings

namespace Scopes

variable (s : Scopes) (i : ScopeId) (x : String)

theorem size_reline : (s.reline φ).size = s.size := by
  simp [reline, size]

theorem parent?_reline : (s.reline φ).parent? i = s.parent? i := by
  simp only [parent?, reline, Array.getElem?_map]
  cases s.all[i]? <;> rfl

theorem bindings_reline : (s.reline φ).bindings i = (s.bindings i).reline φ := by
  simp only [bindings, reline, Array.getElem?_map]
  cases s.all[i]? <;> rfl

theorem binds_reline : (s.reline φ).binds i x = s.binds i x := by
  simp only [binds, bindings_reline, Bindings.binds_reline]

theorem holder?_reline : (s.reline φ).holder? i x = s.holder? i x := by
  unfold holder?
  rw [chain_congr s.parent?_reline s.size_reline, funext (s.binds_reline · x)]

theorem holderAt?_reline (distance : Nat) :
    (s.reline φ).holderAt? i distance x = s.holderAt? i distance x := by
  unfold holderAt?
  rw [ancestor?_congr s.parent?_reline, funext (s.binds_reline · x)]

theorem define_reline (v : Value) :
    (s.reline φ).define i x (v.reline φ) = (s.define i x v).reline φ := by
  simp only [define, reline, mk.injEq]
  refine Array.ext (by simp) fun j hj hj' => ?_
  simp only [Array.getElem_modify, Array.getElem_map]
  split
  · simp only [Bindings.set_reline]
  · rfl

theorem add_reline (parent? : Option ScopeId) :
    ((s.reline φ).add parent?).2 = (s.add parent?).2.reline φ := by
  simp [add, reline, Bindings.reline]

/-- Names that are bound one after the other. -/
theorem defineAll_reline (names : List String) (vs : List Value) :
    (names.zip (vs.map (·.reline φ))).foldl (fun scopes b => scopes.define i b.1 b.2)
        (s.reline φ) =
      ((names.zip vs).foldl (fun scopes b => scopes.define i b.1 b.2) s).reline φ := by
  induction names generalizing s vs with
  | nil => rfl
  | cons x names ih =>
    cases vs with
    | nil => rfl
    | cons v vs =>
      simp only [List.map_cons, List.zip_cons_cons, List.foldl_cons, define_reline]
      exact ih _ vs

end Scopes

end Lox
