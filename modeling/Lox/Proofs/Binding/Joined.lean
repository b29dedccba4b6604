import Lox.Proofs.Binding.Recorded
import Lox.Proofs.Binding.Violations
import Lox.Proofs.Tree.Shift

/-!
# The scope analysis of joined programs

The scope analysis looks at the names of tokens and not at their lines, so a program further down
has the same references and breaks the same rules (`references_shift`, `violations_shift`). Of two
programs one behind the other, the second one is analysed as by itself where the names that the
first one declares are global names already (`violations_append`, `references_append`).
-/

namespace Lox

variable {σ : Shift}

/-! ## Programs further down -/

def Reference.shift (σ : Shift) (r : Reference) : Reference :=
  ⟨r.id + σ.ids, r.name.down σ.lines, r.distance?⟩

def BindingError.down (k : Nat) (e : BindingError) : BindingError :=
  { e with token := e.token.down k }

mutual

theorem Expr.references_shift (names : Names) :
    ∀ e : Expr, (e.shift σ).references names = (e.references names).map (·.shift σ)
  | .literal _ | .read _ _ => rfl
  | .grouping e | .unary _ e => Expr.references_shift names e
  | .binary left _ right | .logical left _ right => by
    simp only [Expr.shift, Expr.references, List.map_append, Expr.references_shift names left,
      Expr.references_shift names right]
  | .assign id name value => by
    simp only [Expr.shift, Expr.references, List.map_append, Expr.references_shift names value]
    rfl
  | .call callee _ arguments => by
    simp only [Expr.shift, Expr.references, List.map_append, Expr.references_shift names callee,
      Expr.referencesOfAll_shift names arguments]

theorem Expr.referencesOfAll_shift (names : Names) : ∀ es : List Expr,
    Expr.referencesOfAll names (Expr.shiftAll σ es) =
      (Expr.referencesOfAll names es).map (·.shift σ)
  | [] => rfl
  | e :: es => by
    simp only [Expr.shiftAll, Expr.referencesOfAll, List.map_append, Expr.references_shift names e,
      Expr.referencesOfAll_shift names es]

end

theorem Expr.referencesOfOption_shift (names : Names) (e? : Option Expr) :
    Expr.referencesOfOption names (e?.map (·.shift σ)) =
      (Expr.referencesOfOption names e?).map (·.shift σ) := by
  cases e? with
  | none => rfl
  | some e => exact e.references_shift names

theorem Stmt.declared?_shift (s : Stmt) :
    (s.shift σ).declared? = s.declared?.map (·.down σ.lines) := by
  cases s with
  | branch _ _ onFalse => cases onFalse <;> rfl
  | _ => rfl

theorem Names.after_shift (names : Names) (s : Stmt) : names.after (s.shift σ) = names.after s := by
  unfold Names.after
  rw [s.declared?_shift]
  cases s.declared? <;> rfl

mutual

theorem Stmt.references_shift (names : Names) :
    ∀ s : Stmt, (s.shift σ).references names = (s.references names).map (·.shift σ)
  | .expression value | .print value => value.references_shift names
  | .var _ initial | .exit _ initial => Expr.referencesOfOption_shift _ initial
  | .block body => Stmt.referencesOfAll_shift _ body
  | .branch condition onTrue none | .loop condition onTrue => by
    simp only [Stmt.shift, Stmt.references, List.map_append, condition.references_shift names,
      Stmt.references_shift names onTrue]
  | .branch condition onTrue (some onFalse) => by
    simp only [Stmt.shift, Stmt.references, List.map_append, condition.references_shift names,
      Stmt.references_shift names onTrue, Stmt.references_shift names onFalse]
  | .function name params body => by
    have hparams : (params.map (·.down σ.lines)).map (·.lexeme) = params.map (·.lexeme) := by
      rw [List.map_map]
      rfl
    simp only [Stmt.shift, Stmt.references, hparams]
    exact Stmt.referencesOfAll_shift _ body

theorem Stmt.referencesOfAll_shift (names : Names) : ∀ ss : List Stmt,
    Stmt.referencesOfAll names (Stmt.shiftAll σ ss) =
      (Stmt.referencesOfAll names ss).map (·.shift σ)
  | [] => rfl
  | s :: ss => by
    simp only [Stmt.shiftAll, Stmt.referencesOfAll, List.map_append, Stmt.references_shift names s,
      names.after_shift s, Stmt.referencesOfAll_shift _ ss]

end

mutual

theorem Expr.readsOf_shift (own : String) :
    ∀ e : Expr, (e.shift σ).readsOf own = (e.readsOf own).map (·.down σ.lines)
  | .literal _ => rfl
  | .grouping e | .unary _ e | .assign _ _ e => Expr.readsOf_shift own e
  | .binary left _ right | .logical left _ right => by
    simp only [Expr.shift, Expr.readsOf, List.map_append, Expr.readsOf_shift own left,
      Expr.readsOf_shift own right]
  | .read _ name => by
    have hname : (name.down σ.lines).lexeme = name.lexeme := rfl
    simp only [Expr.shift, Expr.readsOf, hname]
    split <;> rfl
  | .call callee _ arguments => by
    simp only [Expr.shift, Expr.readsOf, List.map_append, Expr.readsOf_shift own callee,
      Expr.readsOfAll_shift own arguments]

theorem Expr.readsOfAll_shift (own : String) : ∀ es : List Expr,
    Expr.readsOfAll own (Expr.shiftAll σ es) = (Expr.readsOfAll own es).map (·.down σ.lines)
  | [] => rfl
  | e :: es => by
    simp only [Expr.shiftAll, Expr.readsOfAll, List.map_append, Expr.readsOf_shift own e,
      Expr.readsOfAll_shift own es]

end

namespace Surroundings

variable (here : Surroundings)

theorem after_shift (s : Stmt) : here.after (s.shift σ) = here.after s := by
  unfold after
  rw [s.declared?_shift]
  cases s.declared? <;> rfl

theorem redeclaration_down (k : Nat) (name : Token) :
    here.redeclaration (name.down k) = (here.redeclaration name).map (·.down k) := by
  have hname : (name.down k).lexeme = name.lexeme := rfl
  unfold redeclaration
  rw [hname]
  split
  · rfl
  · split <;> rfl

end Surroundings

theorem repeatedParams_down (k : Nat) : ∀ (params : List Token) (earlier : List String),
    repeatedParams earlier (params.map (·.down k)) =
      (repeatedParams earlier params).map (·.down k)
  | [], _ => rfl
  | p :: ps, earlier => by
    have hname : (p.down k).lexeme = p.lexeme := rfl
    simp only [List.map_cons, repeatedParams, hname, List.map_append, repeatedParams_down k ps]
    split <;> rfl

mutual

theorem Stmt.violations_shift : ∀ (s : Stmt) (here : Surroundings),
    (s.shift σ).violations here = (s.violations here).map (·.down σ.lines)
  | .expression _, _ | .print _, _ => rfl
  | .var name initial, here => by
    have hname : (name.down σ.lines).lexeme = name.lexeme := rfl
    simp only [Stmt.shift, Stmt.violations, List.map_append, here.redeclaration_down, hname]
    cases initial with
    | none => rfl
    | some e =>
      cases here.forbidden? name.lexeme with
      | none => rfl
      | some x => simp only [Option.map_some, e.readsOf_shift]
  | .block body, here => Stmt.violationsOfAll_shift body _
  | .branch _ onTrue none, here | .loop _ onTrue, here => Stmt.violations_shift onTrue here
  | .branch _ onTrue (some onFalse), here => by
    simp only [Stmt.shift, Stmt.violations, List.map_append, Stmt.violations_shift onTrue here,
      Stmt.violations_shift onFalse here]
  | .function name params body, here => by
    have hname : (name.down σ.lines).lexeme = name.lexeme := rfl
    have hparams : (params.map (·.down σ.lines)).map (·.lexeme) = params.map (·.lexeme) := by
      rw [List.map_map]
      rfl
    simp only [Stmt.shift, Stmt.violations, List.map_append, here.redeclaration_down,
      repeatedParams_down, hname, hparams, Stmt.violationsOfAll_shift body]
  | .exit keyword _, here => by
    simp only [Stmt.shift, Stmt.violations]
    split <;> rfl

theorem Stmt.violationsOfAll_shift : ∀ (ss : List Stmt) (here : Surroundings),
    violationsOfAll here (shiftAll σ ss) = (violationsOfAll here ss).map (·.down σ.lines)
  | [], _ => rfl
  | s :: ss, here => by
    simp only [Stmt.shiftAll, Stmt.violationsOfAll, List.map_append, Stmt.violations_shift s here,
      here.after_shift s, Stmt.violationsOfAll_shift ss]

end

/-- A program further down records the same. -/
theorem Distances.record_shift (k : Nat) (program : List Stmt) (d : Distances) :
    d.record (references (Stmt.shiftAll ⟨k, 0⟩ program)) = d.record (references program) := by
  unfold references Distances.record
  rw [Stmt.referencesOfAll_shift, List.foldl_map]
  rfl

/-- A program further down breaks the same rules. -/
theorem violations_shift (globals : List String) (program : List Stmt) :
    violations globals (Stmt.shiftAll σ program) =
      (violations globals program).map (·.down σ.lines) :=
  Stmt.violationsOfAll_shift program _

/-! ## Programs one behind the other -/

/-- The names that the statements of a program declare. -/
def declaredNames (program : List Stmt) : List String :=
  program.filterMap fun s => s.declared?.map (·.lexeme)

theorem Distances.record_append (d : Distances) (rs rs' : List Reference) :
    d.record (rs ++ rs') = (d.record rs).record rs' :=
  List.foldl_append

theorem references_append (p q : List Stmt) :
    references (p ++ q) = references p ++ references q := by
  have hafter (s : Stmt) : Names.after [] s = [] := by
    unfold Names.after
    split <;> rfl
  unfold references
  induction p with
  | nil => rfl
  | cons s p ih => simp only [List.cons_append, Stmt.referencesOfAll, hafter, ih, List.append_assoc]

theorem Stmt.violationsOfAll_append (q : List Stmt) : ∀ (p : List Stmt) (here : Surroundings),
    violationsOfAll here (p ++ q) =
      violationsOfAll here p ++ violationsOfAll (p.foldl Surroundings.after here) q
  | [], _ => rfl
  | s :: p, here => by
    simp only [List.cons_append, Stmt.violationsOfAll, List.foldl_cons, List.append_assoc,
      Stmt.violationsOfAll_append q p]

/-- Behind a program its declarations are global names. -/
theorem Surroundings.same_foldl_after {globals : List String} : ∀ (p : List Stmt)
    (globals' : List String), (∀ x, x ∈ globals ↔ x ∈ declaredNames p ∨ x ∈ globals') →
      Surroundings.Same (p.foldl Surroundings.after ⟨[], globals', false⟩) ⟨[], globals, false⟩
  | [], globals', h => ⟨rfl, fun x => by simpa [declaredNames] using (h x).symm, rfl⟩
  | s :: p, globals', h => by
    have hafter : Surroundings.after ⟨[], globals', false⟩ s =
        ⟨[], (s.declared?.map (·.lexeme)).toList ++ globals', false⟩ := by
      unfold Surroundings.after
      cases s.declared? <;> rfl
    rw [List.foldl_cons, hafter]
    refine same_foldl_after p _ fun x => ?_
    rw [h x]
    cases hd : s.declared? with
    | none => simp [declaredNames, hd]
    | some name =>
      simp only [declaredNames, List.filterMap_cons, hd, Option.map_some, List.mem_cons,
        Option.toList_some, List.cons_append, List.nil_append]
      exact ⟨by rintro ((h | h) | h) <;> simp [h], by rintro (h | h | h) <;> simp [h]⟩

/-- The second of two programs breaks the same rules as by itself, where the names that are declared
by the first one are bound. -/
theorem violations_append {globals globals' : List String} (p q : List Stmt)
    (h : ∀ x, x ∈ globals' ↔ x ∈ declaredNames p ∨ x ∈ globals) :
    violations globals (p ++ q) = violations globals p ++ violations globals' q := by
  have hsame := Surroundings.same_foldl_after p globals h
  unfold violations
  rw [Stmt.violationsOfAll_append, ← Stmt.violationsOfAll_eq q hsame,
    Stmt.violationsOfAll_eq q ⟨rfl, fun _ => Iff.rfl, rfl⟩]

end Lox
