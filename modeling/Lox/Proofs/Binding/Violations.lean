import Lox.Binding.Rule
import Lox.Proofs.Tree.Unnumbered

/-!
# What the rules of declaration look at

The breaches in a program do not depend on the numbers of its references, and of the global names
it matters only which are bound (`violations_unnumbered`).
-/

namespace Lox

mutual

theorem Expr.readsOf_unnumbered (own : String) :
    ∀ e : Expr, e.unnumbered.readsOf own = e.readsOf own
  | .literal _ => rfl
  | .grouping inner => Expr.readsOf_unnumbered own inner
  | .unary _ operand => Expr.readsOf_unnumbered own operand
  | .binary left _ right | .logical left _ right => by
    simp only [Expr.unnumbered, Expr.readsOf, Expr.readsOf_unnumbered own left,
      Expr.readsOf_unnumbered own right]
  | .read _ _ => rfl
  | .assign _ _ value => Expr.readsOf_unnumbered own value
  | .call callee _ arguments => by
    simp only [Expr.unnumbered, Expr.readsOf, Expr.readsOf_unnumbered own callee,
      Expr.readsOfAll_unnumbered own arguments]

theorem Expr.readsOfAll_unnumbered (own : String) :
    ∀ es : List Expr, Expr.readsOfAll own (Expr.unnumberedAll es) = Expr.readsOfAll own es
  | [] => rfl
  | e :: es => by
    simp only [Expr.unnumberedAll, Expr.readsOfAll, Expr.readsOf_unnumbered own e,
      Expr.readsOfAll_unnumbered own es]

end

/-- Surroundings that differ at most in the order of the global names. -/
structure Surroundings.Same (here here' : Surroundings) : Prop where
  names : here.names = here'.names
  globals : ∀ x, x ∈ here.globals ↔ x ∈ here'.globals
  inFunction : here.inFunction = here'.inFunction

namespace Surroundings.Same

variable {here here' : Surroundings}

theorem declare (h : here.Same here') (x : String) : (here.declare x).Same (here'.declare x) := by
  obtain ⟨hn, hg, hf⟩ := h
  unfold Surroundings.declare
  rw [hn]
  split
  · exact ⟨rfl, fun y => by simp only [List.mem_cons, hg y], hf⟩
  · exact ⟨rfl, hg, hf⟩

theorem enter (h : here.Same here') (names : List String) :
    (here.enter names).Same (here'.enter names) :=
  { h with names := congrArg (names :: ·) h.names }

theorem function (h : here.Same here') :
    Surroundings.Same { here with inFunction := true } { here' with inFunction := true } :=
  { h with inFunction := rfl }

theorem after (h : here.Same here') (s : Stmt) : (here.after s).Same (here'.after s) := by
  unfold Surroundings.after
  cases s.declared? with
  | none => exact h
  | some name => exact h.declare _

theorem forbidden? (h : here.Same here') (x : String) :
    here.forbidden? x = here'.forbidden? x := by
  unfold Surroundings.forbidden?
  have hx : here.globals.contains x = here'.globals.contains x := by
    rw [Bool.eq_iff_iff, List.contains_iff_mem, List.contains_iff_mem, h.globals]
  rw [h.names, hx]

theorem redeclaration (h : here.Same here') (name : Token) :
    here.redeclaration name = here'.redeclaration name := by
  unfold Surroundings.redeclaration
  rw [h.names]

end Surroundings.Same

theorem Stmt.declared?_unnumbered (s : Stmt) : s.unnumbered.declared? = s.declared? := by
  cases s with
  | branch _ _ onFalse => cases onFalse <;> rfl
  | _ => rfl

theorem Surroundings.after_unnumbered (here : Surroundings) (s : Stmt) :
    here.after s.unnumbered = here.after s := by
  unfold Surroundings.after
  rw [Stmt.declared?_unnumbered]

mutual

/-- The breaches in a statement, seen without numbers from surroundings that are the same. -/
theorem Stmt.violations_eq : ∀ (s : Stmt) {here here' : Surroundings}, here.Same here' →
    s.unnumbered.violations here = s.violations here'
  | .expression _, _, _, _ => rfl
  | .print _, _, _, _ => rfl
  | .var name initial, here, here', h => by
    simp only [Stmt.unnumbered, Stmt.violations, h.redeclaration, h.forbidden?]
    cases initial with
    | none => rfl
    | some e =>
      cases here'.forbidden? name.lexeme with
      | none => rfl
      | some x => simp only [Option.map_some, Expr.readsOf_unnumbered]
  | .block body, _, _, h => Stmt.violationsOfAll_eq body (h.enter [])
  | .branch _ onTrue none, _, _, h => Stmt.violations_eq onTrue h
  | .branch _ onTrue (some onFalse), _, _, h => by
    simp only [Stmt.unnumbered, Stmt.violations, Stmt.violations_eq onTrue h,
      Stmt.violations_eq onFalse h]
  | .loop _ body, _, _, h => Stmt.violations_eq body h
  | .function name params body, here, here', h => by
    have hin := (h.declare name.lexeme).enter (params.map (·.lexeme))
    have hbody := Stmt.violationsOfAll_eq body hin.function
    simp only [Stmt.unnumbered, Stmt.violations, h.redeclaration, hbody]
  | .exit _ _, _, _, h => by
    simp only [Stmt.unnumbered, Stmt.violations, h.inFunction]

theorem Stmt.violationsOfAll_eq : ∀ (ss : List Stmt) {here here' : Surroundings},
    here.Same here' → violationsOfAll here (unnumberedAll ss) = violationsOfAll here' ss
  | [], _, _, _ => rfl
  | s :: ss, here, here', h => by
    simp only [Stmt.unnumberedAll, Stmt.violationsOfAll, Stmt.violations_eq s h,
      here.after_unnumbered, Stmt.violationsOfAll_eq ss (h.after s)]

end

/-- The breaches in a program, seen without numbers and where the same global names are bound. -/
theorem violations_unnumbered {globals globals' : List String}
    (h : ∀ x, x ∈ globals ↔ x ∈ globals') (program : List Stmt) :
    violations globals (Stmt.unnumberedAll program) = violations globals' program :=
  Stmt.violationsOfAll_eq program ⟨rfl, h, rfl⟩

end Lox
