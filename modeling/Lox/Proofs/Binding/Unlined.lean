import Lox.Proofs.Binding.Violations
import Lox.Proofs.Tree.Unlined

/-!
# The rules of declaration on other lines

The breaches in a program do not depend on its lines, but for the lines they are found at
(`violations_unlined`).
-/

namespace Lox

/-- The same breach on no line. -/
def BindingError.unlined (e : BindingError) : BindingError :=
  { e with token := e.token.unlined }

mutual

theorem Expr.readsOf_unlined (own : String) :
    ∀ e : Expr, e.unlined.readsOf own = (e.readsOf own).map (·.unlined)
  | .literal _ => rfl
  | .grouping e | .unary _ e | .assign _ _ e => Expr.readsOf_unlined own e
  | .binary left _ right | .logical left _ right => by
    simp only [Expr.unlined, Expr.readsOf, Expr.readsOf_unlined own left,
      Expr.readsOf_unlined own right, List.map_append]
  | .read _ name => by
    have hname : name.unlined.lexeme = name.lexeme := rfl
    simp only [Expr.unlined, Expr.readsOf, hname]
    split <;> rfl
  | .call callee _ arguments => by
    simp only [Expr.unlined, Expr.readsOf, Expr.readsOf_unlined own callee,
      Expr.readsOfAll_unlined own arguments, List.map_append]

theorem Expr.readsOfAll_unlined (own : String) : ∀ es : List Expr,
    Expr.readsOfAll own (Expr.unlinedAll es) = (Expr.readsOfAll own es).map (·.unlined)
  | [] => rfl
  | e :: es => by
    simp only [Expr.unlinedAll, Expr.readsOfAll, Expr.readsOf_unlined own e,
      Expr.readsOfAll_unlined own es, List.map_append]

end

namespace Surroundings

variable (here : Surroundings)

theorem redeclaration_unlined (name : Token) :
    here.redeclaration name.unlined = (here.redeclaration name).map (·.unlined) := by
  have hname : name.unlined.lexeme = name.lexeme := rfl
  unfold redeclaration
  rw [hname]
  cases here.names with
  | nil => rfl
  | cons scope outer =>
    dsimp only
    split <;> rfl

theorem after_unlined (s : Stmt) : here.after s.unlined = here.after s := by
  cases s with
  | branch _ _ onFalse => cases onFalse <;> rfl
  | _ => rfl

end Surroundings

theorem repeatedParams_unlined : ∀ (earlier : List String) (ps : List Token),
    repeatedParams earlier (ps.map (·.unlined)) = (repeatedParams earlier ps).map (·.unlined)
  | _, [] => rfl
  | earlier, p :: ps => by
    have hname : p.unlined.lexeme = p.lexeme := rfl
    simp only [List.map_cons, repeatedParams, hname, repeatedParams_unlined, List.map_append]
    congr 1
    split <;> rfl

mutual

theorem Stmt.violations_unlined : ∀ (s : Stmt) (here : Surroundings),
    s.unlined.violations here = (s.violations here).map (·.unlined)
  | .expression _, _ => rfl
  | .print _, _ => rfl
  | .var name initial, here => by
    have hname : name.unlined.lexeme = name.lexeme := rfl
    simp only [Stmt.unlined, Stmt.violations, here.redeclaration_unlined, hname, List.map_append]
    cases initial with
    | none => rfl
    | some e =>
      cases here.forbidden? name.lexeme with
      | none => rfl
      | some x => simp only [Option.map_some, Expr.readsOf_unlined]
  | .block body, here => Stmt.violationsOfAll_unlined body (here.enter [])
  | .branch _ onTrue none, here => Stmt.violations_unlined onTrue here
  | .branch _ onTrue (some onFalse), here => by
    simp only [Stmt.unlined, Stmt.violations, Stmt.violations_unlined onTrue here,
      Stmt.violations_unlined onFalse here, List.map_append]
  | .loop _ body, here => Stmt.violations_unlined body here
  | .function name params body, here => by
    have hname : name.unlined.lexeme = name.lexeme := rfl
    simp only [Stmt.unlined, Stmt.violations, here.redeclaration_unlined, hname,
      Token.lexemes_unlined, repeatedParams_unlined, Stmt.violationsOfAll_unlined body,
      List.map_append]
  | .exit _ _, here => by
    simp only [Stmt.unlined, Stmt.violations]
    split <;> rfl

theorem Stmt.violationsOfAll_unlined : ∀ (ss : List Stmt) (here : Surroundings),
    violationsOfAll here (unlinedAll ss) = (violationsOfAll here ss).map (·.unlined)
  | [], _ => rfl
  | s :: ss, here => by
    simp only [Stmt.unlinedAll, Stmt.violationsOfAll, Stmt.violations_unlined s,
      here.after_unlined, Stmt.violationsOfAll_unlined ss, List.map_append]

end

/-- The breaches in a program, seen on no line. -/
theorem violations_unlined (globals : List String) (program : List Stmt) :
    violations globals (Stmt.unlinedAll program) = (violations globals program).map (·.unlined) :=
  Stmt.violationsOfAll_unlined program ⟨[], globals, false⟩

end Lox
