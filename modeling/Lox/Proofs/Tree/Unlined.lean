import Lox.Proofs.Tree.Shift
import Lox.Proofs.Tree.Unnumbered

/-!
# Trees without lines

Where a text stands on its lines says nothing about the program that it spells. `Expr.unlined` and
`Stmt.unlined` put every token of a tree on line 0, so that two trees spell the same program on
other lines when they agree without lines. Trees without lines and numbers are the same wherever a
text is read (`Stmt.bareAll_shift`), and then spell the same (`Stmt.SameText`).
-/

namespace Lox

/-- The same token on no line. -/
def Token.unlined (t : Token) : Token :=
  { t with line := 0 }

theorem Token.lexemes_unlined (ts : List Token) :
    (ts.map (·.unlined)).map (·.lexeme) = ts.map (·.lexeme) := by
  rw [List.map_map]
  rfl

theorem Token.unlined_down (k : Nat) (t : Token) : (t.down k).unlined = t.unlined :=
  rfl

mutual

/-- The expression with all its tokens on no line. -/
def Expr.unlined : Expr → Expr
  | .literal value => .literal value
  | .grouping inner => .grouping inner.unlined
  | .unary operator operand => .unary operator.unlined operand.unlined
  | .binary left operator right => .binary left.unlined operator.unlined right.unlined
  | .logical left operator right => .logical left.unlined operator.unlined right.unlined
  | .read id name => .read id name.unlined
  | .assign id name value => .assign id name.unlined value.unlined
  | .call callee paren arguments => .call callee.unlined paren.unlined (unlinedAll arguments)

def Expr.unlinedAll : List Expr → List Expr
  | [] => []
  | e :: es => e.unlined :: unlinedAll es

end

mutual

/-- The statement with all its tokens on no line. -/
def Stmt.unlined : Stmt → Stmt
  | .expression value => .expression value.unlined
  | .print value => .print value.unlined
  | .var name initial => .var name.unlined (initial.map (·.unlined))
  | .block body => .block (unlinedAll body)
  | .branch condition onTrue none => .branch condition.unlined onTrue.unlined none
  | .branch condition onTrue (some onFalse) =>
    .branch condition.unlined onTrue.unlined (some onFalse.unlined)
  | .loop condition body => .loop condition.unlined body.unlined
  | .function name params body =>
    .function name.unlined (params.map (·.unlined)) (unlinedAll body)
  | .exit keyword value => .exit keyword.unlined (value.map (·.unlined))

def Stmt.unlinedAll : List Stmt → List Stmt
  | [] => []
  | s :: ss => s.unlined :: unlinedAll ss

end

theorem Expr.unlinedAll_eq_map (es : List Expr) : Expr.unlinedAll es = es.map (·.unlined) := by
  induction es with
  | nil => rfl
  | cons e es ih => simp [Expr.unlinedAll, ih]

theorem Stmt.unlinedAll_eq_map (ss : List Stmt) : Stmt.unlinedAll ss = ss.map (·.unlined) := by
  induction ss with
  | nil => rfl
  | cons s ss ih => simp [Stmt.unlinedAll, ih]

theorem Stmt.unlined_branch (condition : Expr) (onTrue : Stmt) (onFalse : Option Stmt) :
    (Stmt.branch condition onTrue onFalse).unlined =
      .branch condition.unlined onTrue.unlined (onFalse.map (·.unlined)) := by
  cases onFalse <;> rfl

theorem Stmt.unlined_counted (initial : Option Stmt) (condition increment : Option Expr)
    (body : Stmt) :
    (Stmt.counted initial condition increment body).unlined =
      .counted (initial.map (·.unlined)) (condition.map (·.unlined))
        (increment.map (·.unlined)) body.unlined := by
  cases initial <;> cases condition <;> cases increment <;> rfl

/-! ## Trees without lines and numbers -/

mutual

theorem Expr.unlined_unnumbered : ∀ e : Expr, e.unnumbered.unlined = e.unlined.unnumbered
  | .literal _ | .read _ _ => rfl
  | .grouping e | .unary _ e | .assign _ _ e => by
    simp only [Expr.unnumbered, Expr.unlined, e.unlined_unnumbered]
  | .binary left _ right | .logical left _ right => by
    simp only [Expr.unnumbered, Expr.unlined, left.unlined_unnumbered, right.unlined_unnumbered]
  | .call callee _ arguments => by
    simp only [Expr.unnumbered, Expr.unlined, callee.unlined_unnumbered,
      Expr.unlinedAll_unnumberedAll arguments]

theorem Expr.unlinedAll_unnumberedAll : ∀ es : List Expr,
    unlinedAll (unnumberedAll es) = unnumberedAll (unlinedAll es)
  | [] => rfl
  | e :: es => by
    simp only [unnumberedAll, unlinedAll, e.unlined_unnumbered, Expr.unlinedAll_unnumberedAll es]

end

theorem Expr.map_unlined_unnumbered (e? : Option Expr) :
    (e?.map (·.unnumbered)).map (·.unlined) = (e?.map (·.unlined)).map (·.unnumbered) := by
  cases e? with
  | none => rfl
  | some e => exact congrArg some e.unlined_unnumbered

mutual

theorem Stmt.unlined_unnumbered : ∀ s : Stmt, s.unnumbered.unlined = s.unlined.unnumbered
  | .expression e | .print e => by
    simp only [Stmt.unnumbered, Stmt.unlined, e.unlined_unnumbered]
  | .var _ e? | .exit _ e? => by
    simp only [Stmt.unnumbered, Stmt.unlined, Expr.map_unlined_unnumbered e?]
  | .block body | .function _ _ body => by
    simp only [Stmt.unnumbered, Stmt.unlined, Stmt.unlinedAll_unnumberedAll body]
  | .branch condition s none | .loop condition s => by
    simp only [Stmt.unnumbered, Stmt.unlined, condition.unlined_unnumbered, s.unlined_unnumbered]
  | .branch condition onTrue (some onFalse) => by
    simp only [Stmt.unnumbered, Stmt.unlined, condition.unlined_unnumbered,
      onTrue.unlined_unnumbered, onFalse.unlined_unnumbered]

theorem Stmt.unlinedAll_unnumberedAll : ∀ ss : List Stmt,
    unlinedAll (unnumberedAll ss) = unnumberedAll (unlinedAll ss)
  | [] => rfl
  | s :: ss => by
    simp only [unnumberedAll, unlinedAll, s.unlined_unnumbered, Stmt.unlinedAll_unnumberedAll ss]

end

variable (σ : Shift)

mutual

theorem Expr.bare_shift : ∀ e : Expr, (e.shift σ).unlined.unnumbered = e.unlined.unnumbered
  | .literal _ | .read _ _ => rfl
  | .grouping e | .unary _ e | .assign _ _ e => by
    simp only [Expr.shift, Expr.unlined, Expr.unnumbered, Token.unlined_down, e.bare_shift]
  | .binary left _ right | .logical left _ right => by
    simp only [Expr.shift, Expr.unlined, Expr.unnumbered, Token.unlined_down, left.bare_shift,
      right.bare_shift]
  | .call callee _ arguments => by
    simp only [Expr.shift, Expr.unlined, Expr.unnumbered, Token.unlined_down, callee.bare_shift,
      Expr.bareAll_shift arguments]

theorem Expr.bareAll_shift : ∀ es : List Expr,
    unnumberedAll (unlinedAll (shiftAll σ es)) = unnumberedAll (unlinedAll es)
  | [] => rfl
  | e :: es => by
    simp only [shiftAll, unlinedAll, unnumberedAll, e.bare_shift, Expr.bareAll_shift es]

end

theorem Expr.map_bare_shift (e? : Option Expr) :
    ((e?.map (·.shift σ)).map (·.unlined)).map (·.unnumbered) =
      (e?.map (·.unlined)).map (·.unnumbered) := by
  cases e? with
  | none => rfl
  | some e => exact congrArg some (e.bare_shift σ)

mutual

theorem Stmt.bare_shift : ∀ s : Stmt, (s.shift σ).unlined.unnumbered = s.unlined.unnumbered
  | .expression e | .print e => by
    simp only [Stmt.shift, Stmt.unlined, Stmt.unnumbered, e.bare_shift]
  | .var _ e? | .exit _ e? => by
    simp only [Stmt.shift, Stmt.unlined, Stmt.unnumbered, Token.unlined_down,
      Expr.map_bare_shift σ e?]
  | .block body => by
    simp only [Stmt.shift, Stmt.unlined, Stmt.unnumbered, Stmt.bareAll_shift body]
  | .function _ params body => by
    have hparams : (params.map (·.down σ.lines)).map (·.unlined) = params.map (·.unlined) := by
      rw [List.map_map]
      rfl
    simp only [Stmt.shift, Stmt.unlined, Stmt.unnumbered, Token.unlined_down, hparams,
      Stmt.bareAll_shift body]
  | .branch condition s none | .loop condition s => by
    simp only [Stmt.shift, Stmt.unlined, Stmt.unnumbered, condition.bare_shift, s.bare_shift]
  | .branch condition onTrue (some onFalse) => by
    simp only [Stmt.shift, Stmt.unlined, Stmt.unnumbered, condition.bare_shift,
      onTrue.bare_shift, onFalse.bare_shift]

theorem Stmt.bareAll_shift : ∀ ss : List Stmt,
    unnumberedAll (unlinedAll (shiftAll σ ss)) = unnumberedAll (unlinedAll ss)
  | [] => rfl
  | s :: ss => by
    simp only [shiftAll, unlinedAll, unnumberedAll, s.bare_shift, Stmt.bareAll_shift ss]

end

omit σ

/-- The two programs are the same up to lines and numbers. -/
def Stmt.SameText (p q : List Stmt) : Prop :=
  unnumberedAll (unlinedAll p) = unnumberedAll (unlinedAll q)

theorem Stmt.sameText_iff {p q : List Stmt} :
    SameText p q ↔ unlinedAll (unnumberedAll p) = unlinedAll (unnumberedAll q) := by
  rw [SameText, unlinedAll_unnumberedAll, unlinedAll_unnumberedAll]

end Lox
