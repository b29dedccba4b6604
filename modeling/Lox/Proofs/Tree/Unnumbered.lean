import Lox.Tree.Loop

/-!
# Trees without numbers

A reference's number says nothing about the text of a program. `Expr.unnumbered` and
`Stmt.unnumbered` give every reference the number 0, so that two trees spell the same program when
they agree without numbers.
-/

namespace Lox

mutual

/-- The expression with every reference numbered 0. -/
def Expr.unnumbered : Expr → Expr
  | .literal value => .literal value
  | .grouping inner => .grouping inner.unnumbered
  | .unary operator operand => .unary operator operand.unnumbered
  | .binary left operator right => .binary left.unnumbered operator right.unnumbered
  | .logical left operator right => .logical left.unnumbered operator right.unnumbered
  | .read _ name => .read 0 name
  | .assign _ name value => .assign 0 name value.unnumbered
  | .call callee paren arguments => .call callee.unnumbered paren (unnumberedAll arguments)

def Expr.unnumberedAll : List Expr → List Expr
  | [] => []
  | e :: es => e.unnumbered :: unnumberedAll es

end

mutual

/-- The statement with every reference numbered 0. -/
def Stmt.unnumbered : Stmt → Stmt
  | .expression value => .expression value.unnumbered
  | .print value => .print value.unnumbered
  | .var name initial => .var name (initial.map (·.unnumbered))
  | .block body => .block (unnumberedAll body)
  | .branch condition onTrue none => .branch condition.unnumbered onTrue.unnumbered none
  | .branch condition onTrue (some onFalse) =>
    .branch condition.unnumbered onTrue.unnumbered (some onFalse.unnumbered)
  | .loop condition body => .loop condition.unnumbered body.unnumbered
  | .function name params body => .function name params (unnumberedAll body)
  | .exit keyword value => .exit keyword (value.map (·.unnumbered))

def Stmt.unnumberedAll : List Stmt → List Stmt
  | [] => []
  | s :: ss => s.unnumbered :: unnumberedAll ss

end

theorem Expr.unnumberedAll_eq_map (es : List Expr) :
    Expr.unnumberedAll es = es.map (·.unnumbered) := by
  induction es with
  | nil => rfl
  | cons e es ih => simp [Expr.unnumberedAll, ih]

theorem Stmt.unnumberedAll_eq_map (ss : List Stmt) :
    Stmt.unnumberedAll ss = ss.map (·.unnumbered) := by
  induction ss with
  | nil => rfl
  | cons s ss ih => simp [Stmt.unnumberedAll, ih]

theorem Stmt.unnumbered_branch (condition : Expr) (onTrue : Stmt) (onFalse : Option Stmt) :
    (Stmt.branch condition onTrue onFalse).unnumbered =
      .branch condition.unnumbered onTrue.unnumbered (onFalse.map (·.unnumbered)) := by
  cases onFalse <;> rfl

theorem Stmt.unnumbered_counted (initial : Option Stmt) (condition increment : Option Expr)
    (body : Stmt) :
    (Stmt.counted initial condition increment body).unnumbered =
      .counted (initial.map (·.unnumbered)) (condition.map (·.unnumbered))
        (increment.map (·.unnumbered)) body.unnumbered := by
  cases initial <;> cases condition <;> cases increment <;> rfl

end Lox
