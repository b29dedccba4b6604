import Lox.Tree.Loop

/-!
# The same program further down

A text that is read again elsewhere spells the same tree, but for the lines of the tokens and the
numbers of the references. `Expr.shift` and `Stmt.shift` put a tree so many lines further down and
its numbers so much higher.
-/

namespace Lox

/-- The same token so many lines further down. -/
def Token.down (k : Nat) (t : Token) : Token :=
  { t with line := t.line + k }

/-- How many lines further down a tree stands, and by how much its references are numbered
higher. -/
structure Shift where
  lines : Nat
  ids : Nat

/-- No shift. -/
def Shift.none : Shift :=
  ⟨0, 0⟩

mutual

def Expr.shift (σ : Shift) : Expr → Expr
  | .literal value => .literal value
  | .grouping inner => .grouping (inner.shift σ)
  | .unary operator operand => .unary (operator.down σ.lines) (operand.shift σ)
  | .binary left operator right =>
    .binary (left.shift σ) (operator.down σ.lines) (right.shift σ)
  | .logical left operator right =>
    .logical (left.shift σ) (operator.down σ.lines) (right.shift σ)
  | .read id name => .read (id + σ.ids) (name.down σ.lines)
  | .assign id name value => .assign (id + σ.ids) (name.down σ.lines) (value.shift σ)
  | .call callee paren arguments =>
    .call (callee.shift σ) (paren.down σ.lines) (shiftAll σ arguments)

def Expr.shiftAll (σ : Shift) : List Expr → List Expr
  | [] => []
  | e :: es => e.shift σ :: shiftAll σ es

end

mutual

def Stmt.shift (σ : Shift) : Stmt → Stmt
  | .expression value => .expression (value.shift σ)
  | .print value => .print (value.shift σ)
  | .var name initial => .var (name.down σ.lines) (initial.map (·.shift σ))
  | .block body => .block (shiftAll σ body)
  | .branch condition onTrue none => .branch (condition.shift σ) (onTrue.shift σ) none
  | .branch condition onTrue (some onFalse) =>
    .branch (condition.shift σ) (onTrue.shift σ) (some (onFalse.shift σ))
  | .loop condition body => .loop (condition.shift σ) (body.shift σ)
  | .function name params body =>
    .function (name.down σ.lines) (params.map (·.down σ.lines)) (shiftAll σ body)
  | .exit keyword value => .exit (keyword.down σ.lines) (value.map (·.shift σ))

def Stmt.shiftAll (σ : Shift) : List Stmt → List Stmt
  | [] => []
  | s :: ss => s.shift σ :: shiftAll σ ss

end

variable {σ : Shift}

theorem Expr.shiftAll_eq_map (es : List Expr) : Expr.shiftAll σ es = es.map (·.shift σ) := by
  induction es with
  | nil => rfl
  | cons e es ih => simp [Expr.shiftAll, ih]

theorem Stmt.shift_branch (condition : Expr) (onTrue : Stmt) (onFalse : Option Stmt) :
    (Stmt.branch condition onTrue onFalse).shift σ =
      .branch (condition.shift σ) (onTrue.shift σ) (onFalse.map (·.shift σ)) := by
  cases onFalse <;> rfl

theorem Stmt.shift_counted (initial : Option Stmt) (condition increment : Option Expr)
    (body : Stmt) :
    (Stmt.counted initial condition increment body).shift σ =
      .counted (initial.map (·.shift σ)) (condition.map (·.shift σ))
        (increment.map (·.shift σ)) (body.shift σ) := by
  cases initial <;> cases condition <;> cases increment <;> rfl

mutual

theorem Expr.shift_none : ∀ e : Expr, e.shift .none = e
  | .literal _ | .read _ _ => rfl
  | .grouping e => by simp only [Expr.shift, Expr.shift_none e]
  | .unary _ e | .assign _ _ e => by
    simp only [Expr.shift, Expr.shift_none e]
    rfl
  | .binary left _ right | .logical left _ right => by
    simp only [Expr.shift, Expr.shift_none left, Expr.shift_none right]
    rfl
  | .call callee _ arguments => by
    simp only [Expr.shift, Expr.shift_none callee, Expr.shiftAll_none arguments]
    rfl

theorem Expr.shiftAll_none : ∀ es : List Expr, Expr.shiftAll .none es = es
  | [] => rfl
  | e :: es => by simp only [Expr.shiftAll, Expr.shift_none e, Expr.shiftAll_none es]

end

theorem Expr.map_shift_none (e? : Option Expr) : e?.map (·.shift .none) = e? := by
  cases e? with
  | none => rfl
  | some e => exact congrArg some e.shift_none

mutual

theorem Stmt.shift_none : ∀ s : Stmt, s.shift .none = s
  | .expression value | .print value => by simp only [Stmt.shift, value.shift_none]
  | .var _ initial | .exit _ initial => by
    simp only [Stmt.shift, Expr.map_shift_none initial]
    rfl
  | .block body => by simp only [Stmt.shift, Stmt.shiftAll_none body]
  | .branch condition onTrue none | .loop condition onTrue => by
    simp only [Stmt.shift, condition.shift_none, Stmt.shift_none onTrue]
  | .branch condition onTrue (some onFalse) => by
    simp only [Stmt.shift, condition.shift_none, Stmt.shift_none onTrue, Stmt.shift_none onFalse]
  | .function name params body => by
    have hparams : params.map (·.down Shift.none.lines) = params := List.map_id params
    simp only [Stmt.shift, hparams, Stmt.shiftAll_none body]
    rfl

theorem Stmt.shiftAll_none : ∀ ss : List Stmt, Stmt.shiftAll .none ss = ss
  | [] => rfl
  | s :: ss => by simp only [Stmt.shiftAll, Stmt.shift_none s, Stmt.shiftAll_none ss]

end

end Lox
