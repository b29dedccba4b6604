import Lox.Tree

/-!
# Counted loops

A `for` loop is no statement of its own: `Stmt.counted` builds it from a loop and blocks. The
increment runs in a block after the body, so it sees nothing that the body declares, and the
initializer stands in a block around the loop.
-/

namespace Lox

/-- The loop's body with its increment, if it has one. -/
def Stmt.withIncrement (body : Stmt) : Option Expr → Stmt
  | none => body
  | some increment => .block [body, .expression increment]

/-- The statement that `for (initial condition; increment) body` stands for. -/
def Stmt.counted (initial : Option Stmt) (condition increment : Option Expr) (body : Stmt) : Stmt :=
  let loop := .loop (condition.getD (.literal (.bool true))) (body.withIncrement increment)
  match initial with
  | none => loop
  | some initial => .block [initial, loop]

end Lox
