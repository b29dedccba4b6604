import Lox.Tree

/-!
# Expressions in brackets

`Expr.bracketed` writes an expression with an operator in front of its operands and brackets around
both, so that no rule of precedence is needed to read it.
-/

namespace Lox

namespace Literal

/-- Whole numbers have all their digits, and a point. -/
def numberFormat : Decimal.Format :=
  { whole := .exact, pointZero := true, signedZero := true }

def text : Literal → String
  | number x => numberFormat.text x
  | string s => s
  | bool b => toString b
  | nil => "nil"

end Literal

namespace Expr

mutual

/-- The expression in brackets, its operators first. -/
def bracketed : Expr → String
  | .literal value => value.text
  | .grouping inner => "(group " ++ inner.bracketed ++ ")"
  | .unary operator operand => "(" ++ operator.lexeme ++ " " ++ operand.bracketed ++ ")"
  | .binary left operator right =>
    "(" ++ operator.lexeme ++ " " ++ left.bracketed ++ " " ++ right.bracketed ++ ")"
  | .logical left operator right =>
    "(" ++ operator.lexeme ++ " " ++ left.bracketed ++ " " ++ right.bracketed ++ ")"
  | .read _ name => name.lexeme
  | .assign _ name value => "(= " ++ name.lexeme ++ " " ++ value.bracketed ++ ")"
  | .call callee _ arguments => "(call " ++ callee.bracketed ++ bracketedAll arguments ++ ")"

/-- Each argument after a blank. -/
def bracketedAll : List Expr → String
  | [] => ""
  | e :: es => " " ++ e.bracketed ++ bracketedAll es

end

end Expr

end Lox
