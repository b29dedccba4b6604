import Lox.Grammar.Reader

/-!
# The grammar of expressions

```text
expression → assignment
assignment → NAME "=" assignment | binary
binary     → six levels of left-associative operators, from loose to tight:
             or; and; == !=; < <= > >=; + -; * /
unary      → ( "!" | "-" ) unary | call
call       → primary ( "(" ( expression ( "," expression )* )? ")" )*
primary    → NUMBER | STRING | "true" | "false" | "nil" | NAME | "(" expression ")"
```

What stands left of `=` is read as an expression first; one that is no name is complained of, and
the right side stands for the whole. Each rule has a bound on the tokens ahead of it; `expression n`
is the rule for rows of at most `n` tokens.
-/

namespace Lox.Grammar

open Reader

variable {α : Type}

/-- The most parameters or arguments that a list may have. -/
def maxArity : Nat := 255

/-- One level of left-associative operators. -/
structure Level where
  /-- The operators of the level. -/
  holds : Token → Bool
  /-- The node of an operator and its two sides. -/
  node : Expr → Token → Expr → Expr

/-- A level of operators on values. -/
def Level.symbols (operators : List Symbol) : Level :=
  ⟨fun t => operators.any (t.isSymbol ·), .binary⟩

/-- A level of one operator that may leave out its right side. -/
def Level.keyword (operator : Keyword) : Level :=
  ⟨(·.isKeyword operator), .logical⟩

/-- The levels of operators, the loosest first. -/
def levels : List Level :=
  [.keyword .orKw, .keyword .andKw,
    .symbols [.bangEqual, .equalEqual],
    .symbols [.greater, .greaterEqual, .less, .lessEqual],
    .symbols [.minus, .plus],
    .symbols [.slash, .star]]

/-- The operators of one level that follow `left`, each with its right side. -/
def chain (level : Level) (side : Reader Expr) : Nat → Expr → Reader Expr
  | 0, left => pure left
  | n + 1, left => do
    match ← accept? level.holds with
    | none => return left
    | some operator =>
      let right ← side
      chain level side n (level.node left operator right)

/-- The operators of some levels, the loosest first, between operands. -/
def binary (n : Nat) (operand : Reader Expr) : List Level → Reader Expr
  | [] => operand
  | level :: tighter => do
    let left ← binary n operand tighter
    chain level (binary n operand tighter) n left

/-- Any row of operators before a call. -/
def unary (call : Reader Expr) : Nat → Reader Expr
  | 0 => call
  | n + 1 => do
    match ← accept? fun t => t.isSymbol .bang || t.isSymbol .minus with
    | none => call
    | some operator =>
      let operand ← unary call n
      return .unary operator operand

/-- Items with commas between them, after `count` others. Past the limit each is complained of. -/
def commaList (excess : SyntaxFault) (item : Reader α) : Nat → Nat → Reader (List α)
  | 0, count => do
    if maxArity ≤ count then
      complain excess (← peek?)
    let first ← item
    return [first]
  | n + 1, count => do
    if maxArity ≤ count then
      complain excess (← peek?)
    let first ← item
    match ← accept? (·.isSymbol .comma) with
    | none => return [first]
    | some _ =>
      let others ← commaList excess item n (count + 1)
      return first :: others

/-- A list that ends at a closing parenthesis and may be empty. -/
def listToParen (n : Nat) (excess : SyntaxFault) (item : Reader α) : Reader (List α) := do
  if ← sees (·.isSymbol .rightParen) then
    return []
  else
    commaList excess item n 0

/-- The argument lists that follow `callee`. -/
def calls (n : Nat) (expression : Reader Expr) : Nat → Expr → Reader Expr
  | 0, callee => pure callee
  | k + 1, callee => do
    match ← accept? (·.isSymbol .leftParen) with
    | none => return callee
    | some _ =>
      let arguments ← listToParen n .tooManyArguments expression
      let paren ← symbol .rightParen .arguments
      calls n expression k (.call callee paren arguments)

/-- The literal that a token is, if it is one. -/
def literal? (t : Token) : Option Literal :=
  match t.kind with
  | .keyword .falseKw => some (.bool false)
  | .keyword .trueKw => some (.bool true)
  | .keyword .nilKw => some .nil
  | .number value => some (.number value)
  | .string contents => some (.string contents)
  | _ => none

/-- A literal, a name, or an expression in parentheses. -/
def primary (expression : Reader Expr) : Reader Expr := do
  match ← peek? with
  | none => fail .expressionMissing
  | some t =>
    match literal? t with
    | some value =>
      skip
      return .literal value
    | none =>
      if t.isIdentifier then
        skip
        let id ← freshId
        return .read id t
      else if t.isSymbol .leftParen then
        skip
        let inner ← expression
        let _ ← symbol .rightParen .expression
        return .grouping inner
      else
        fail .expressionMissing

def call (n : Nat) (expression : Reader Expr) : Reader Expr := do
  let callee ← primary expression
  calls n expression n callee

/-- The node that `target = value` stands for. -/
def assign (target : Expr) (equals : Token) (value : Expr) : Reader Expr := do
  match target with
  | .read _ name =>
    let id ← freshId
    return .assign id name value
  | _ =>
    complain .invalidTarget equals
    return value

/-- The rule for rows of at most `n` tokens, given the rule for shorter ones. -/
def assignment (n : Nat) (shorter : Reader Expr) : Reader Expr := do
  let target ← binary n (unary (call n shorter) n) levels
  match ← accept? (·.isSymbol .equal) with
  | none => return target
  | some equals =>
    let value ← shorter
    assign target equals value

/-- An expression at the front of at most `n` tokens. -/
def expression : Nat → Reader Expr
  | 0 => fail .expressionMissing
  | n + 1 => assignment (n + 1) (expression n)

end Lox.Grammar
