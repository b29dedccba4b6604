import Lox.Grammar.Expression
import Lox.Tree.Loop

/-!
# The grammar of statements

```text
declaration → "fun" NAME "(" ( NAME ( "," NAME )* )? ")" block
            | "var" NAME ( "=" expression )? ";"
            | statement
statement   → "for" "(" ( "var" NAME ( "=" expression )? ";" | expression ";" | ";" )
              expression? ";" expression? ")" statement
            | "print" expression ";"
            | block
            | "if" "(" expression ")" statement ( "else" statement )?
            | "while" "(" expression ")" statement
            | "return" expression? ";"
            | expression ";"
block       → "{" declaration* "}"
```

An `else` belongs to the nearest `if`. A declaration that cannot be read is complained of once and
left out, so one bad declaration does not hide the faults of the next.
-/

namespace Lox.Grammar

open Reader

/-- Whether the row is at its end. -/
def atEnd : Reader Bool := fun row =>
  .ok row.tokens.isEmpty row

/-- Whether no declaration of a block follows: its closing brace is in front, or nothing. -/
def blockOver : Reader Bool := fun row =>
  .ok (row.tokens.head?.all (·.isSymbol .rightBrace)) row

/-- An expression, unless the given symbol is in front. -/
def optional (n : Nat) (stop : Symbol) : Reader (Option Expr) := do
  if ← sees (·.isSymbol stop) then
    return none
  else
    return some (← expression n)

/-- Declarations until `stop` holds, the unreadable ones left out. -/
def declarations (declaration : Reader (Option Stmt)) (stop : Reader Bool) :
    Nat → Reader (List Stmt)
  | 0 => return []
  | n + 1 => do
    if ← stop then
      return []
    else
      let first? ← declaration
      let others ← declarations declaration stop n
      return first?.toList ++ others

/-- A block after its opening brace. -/
def block (n : Nat) (declaration : Reader (Option Stmt)) : Reader (List Stmt) := do
  let body ← declarations declaration blockOver n
  let _ ← symbol .rightBrace .block
  return body

/-- A function after its keyword. -/
def function (n : Nat) (declaration : Reader (Option Stmt)) : Reader Stmt := do
  let name ← name .function
  let _ ← symbol .leftParen .functionName
  let params ← listToParen n .tooManyParameters (Reader.name .parameter)
  let _ ← symbol .rightParen .parameters
  let _ ← symbol .leftBrace .functionBody
  let body ← block n declaration
  return .function name params body

/-- A variable after its keyword. -/
def variableDeclaration (n : Nat) : Reader Stmt := do
  let name ← name .var
  let initial ← match ← accept? (·.isSymbol .equal) with
    | none => pure none
    | some _ => some <$> expression n
  let _ ← symbol .semicolon .declaration
  return .var name initial

def expressionStatement (n : Nat) : Reader Stmt := do
  let value ← expression n
  let _ ← symbol .semicolon .expression
  return .expression value

/-- The first clause of a `for`, with its semicolon. -/
def forInitial (n : Nat) : Reader (Option Stmt) := do
  match ← accept? (·.isSymbol .semicolon) with
  | some _ => return none
  | none =>
    match ← accept? (·.isKeyword .varKw) with
    | some _ => some <$> variableDeclaration n
    | none => some <$> expressionStatement n

def forStatement (n : Nat) (statement : Reader Stmt) : Reader Stmt := do
  let _ ← symbol .leftParen .forKeyword
  let initial ← forInitial n
  let condition ← optional n .semicolon
  let _ ← symbol .semicolon .loopCondition
  let increment ← optional n .rightParen
  let _ ← symbol .rightParen .forClauses
  let body ← statement
  return .counted initial condition increment body

def printStatement (n : Nat) : Reader Stmt := do
  let value ← expression n
  let _ ← symbol .semicolon .value
  return .print value

def ifStatement (n : Nat) (statement : Reader Stmt) : Reader Stmt := do
  let _ ← symbol .leftParen .ifKeyword
  let condition ← expression n
  let _ ← symbol .rightParen .ifCondition
  let onTrue ← statement
  let onFalse ← match ← accept? (·.isKeyword .elseKw) with
    | none => pure none
    | some _ => some <$> statement
  return .branch condition onTrue onFalse

def whileStatement (n : Nat) (statement : Reader Stmt) : Reader Stmt := do
  let _ ← symbol .leftParen .whileKeyword
  let condition ← expression n
  let _ ← symbol .rightParen .condition
  let body ← statement
  return .loop condition body

def returnStatement (n : Nat) (keyword : Token) : Reader Stmt := do
  let value ← optional n .semicolon
  let _ ← symbol .semicolon .returnValue
  return .exit keyword value

/-- The statement rule for rows of at most `n` tokens, given the rules for shorter ones. -/
def statementRule (n : Nat) (statement : Reader Stmt) (declaration : Reader (Option Stmt)) :
    Reader Stmt := do
  match ← peek? with
  | none => expressionStatement n
  | some t =>
    match t.kind with
    | .keyword .forKw => skip; forStatement n statement
    | .keyword .printKw => skip; printStatement n
    | .symbol .leftBrace => skip; .block <$> block n declaration
    | .keyword .ifKw => skip; ifStatement n statement
    | .keyword .whileKw => skip; whileStatement n statement
    | .keyword .returnKw => skip; returnStatement n t
    | _ => expressionStatement n

/-- The declaration rule for rows of at most `n` tokens, given the rules for shorter ones. -/
def declarationRule (n : Nat) (statement : Reader Stmt) (declaration : Reader (Option Stmt)) :
    Reader Stmt := do
  match ← accept? (·.isKeyword .funKw) with
  | some _ => function n declaration
  | none =>
    match ← accept? (·.isKeyword .varKw) with
    | some _ => variableDeclaration n
    | none => statementRule n statement declaration

mutual

/-- A statement at the front of at most `n` tokens. -/
def statement : Nat → Reader Stmt
  | 0 => fail .expressionMissing
  | n + 1 => statementRule (n + 1) (statement n) (declaration n)

/-- A declaration at the front of at most `n` tokens, or none where it cannot be read. -/
def declaration : Nat → Reader (Option Stmt)
  | 0 => recovering (fail .expressionMissing)
  | n + 1 => recovering (declarationRule (n + 1) (statement n) (declaration n))

end

end Lox.Grammar
