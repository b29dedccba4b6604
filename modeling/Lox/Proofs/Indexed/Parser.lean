import Lox.Grammar

/-!
# Parsing by position

A parser that has the whole vector of tokens at all times, and the position of the token in front.
Nothing about it says that it stays inside the vector or comes to an end: a look past the vector and
a recursion without fuel stop it for good (`Halt`), and neither can be recovered from as an error
can. It keeps a list of the positions at which it looked at tokens.

Its rules are those of `Lox.Grammar`, which take tokens from the front of a row and cannot reach the
end token or what follows it.
-/

namespace Lox.Indexed

open Grammar

variable {α : Type}

/-- What a parser works on. -/
structure State where
  tokens : List Token
  /-- The position of the token in front. -/
  current : Nat
  nextId : NodeId
  /-- The errors so far, the latest first. -/
  errors : List SyntaxError
  /-- Where it stood when it looked at a token, the latest look first. -/
  positions : List Nat

/-- Why a parser stops. -/
inductive Halt where
  | error (error : SyntaxError)
  | outOfFuel
  | outOfBounds (index : Nat)

abbrev Parser := EStateM Halt State

/-- The state after one more look. -/
def State.looked (s : State) : State :=
  { s with positions := s.current :: s.positions }

/-- The token at an index of the vector. -/
def lookAt (index : Nat) : Parser Token := fun s =>
  match s.tokens[index]? with
  | some t => .ok t s.looked
  | none => .error (.outOfBounds index) s

def peek : Parser Token := fun s =>
  lookAt s.current s

def previous : Parser Token := fun s =>
  lookAt (s.current - 1) s

def isAtEnd : Parser Bool :=
  (·.isEof) <$> peek

/-- Goes on to the next token, except from an end token, and gives the one before it. -/
def advance : Parser Token := do
  if ← isAtEnd then
    previous
  else
    modify fun s => { s with current := s.current + 1 }
    previous

/-- Whether the token in front passes a test, which an end token does not. -/
def check (p : Token → Bool) : Parser Bool := do
  if ← isAtEnd then
    return false
  else
    p <$> peek

/-- Takes the token in front if it passes a test. -/
def accept? (p : Token → Bool) : Parser (Option Token) := do
  if ← check p then
    some <$> advance
  else
    return none

/-- Fails at the token in front. -/
def fail (cause : SyntaxFault) : Parser α := do
  let t ← peek
  throw (.error ⟨cause, t⟩)

/-- Takes the token in front, which has to pass a test. -/
def expect (p : Token → Bool) (cause : SyntaxFault) : Parser Token := do
  if ← check p then
    advance
  else
    fail cause

def symbol (s : Symbol) (place : Place) : Parser Token :=
  expect (·.isSymbol s) (.symbolMissing s place)

def name (what : Named) : Parser Token :=
  expect (·.isIdentifier) (.nameMissing what)

/-- Notes an error and goes on. -/
def report (e : SyntaxError) : Parser Unit :=
  modify fun s => { s with errors := e :: s.errors }

def freshId : Parser NodeId := fun s =>
  .ok s.nextId { s with nextId := s.nextId + 1 }

/-- Goes on to the next statement. -/
def resume : Nat → Parser Unit
  | 0 => throw .outOfFuel
  | n + 1 => do
    if ← isAtEnd then
      return
    if (← previous).isSymbol .semicolon then
      return
    if (← peek).startsStatement then
      return
    let _ ← advance
    resume n

/-- Leaves out the token in front and goes on to the next statement. -/
def synchronize (n : Nat) : Parser Unit := do
  let _ ← advance
  resume n

/-- Notes an error of `p` and goes on with the next statement. -/
def recovering (n : Nat) (p : Parser α) : Parser (Option α) := fun s =>
  match p s with
  | .ok a s => .ok (some a) s
  | .error (.error e) s => (do
      report e
      synchronize n
      return none : Parser (Option α)) s
  | .error halt s => .error halt s

/-! ## Expressions -/

/-- The operators of one level that follow `left`, each with its right side. -/
def chain (level : Level) (side : Parser Expr) : Nat → Expr → Parser Expr
  | 0, _ => throw .outOfFuel
  | n + 1, left => do
    match ← accept? level.holds with
    | none => return left
    | some operator =>
      let right ← side
      chain level side n (level.node left operator right)

/-- The operators of some levels, the loosest first, between operands. -/
def binary (n : Nat) (operand : Parser Expr) : List Level → Parser Expr
  | [] => operand
  | level :: tighter => do
    let left ← binary n operand tighter
    chain level (binary n operand tighter) n left

/-- Any row of operators before a call. -/
def unary (call : Parser Expr) : Nat → Parser Expr
  | 0 => throw .outOfFuel
  | n + 1 => do
    match ← accept? fun t => t.isSymbol .bang || t.isSymbol .minus with
    | none => call
    | some operator =>
      let operand ← unary call n
      return .unary operator operand

/-- Items with commas between them, after `count` others. Past the limit each is an error. -/
def commaList (excess : SyntaxFault) (item : Parser α) : Nat → Nat → Parser (List α)
  | 0, _ => throw .outOfFuel
  | n + 1, count => do
    if maxArity ≤ count then
      report ⟨excess, ← peek⟩
    let first ← item
    match ← accept? (·.isSymbol .comma) with
    | none => return [first]
    | some _ =>
      let others ← commaList excess item n (count + 1)
      return first :: others

/-- A list that ends at a closing parenthesis and may be empty. -/
def listToParen (n : Nat) (excess : SyntaxFault) (item : Parser α) : Parser (List α) := do
  if ← check (·.isSymbol .rightParen) then
    return []
  else
    commaList excess item n 0

/-- The argument lists that follow `callee`. -/
def calls (n : Nat) (expression : Parser Expr) : Nat → Expr → Parser Expr
  | 0, _ => throw .outOfFuel
  | k + 1, callee => do
    match ← accept? (·.isSymbol .leftParen) with
    | none => return callee
    | some _ =>
      let arguments ← listToParen n .tooManyArguments expression
      let paren ← symbol .rightParen .arguments
      calls n expression k (.call callee paren arguments)

/-- A literal, a name, or an expression in parentheses. -/
def primary (expression : Parser Expr) : Parser Expr := do
  match ← accept? fun t => (literal? t).isSome with
  | some t => return .literal ((literal? t).getD .nil)
  | none =>
    match ← accept? (·.isIdentifier) with
    | some t =>
      let id ← freshId
      return .read id t
    | none =>
      let _ ← expect (·.isSymbol .leftParen) .expressionMissing
      let inner ← expression
      let _ ← symbol .rightParen .expression
      return .grouping inner

def call (n : Nat) (expression : Parser Expr) : Parser Expr := do
  let callee ← primary expression
  calls n expression n callee

/-- The node that `target = value` stands for. -/
def assign (target : Expr) (equals : Token) (value : Expr) : Parser Expr := do
  match target with
  | .read _ name =>
    let id ← freshId
    return .assign id name value
  | _ =>
    report ⟨.invalidTarget, equals⟩
    return value

def assignment (n : Nat) (inner : Parser Expr) : Parser Expr := do
  let target ← binary n (unary (call n inner) n) levels
  match ← accept? (·.isSymbol .equal) with
  | none => return target
  | some equals =>
    let value ← inner
    assign target equals value

def expression : Nat → Parser Expr
  | 0 => throw .outOfFuel
  | n + 1 => assignment (n + 1) (expression n)

/-! ## Statements -/

/-- Whether no declaration of a block follows. -/
def blockOver : Parser Bool := do
  if ← check (·.isSymbol .rightBrace) then
    return true
  else
    isAtEnd

/-- An expression, unless the given symbol is in front. -/
def optional (n : Nat) (stop : Symbol) : Parser (Option Expr) := do
  if ← check (·.isSymbol stop) then
    return none
  else
    return some (← expression n)

/-- Declarations until `stop` holds, the unreadable ones left out. -/
def declarations (declaration : Parser (Option Stmt)) (stop : Parser Bool) :
    Nat → Parser (List Stmt)
  | 0 => throw .outOfFuel
  | n + 1 => do
    if ← stop then
      return []
    else
      let first? ← declaration
      let others ← declarations declaration stop n
      return first?.toList ++ others

/-- A block after its opening brace. -/
def block (n : Nat) (declaration : Parser (Option Stmt)) : Parser (List Stmt) := do
  let body ← declarations declaration blockOver n
  let _ ← symbol .rightBrace .block
  return body

/-- A function after its keyword. -/
def function (n : Nat) (declaration : Parser (Option Stmt)) : Parser Stmt := do
  let name ← name .function
  let _ ← symbol .leftParen .functionName
  let params ← listToParen n .tooManyParameters (Indexed.name .parameter)
  let _ ← symbol .rightParen .parameters
  let _ ← symbol .leftBrace .functionBody
  let body ← block n declaration
  return .function name params body

/-- A variable after its keyword. -/
def variableDeclaration (n : Nat) : Parser Stmt := do
  let name ← name .var
  let initial ← match ← accept? (·.isSymbol .equal) with
    | none => pure none
    | some _ => some <$> expression n
  let _ ← symbol .semicolon .declaration
  return .var name initial

def expressionStatement (n : Nat) : Parser Stmt := do
  let value ← expression n
  let _ ← symbol .semicolon .expression
  return .expression value

/-- The first clause of a `for`, with its semicolon. -/
def forInitial (n : Nat) : Parser (Option Stmt) := do
  match ← accept? (·.isSymbol .semicolon) with
  | some _ => return none
  | none =>
    match ← accept? (·.isKeyword .varKw) with
    | some _ => some <$> variableDeclaration n
    | none => some <$> expressionStatement n

def forStatement (n : Nat) (statement : Parser Stmt) : Parser Stmt := do
  let _ ← symbol .leftParen .forKeyword
  let initial ← forInitial n
  let condition ← optional n .semicolon
  let _ ← symbol .semicolon .loopCondition
  let increment ← optional n .rightParen
  let _ ← symbol .rightParen .forClauses
  let body ← statement
  return .counted initial condition increment body

def printStatement (n : Nat) : Parser Stmt := do
  let value ← expression n
  let _ ← symbol .semicolon .value
  return .print value

def ifStatement (n : Nat) (statement : Parser Stmt) : Parser Stmt := do
  let _ ← symbol .leftParen .ifKeyword
  let condition ← expression n
  let _ ← symbol .rightParen .ifCondition
  let onTrue ← statement
  let onFalse ← match ← accept? (·.isKeyword .elseKw) with
    | none => pure none
    | some _ => some <$> statement
  return .branch condition onTrue onFalse

def whileStatement (n : Nat) (statement : Parser Stmt) : Parser Stmt := do
  let _ ← symbol .leftParen .whileKeyword
  let condition ← expression n
  let _ ← symbol .rightParen .condition
  let body ← statement
  return .loop condition body

def returnStatement (n : Nat) (keyword : Token) : Parser Stmt := do
  let value ← optional n .semicolon
  let _ ← symbol .semicolon .returnValue
  return .exit keyword value

def statementRule (n : Nat) (statement : Parser Stmt) (declaration : Parser (Option Stmt)) :
    Parser Stmt := do
  match ← accept? (·.isKeyword .forKw) with
  | some _ => forStatement n statement
  | none =>
    match ← accept? (·.isKeyword .printKw) with
    | some _ => printStatement n
    | none =>
      match ← accept? (·.isSymbol .leftBrace) with
      | some _ => .block <$> block n declaration
      | none =>
        match ← accept? (·.isKeyword .ifKw) with
        | some _ => ifStatement n statement
        | none =>
          match ← accept? (·.isKeyword .whileKw) with
          | some _ => whileStatement n statement
          | none =>
            match ← accept? (·.isKeyword .returnKw) with
            | some keyword => returnStatement n keyword
            | none => expressionStatement n

def declarationRule (n : Nat) (statement : Parser Stmt) (declaration : Parser (Option Stmt)) :
    Parser Stmt := do
  match ← accept? (·.isKeyword .funKw) with
  | some _ => function n declaration
  | none =>
    match ← accept? (·.isKeyword .varKw) with
    | some _ => variableDeclaration n
    | none => statementRule n statement declaration

mutual

def statement : Nat → Parser Stmt
  | 0 => throw .outOfFuel
  | n + 1 => statementRule (n + 1) (statement n) (declaration n)

/-- A declaration, or none where it cannot be read. -/
def declaration : Nat → Parser (Option Stmt)
  | 0 => throw .outOfFuel
  | n + 1 => recovering (n + 1) (declarationRule (n + 1) (statement n) (declaration n))

end

/-! ## Whole vectors -/

/-- Some tokens with an end token behind them, on the line of the last, unless one is there. -/
def closed (ts : List Token) : List Token :=
  if ts.getLast?.any (·.isEof) then ts
  else ts ++ [⟨.eof, "", (ts.getLast?.map (·.line)).getD 1⟩]

/-- The position of the first end token. -/
def endPosition (ts : List Token) : Nat :=
  (closed ts).findIdx (·.isEof)

/-- A parser of some tokens before it has looked at them. -/
def State.new (firstId : NodeId) (ts : List Token) : State :=
  ⟨closed ts, 0, firstId, [], []⟩

def program (n : Nat) : Parser (List Stmt) :=
  declarations (declaration n) isAtEnd n

/-- One expression up to the end token. -/
def wholeExpression (n : Nat) : Parser Expr := do
  let e ← expression n
  if ← isAtEnd then
    return e
  else
    fail .endMissing

/-- The answer of a rule: a tree if no error was found on the way, else the errors in order. -/
def answer (rule : Parser α) : Parser (Except (List SyntaxError) α) := fun s =>
  match rule s with
  | .ok a s => .ok (if s.errors.isEmpty then .ok a else .error s.errors.reverse) s
  | .error (.error e) s => .ok (.error (e :: s.errors).reverse) s
  | .error halt s => .error halt s

end Lox.Indexed
