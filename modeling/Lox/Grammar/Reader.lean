import Lox.Tree

/-!
# Reading a row of tokens

A `Reader` takes tokens from the front of a row. It fails with a complaint about the token in front
of it, and it can note a complaint and go on. What it has taken and noted stays so when it fails,
so a rule can recover from the failure of another (`recovering`).
-/

namespace Lox

/-- Where a symbol is missing. -/
inductive Place where
  | functionName | parameters | functionBody | declaration | block
  | forKeyword | loopCondition | forClauses | ifKeyword | ifCondition | whileKeyword | condition
  | value | expression | returnValue | arguments
  deriving DecidableEq, Repr

def Place.text : Place → String
  | functionName => "after function name"
  | parameters => "after parameters"
  | functionBody => "before function body"
  | declaration => "after variable declaration"
  | block => "after block"
  | forKeyword => "after 'for'"
  | loopCondition => "after loop condition"
  | forClauses => "after for clauses"
  | ifKeyword => "after 'if'"
  | ifCondition => "after if condition"
  | whileKeyword => "after 'while'"
  | condition => "after condition"
  | value => "after value"
  | expression => "after expression"
  | returnValue => "after return value"
  | arguments => "after arguments"

/-- What a name is missing for. -/
inductive Named where
  | function | parameter | var
  deriving DecidableEq, Repr

def Named.text : Named → String
  | function => "function name"
  | parameter => "parameter name"
  | var => "variable name"

/-- Why a row of tokens is no program. -/
inductive SyntaxFault where
  | symbolMissing (symbol : Symbol) (place : Place)
  | nameMissing (what : Named)
  | expressionMissing
  | endMissing
  | invalidTarget
  | tooManyParameters
  | tooManyArguments
  deriving DecidableEq, Repr

def SyntaxFault.message : SyntaxFault → String
  | symbolMissing symbol place => "Expect '" ++ symbol.spelling ++ "' " ++ place.text ++ "."
  | nameMissing what => "Expect " ++ what.text ++ "."
  | expressionMissing => "Expect expression."
  | endMissing => "Expect end of expression."
  | invalidTarget => "Invalid assignment target."
  | tooManyParameters => "Can't have more than 255 parameters."
  | tooManyArguments => "Can't have more than 255 arguments."

/-- A fault, and the token at which it was found unless that is the end of the row. -/
structure Complaint where
  cause : SyntaxFault
  token? : Option Token
  deriving Repr

/-- What a reader works on: the tokens still to be read, the number of the next reference to a
variable, and the complaints so far, the latest first. -/
structure Row where
  tokens : List Token
  nextId : NodeId
  complaints : List Complaint
  deriving Repr

abbrev Reader := EStateM Complaint Row

namespace Reader

variable {α : Type}

/-- Fails at the token in front. -/
def fail (cause : SyntaxFault) : Reader α := fun row =>
  .error ⟨cause, row.tokens.head?⟩ row

/-- The token in front, or none at the end of the row. -/
def peek? : Reader (Option Token) := fun row =>
  .ok row.tokens.head? row

/-- Takes the token in front, if there is one. -/
def skip : Reader Unit := fun row =>
  .ok () { row with tokens := row.tokens.tail }

/-- Whether the token in front passes a test. -/
def sees (p : Token → Bool) : Reader Bool := fun row =>
  .ok (row.tokens.head?.any p) row

/-- Takes the token in front if it passes a test. -/
def accept? (p : Token → Bool) : Reader (Option Token) := fun row =>
  match row.tokens with
  | [] => .ok none row
  | t :: ts => if p t then .ok (some t) { row with tokens := ts } else .ok none row

/-- Takes the token in front, which has to pass a test. -/
def expect (p : Token → Bool) (cause : SyntaxFault) : Reader Token := fun row =>
  match row.tokens with
  | [] => .error ⟨cause, none⟩ row
  | t :: ts => if p t then .ok t { row with tokens := ts } else .error ⟨cause, some t⟩ row

/-- Takes a symbol. -/
def symbol (s : Symbol) (place : Place) : Reader Token :=
  expect (·.isSymbol s) (.symbolMissing s place)

/-- Takes a name. -/
def name (what : Named) : Reader Token :=
  expect (·.isIdentifier) (.nameMissing what)

/-- Notes a complaint and goes on. -/
def complain (cause : SyntaxFault) (token? : Option Token) : Reader Unit := fun row =>
  .ok () { row with complaints := ⟨cause, token?⟩ :: row.complaints }

/-- A number for a reference to a variable. -/
def freshId : Reader NodeId := fun row =>
  .ok row.nextId { row with nextId := row.nextId + 1 }

end Reader

/-- Whether a token is one that a statement starts with. -/
def Token.startsStatement (t : Token) : Bool :=
  match t.kind with
  | .keyword .classKw | .keyword .funKw | .keyword .varKw | .keyword .forKw
  | .keyword .ifKw | .keyword .whileKw | .keyword .printKw | .keyword .returnKw => true
  | _ => false

/-- The tokens from the next statement on, where `last` is the token before them: a statement is
over after a semicolon, and before a token that starts one. -/
def resumeAfter (last : Token) : List Token → List Token
  | [] => []
  | t :: ts => if last.isSymbol .semicolon || t.startsStatement then t :: ts else resumeAfter t ts

/-- The tokens to go on with after a failure at the first of them, which is left out. -/
def synchronize : List Token → List Token
  | [] => []
  | t :: ts => resumeAfter t ts

/-- Reads with `r`; if it fails, notes why and goes on with the next statement. -/
def recovering {α : Type} (r : Reader α) : Reader (Option α) := fun row =>
  match r row with
  | .ok a row => .ok (some a) row
  | .error c row =>
    .ok none { row with tokens := synchronize row.tokens, complaints := c :: row.complaints }

end Lox
