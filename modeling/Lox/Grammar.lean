import Lox.Grammar.Statement

/-!
# From tokens to trees

`Grammar.parseProgram` and `Grammar.parseExpression` read the tokens before the first end token.
Their answer is a tree only if nothing was complained of; otherwise it is every complaint, in the
order in which they came up. References are numbered on from a first number, so that the trees of a
session share none.
-/

namespace Lox

structure SyntaxError where
  cause : SyntaxFault
  token : Token
  deriving Repr

namespace Grammar

variable {α : Type}

/-- What reading some tokens gave, and the first number that it left unused. -/
structure Parse (α : Type) where
  result : Except (List SyntaxError) α
  nextId : NodeId

/-- The token at which faults past the last token are found: the first end token, or one on the line
of the last token. -/
def endToken (ts : List Token) : Token :=
  (ts.find? (·.isEof)).getD ⟨.eof, "", (ts.getLast?.map (·.line)).getD 1⟩

/-- The tokens that count: those before the first end token. -/
def beforeEnd (ts : List Token) : List Token :=
  ts.takeWhile (! ·.isEof)

/-- Reads the tokens that count with a rule, which is told how many there are. -/
def run (rule : Nat → Reader α) (firstId : NodeId) (ts : List Token) : Parse α :=
  let row := beforeEnd ts
  let locate (c : Complaint) : SyntaxError := ⟨c.cause, c.token?.getD (endToken ts)⟩
  match rule row.length ⟨row, firstId, []⟩ with
  | .ok a row =>
    match row.complaints with
    | [] => ⟨.ok a, row.nextId⟩
    | cs => ⟨.error (cs.reverse.map locate), row.nextId⟩
  | .error c row => ⟨.error ((c :: row.complaints).reverse.map locate), row.nextId⟩

/-- Declarations up to the end of the row. -/
def program (n : Nat) : Reader (List Stmt) :=
  declarations (declaration n) atEnd n

/-- One expression up to the end of the row. -/
def wholeExpression (n : Nat) : Reader Expr := do
  let e ← expression n
  if ← atEnd then
    return e
  else
    Reader.fail .endMissing

/-- The statements that a row of tokens spells, or its faults. -/
def parseProgram (firstId : NodeId) (ts : List Token) : Parse (List Stmt) :=
  run program firstId ts

/-- The expression that a row of tokens spells, or its faults. -/
def parseExpression (firstId : NodeId) (ts : List Token) : Parse Expr :=
  run wholeExpression firstId ts

end Grammar

end Lox
