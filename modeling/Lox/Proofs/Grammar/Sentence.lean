import Lox.Tree

/-!
# Sentences of the language

The grammar of the language as derivations, each with the tokens it spells and its tree without
numbers.

```text
program     → declaration*
declaration → "fun" NAME "(" parameters? ")" block | varDecl | statement
varDecl     → "var" NAME ( "=" expression )? ";"
statement   → exprStmt | forStmt | printStmt | whileStmt | ifStmt | block | returnStmt
exprStmt    → expression ";"
forStmt     → "for" "(" ( varDecl | exprStmt | ";" ) expression? ";" expression? ")" statement
printStmt   → "print" expression ";"
whileStmt   → "while" "(" expression ")" statement
ifStmt      → "if" "(" expression ")" statement ( "else" statement )?
block       → "{" declaration* "}"
returnStmt  → "return" expression? ";"
expression  → assignment
assignment  → NAME "=" assignment | logic_or
logic_or … factor → six ranks of left-associative operators
unary       → ( "!" | "-" ) unary | call
call        → primary ( "(" arguments? ")" )*
primary     → NUMBER | STRING | "true" | "false" | "nil" | NAME | "(" expression ")"
```

A list has at most 255 items. A statement is *open* when it ends in an `if` without `else`; what
stands between an `if` and its `else` is not open, so an `else` belongs to the nearest `if` that
can take it.
-/

namespace Lox.Sentence

/-- The ranks of expressions, from the loosest to the tightest. -/
inductive Rank where
  | assignment | or | and | equality | comparison | term | factor | unary | call | primary
  deriving DecidableEq, Repr

namespace Rank

/-- The rank of the operands. -/
def tighter : Rank → Rank
  | assignment => or
  | or => and
  | and => equality
  | equality => comparison
  | comparison => term
  | term => factor
  | factor => unary
  | unary => call
  | call => primary
  | primary => primary

/-- The left-associative operators of a rank. -/
def operators : Rank → List Token.Kind
  | or => [.keyword .orKw]
  | and => [.keyword .andKw]
  | equality => [.symbol .bangEqual, .symbol .equalEqual]
  | comparison => [.symbol .greater, .symbol .greaterEqual, .symbol .less, .symbol .lessEqual]
  | term => [.symbol .minus, .symbol .plus]
  | factor => [.symbol .slash, .symbol .star]
  | _ => []

/-- The tree of a left-associative operator. -/
def node : Rank → Expr → Token → Expr → Expr
  | or | and => .logical
  | _ => .binary

end Rank

/-- The literal that a token of a kind spells. -/
inductive Denotes : Token.Kind → Literal → Prop where
  | number (x : Float) : Denotes (.number x) (.number x)
  | string (s : String) : Denotes (.string s) (.string s)
  | true : Denotes (.keyword .trueKw) (.bool true)
  | false : Denotes (.keyword .falseKw) (.bool false)
  | nil : Denotes (.keyword .nilKw) .nil

/-- Phrases with a comma between every two. -/
inductive Separated : List (List Token) → List Token → Prop where
  | none : Separated [] []
  | one (ts : List Token) : Separated [ts] ts
  | more {us : List Token} {phrases : List (List Token)} {rest : List Token} (ts : List Token)
      (comma : Token) (hc : comma.kind = .symbol .comma) (hr : Separated (us :: phrases) rest) :
      Separated (ts :: us :: phrases) (ts ++ comma :: rest)

/-- An expression of a rank, the tokens that spell it and its tree. -/
inductive Expression : Rank → List Token → Expr → Prop where
  | assign {value : List Token} {e : Expr} (name equals : Token) (hn : name.kind = .identifier)
      (he : equals.kind = .symbol .equal) (hv : Expression .assignment value e) :
      Expression .assignment (name :: equals :: value) (.assign 0 name e)
  | operand {rank : Rank} {ts : List Token} {e : Expr} (hr : rank ≠ .primary)
      (h : Expression rank.tighter ts e) : Expression rank ts e
  | operator {rank : Rank} {left right : List Token} {a b : Expr} (op : Token)
      (ho : op.kind ∈ rank.operators) (hl : Expression rank left a)
      (hr : Expression rank.tighter right b) :
      Expression rank (left ++ op :: right) (rank.node a op b)
  | unary {ts : List Token} {e : Expr} (op : Token)
      (ho : op.kind = .symbol .bang ∨ op.kind = .symbol .minus) (h : Expression .unary ts e) :
      Expression .unary (op :: ts) (.unary op e)
  | call {callee inner : List Token} {f : Expr} (arguments : List (List Token × Expr))
      (opening closing : Token) (hf : Expression .call callee f)
      (ho : opening.kind = .symbol .leftParen)
      (ha : ∀ a ∈ arguments, Expression .assignment a.1 a.2)
      (hs : Separated (arguments.map (·.1)) inner) (hlen : arguments.length ≤ 255)
      (hc : closing.kind = .symbol .rightParen) :
      Expression .call (callee ++ opening :: inner ++ [closing])
        (.call f closing (arguments.map (·.2)))
  | literal {value : Literal} (t : Token) (h : Denotes t.kind value) :
      Expression .primary [t] (.literal value)
  | name (t : Token) (h : t.kind = .identifier) : Expression .primary [t] (.read 0 t)
  | grouping {inner : List Token} {e : Expr} (opening closing : Token)
      (ho : opening.kind = .symbol .leftParen) (h : Expression .assignment inner e)
      (hc : closing.kind = .symbol .rightParen) :
      Expression .primary (opening :: inner ++ [closing]) (.grouping e)

inductive Optional : List Token → Option Expr → Prop where
  | none : Optional [] none
  | some {ts : List Token} {e : Expr} (h : Expression .assignment ts e) : Optional ts (some e)

inductive VarDecl : List Token → Stmt → Prop where
  | plain (var name semicolon : Token) (hv : var.kind = .keyword .varKw)
      (hn : name.kind = .identifier) (hs : semicolon.kind = .symbol .semicolon) :
      VarDecl [var, name, semicolon] (.var name none)
  | initialized {ts : List Token} {e : Expr} (var name equals semicolon : Token)
      (hv : var.kind = .keyword .varKw) (hn : name.kind = .identifier)
      (he : equals.kind = .symbol .equal) (h : Expression .assignment ts e)
      (hs : semicolon.kind = .symbol .semicolon) :
      VarDecl (var :: name :: equals :: ts ++ [semicolon]) (.var name (some e))

inductive ExprStmt : List Token → Stmt → Prop where
  | mk {ts : List Token} {e : Expr} (semicolon : Token) (h : Expression .assignment ts e)
      (hs : semicolon.kind = .symbol .semicolon) : ExprStmt (ts ++ [semicolon]) (.expression e)

/-- The first clause of a `for`. -/
inductive ForInitial : List Token → Option Stmt → Prop where
  | none (semicolon : Token) (hs : semicolon.kind = .symbol .semicolon) :
      ForInitial [semicolon] none
  | var {ts : List Token} {s : Stmt} (h : VarDecl ts s) : ForInitial ts (some s)
  | expression {ts : List Token} {s : Stmt} (h : ExprStmt ts s) : ForInitial ts (some s)

/-- A declaration, or a statement that is open or not. -/
inductive Phrase where
  | declaration
  | statement (isOpen : Bool)
  deriving DecidableEq, Repr

/-- The tree of a `for`: the increment in a block after the body, and the initializer in a block
around the loop. -/
def loopOf (initial : Option Stmt) (condition increment : Option Expr) (body : Stmt) : Stmt :=
  let round := increment.elim body fun i => .block [body, .expression i]
  let loop := .loop (condition.getD (.literal (.bool true))) round
  initial.elim loop fun s => .block [s, loop]

/-- A declaration or statement, the tokens that spell it and its tree. -/
inductive Statement : Phrase → List Token → Stmt → Prop where
  | function {inner : List Token} (params : List Token) (body : List (List Token × Stmt))
      (fn name opening closing left right : Token) (hk : fn.kind = .keyword .funKw)
      (hn : name.kind = .identifier) (ho : opening.kind = .symbol .leftParen)
      (hp : ∀ p ∈ params, p.kind = .identifier) (hs : Separated (params.map ([·])) inner)
      (hlen : params.length ≤ 255) (hc : closing.kind = .symbol .rightParen)
      (hl : left.kind = .symbol .leftBrace) (hb : ∀ d ∈ body, Statement .declaration d.1 d.2)
      (hr : right.kind = .symbol .rightBrace) :
      Statement .declaration
        (fn :: name :: opening :: inner ++ closing :: left :: body.flatMap (·.1) ++ [right])
        (.function name params (body.map (·.2)))
  | var {ts : List Token} {s : Stmt} (h : VarDecl ts s) : Statement .declaration ts s
  | statement {isOpen : Bool} {ts : List Token} {s : Stmt}
      (h : Statement (.statement isOpen) ts s) : Statement .declaration ts s
  | expression {ts : List Token} {s : Stmt} (h : ExprStmt ts s) :
      Statement (.statement false) ts s
  | print {ts : List Token} {e : Expr} (keyword semicolon : Token)
      (hk : keyword.kind = .keyword .printKw) (h : Expression .assignment ts e)
      (hs : semicolon.kind = .symbol .semicolon) :
      Statement (.statement false) (keyword :: ts ++ [semicolon]) (.print e)
  | block (body : List (List Token × Stmt)) (left right : Token)
      (hl : left.kind = .symbol .leftBrace) (hb : ∀ d ∈ body, Statement .declaration d.1 d.2)
      (hr : right.kind = .symbol .rightBrace) :
      Statement (.statement false) (left :: body.flatMap (·.1) ++ [right])
        (.block (body.map (·.2)))
  | exit {ts : List Token} {value : Option Expr} (keyword semicolon : Token)
      (hk : keyword.kind = .keyword .returnKw) (h : Optional ts value)
      (hs : semicolon.kind = .symbol .semicolon) :
      Statement (.statement false) (keyword :: ts ++ [semicolon]) (.exit keyword value)
  | loop {isOpen : Bool} {cs ts : List Token} {c : Expr} {body : Stmt}
      (keyword opening closing : Token) (hk : keyword.kind = .keyword .whileKw)
      (ho : opening.kind = .symbol .leftParen) (h : Expression .assignment cs c)
      (hc : closing.kind = .symbol .rightParen) (hb : Statement (.statement isOpen) ts body) :
      Statement (.statement isOpen) (keyword :: opening :: cs ++ closing :: ts) (.loop c body)
  | counted {isOpen : Bool} {is cs ns ts : List Token} {initial : Option Stmt}
      {condition increment : Option Expr} {body : Stmt} (keyword opening semicolon closing : Token)
      (hk : keyword.kind = .keyword .forKw) (ho : opening.kind = .symbol .leftParen)
      (hi : ForInitial is initial) (h : Optional cs condition)
      (hs : semicolon.kind = .symbol .semicolon) (hn : Optional ns increment)
      (hc : closing.kind = .symbol .rightParen) (hb : Statement (.statement isOpen) ts body) :
      Statement (.statement isOpen)
        (keyword :: opening :: is ++ cs ++ semicolon :: ns ++ closing :: ts)
        (loopOf initial condition increment body)
  | ifThen {isOpen : Bool} {cs ts : List Token} {c : Expr} {onTrue : Stmt}
      (keyword opening closing : Token) (hk : keyword.kind = .keyword .ifKw)
      (ho : opening.kind = .symbol .leftParen) (h : Expression .assignment cs c)
      (hc : closing.kind = .symbol .rightParen) (ht : Statement (.statement isOpen) ts onTrue) :
      Statement (.statement true) (keyword :: opening :: cs ++ closing :: ts)
        (.branch c onTrue none)
  | ifElse {isOpen : Bool} {cs ts es : List Token} {c : Expr} {onTrue onFalse : Stmt}
      (keyword opening closing otherwise : Token) (hk : keyword.kind = .keyword .ifKw)
      (ho : opening.kind = .symbol .leftParen) (h : Expression .assignment cs c)
      (hc : closing.kind = .symbol .rightParen) (ht : Statement (.statement false) ts onTrue)
      (he : otherwise.kind = .keyword .elseKw) (hf : Statement (.statement isOpen) es onFalse) :
      Statement (.statement isOpen)
        (keyword :: opening :: cs ++ closing :: ts ++ otherwise :: es)
        (.branch c onTrue (some onFalse))

/-- A program: declarations one after the other. -/
def Program (ts : List Token) (program : List Stmt) : Prop :=
  ∃ parts : List (List Token × Stmt), (∀ d ∈ parts, Statement .declaration d.1 d.2) ∧
    ts = parts.flatMap (·.1) ∧ program = parts.map (·.2)

end Lox.Sentence
