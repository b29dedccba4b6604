import Lox.Decimal.Format

/-!
# Tokens

A token is a kind, the text it stands for, and the line on which that text ends. Kinds agree
(`Token.Kind.agrees`) when they are the same but for the payload of a number or a string, and
tokens are compared by agreeing kinds, text and line.
-/

namespace Lox

/-- Operators and punctuation. -/
inductive Symbol where
  | leftParen | rightParen | leftBrace | rightBrace
  | comma | dot | minus | plus | semicolon | slash | star
  | bang | bangEqual | equal | equalEqual
  | greater | greaterEqual | less | lessEqual
  deriving DecidableEq, Repr

namespace Symbol

def all : List Symbol :=
  [leftParen, rightParen, leftBrace, rightBrace, comma, dot, minus, plus, semicolon, slash, star,
    bang, bangEqual, equal, equalEqual, greater, greaterEqual, less, lessEqual]

/-- The symbol as it is written in a program. -/
def spelling : Symbol → String
  | leftParen => "("
  | rightParen => ")"
  | leftBrace => "\x7b"
  | rightBrace => "\x7d"
  | comma => ","
  | dot => "."
  | minus => "-"
  | plus => "+"
  | semicolon => ";"
  | slash => "/"
  | star => "*"
  | bang => "!"
  | bangEqual => "!="
  | equal => "="
  | equalEqual => "=="
  | greater => ">"
  | greaterEqual => ">="
  | less => "<"
  | lessEqual => "<="

def name : Symbol → String
  | leftParen => "LEFT_PAREN"
  | rightParen => "RIGHT_PAREN"
  | leftBrace => "LEFT_BRACE"
  | rightBrace => "RIGHT_BRACE"
  | comma => "COMMA"
  | dot => "DOT"
  | minus => "MINUS"
  | plus => "PLUS"
  | semicolon => "SEMICOLON"
  | slash => "SLASH"
  | star => "STAR"
  | bang => "BANG"
  | bangEqual => "BANG_EQUAL"
  | equal => "EQUAL"
  | equalEqual => "EQUAL_EQUAL"
  | greater => "GREATER"
  | greaterEqual => "GREATER_EQUAL"
  | less => "LESS"
  | lessEqual => "LESS_EQUAL"

/-- The symbol that is spelled so, if there is one. -/
def ofSpelling? (text : List Char) : Option Symbol :=
  all.find? (·.spelling.toList = text)

end Symbol

/-- Reserved words. Classes are reserved without being part of the language. -/
inductive Keyword where
  | andKw | classKw | elseKw | falseKw | funKw | forKw | ifKw | nilKw
  | orKw | printKw | returnKw | superKw | thisKw | trueKw | varKw | whileKw
  deriving DecidableEq, Repr

namespace Keyword

def all : List Keyword :=
  [andKw, classKw, elseKw, falseKw, funKw, forKw, ifKw, nilKw,
    orKw, printKw, returnKw, superKw, thisKw, trueKw, varKw, whileKw]

/-- The word as it is written in a program. -/
def spelling : Keyword → String
  | andKw => "and"
  | classKw => "class"
  | elseKw => "else"
  | falseKw => "false"
  | funKw => "fun"
  | forKw => "for"
  | ifKw => "if"
  | nilKw => "nil"
  | orKw => "or"
  | printKw => "print"
  | returnKw => "return"
  | superKw => "super"
  | thisKw => "this"
  | trueKw => "true"
  | varKw => "var"
  | whileKw => "while"

def name : Keyword → String
  | andKw => "AND"
  | classKw => "CLASS"
  | elseKw => "ELSE"
  | falseKw => "FALSE"
  | funKw => "FUN"
  | forKw => "FOR"
  | ifKw => "IF"
  | nilKw => "NIL"
  | orKw => "OR"
  | printKw => "PRINT"
  | returnKw => "RETURN"
  | superKw => "SUPER"
  | thisKw => "THIS"
  | trueKw => "TRUE"
  | varKw => "VAR"
  | whileKw => "WHILE"

/-- The reserved word that a word is, if it is one. -/
def ofSpelling? (word : List Char) : Option Keyword :=
  all.find? (·.spelling.toList = word)

end Keyword

/-- What a token is. -/
inductive Token.Kind where
  | symbol (symbol : Symbol)
  | keyword (keyword : Keyword)
  | identifier
  | string (contents : String)
  | number (value : Float)
  | eof
  deriving DecidableEq, Repr

structure Token where
  kind : Token.Kind
  lexeme : String
  line : Nat
  deriving Repr

namespace Token

namespace Kind

/-- The kind without what it carries. -/
def bare : Kind → Kind
  | string _ => string ""
  | number _ => number 0
  | kind => kind

/-- The same kind, whatever a number or a string carries. -/
def agrees (a b : Kind) : Bool :=
  a.bare = b.bare

def name : Kind → String
  | symbol s => s.name
  | keyword k => k.name
  | identifier => "IDENTIFIER"
  | string _ => "STRING"
  | number _ => "NUMBER"
  | eof => "EOF"

/-- Every kind once, without payload. -/
def all : List Kind :=
  Symbol.all.map symbol ++ Keyword.all.map keyword ++ [identifier, string "", number 0, eof]

end Kind

instance : BEq Token where
  beq a b := a.kind.agrees b.kind && a.lexeme == b.lexeme && a.line == b.line

/-- Whether the token is a given symbol. -/
def isSymbol (t : Token) (s : Symbol) : Bool :=
  t.kind = .symbol s

/-- Whether the token is a given reserved word. -/
def isKeyword (t : Token) (k : Keyword) : Bool :=
  t.kind = .keyword k

def isIdentifier (t : Token) : Bool :=
  t.kind = .identifier

def isEof (t : Token) : Bool :=
  t.kind = .eof

/-- The number in a token listing: whole numbers have a point, large ones the fewest digits that
read back and then zeros, and zero has no sign. -/
def listingFormat : Decimal.Format :=
  { whole := .shortest, pointZero := true, signedZero := false }

/-- The token's line in a listing: its kind, its text and what it carries. -/
def listing (t : Token) : String :=
  let payload := match t.kind with
    | .string contents => contents
    | .number value => listingFormat.text value
    | _ => "null"
  t.kind.name ++ " " ++ t.lexeme ++ " " ++ payload

end Token

end Lox
