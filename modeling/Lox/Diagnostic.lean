import Lox.Binding.Rule
import Lox.Eval.State
import Lox.Grammar
import Lox.Token.Stream

/-!
# Diagnostics

A diagnostic is what a user is told about an error of any stage. Its text leads with the line;
errors of the grammar and of declarations also name the token they were found at.
-/

namespace Lox

inductive Diagnostic where
  | lexical (message : String) (line : Nat)
  | grammar (message : String) (token : Token)
  | binding (message : String) (token : Token)
  | runtime (message : String) (token : Token)
  | sink (message : String)
  deriving Repr

namespace Diagnostic

/-- Where a token stands: at the end, or at its text. -/
def place (t : Token) : String :=
  if t.isEof then "at end" else "at '" ++ t.lexeme ++ "'"

def message : Diagnostic → String
  | lexical message _ => message
  | grammar message _ => message
  | binding message _ => message
  | runtime message _ => message
  | sink message => message

/-- The line of the error; a sink has none. -/
def line? : Diagnostic → Option Nat
  | lexical _ line => some line
  | grammar _ token => some token.line
  | binding _ token => some token.line
  | runtime _ token => some token.line
  | sink _ => none

/-- The head of a diagnostic about the text of a program. -/
def heading (line : Nat) (place : String) : String :=
  "[line " ++ toString line ++ "] Error" ++ place ++ ": "

def text : Diagnostic → String
  | lexical message line => heading line "" ++ message
  | grammar message token => heading token.line (" " ++ place token) ++ message
  | binding message token => heading token.line (" " ++ place token) ++ message
  | runtime message token => message ++ "\n[line " ++ toString token.line ++ "]"
  | sink message => message

end Diagnostic

def LexicalError.diagnostic (e : LexicalError) : Diagnostic :=
  .lexical e.cause.message e.line

def SyntaxError.diagnostic (e : SyntaxError) : Diagnostic :=
  .grammar e.cause.message e.token

def BindingError.diagnostic (e : BindingError) : Diagnostic :=
  .binding e.cause.message e.token

def RuntimeError.diagnostic : RuntimeError → Diagnostic
  | fault cause token => .runtime cause.message token
  | sink cause => .sink cause.message

/-- What went wrong in one run. -/
structure Report where
  lexical : List Diagnostic := []
  grammar : List Diagnostic := []
  binding : List Diagnostic := []
  runtime : Option Diagnostic := none
  deriving Repr

namespace Report

/-- The exit status of a program that is refused. -/
def refused : Nat := 65

/-- The exit status of a program that fails while it runs. -/
def failed : Nat := 70

/-- Whether the program was refused. -/
def hadError (r : Report) : Bool :=
  !(r.lexical.isEmpty && r.grammar.isEmpty && r.binding.isEmpty)

def hadRuntimeError (r : Report) : Bool :=
  r.runtime.isSome

/-- The exit status, if anything went wrong. -/
def exitCode? (r : Report) : Option Nat :=
  if r.hadError then some refused
  else if r.hadRuntimeError then some failed
  else none

/-- All diagnostics, in the order of the stages. -/
def diagnostics (r : Report) : List Diagnostic :=
  r.lexical ++ r.grammar ++ r.binding ++ r.runtime.toList

end Report

end Lox
