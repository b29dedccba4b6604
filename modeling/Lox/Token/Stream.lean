import Lox.Token.Piece

/-!
# The tokens of a source text

`scan` lists the tokens and faults of a text in order, each with the line on which it ends, and
closes the list with one end token. A fault takes the place of a token and scanning goes on after
it.
-/

namespace Lox

structure LexicalError where
  cause : LexicalFault
  line : Nat
  deriving DecidableEq, Repr

/-- One item of a scanned text. -/
inductive Scanned where
  | token (token : Token)
  | error (error : LexicalError)
  deriving Repr

namespace Scanned

def token? : Scanned → Option Token
  | token t => some t
  | error _ => none

def error? : Scanned → Option LexicalError
  | token _ => none
  | error e => some e

/-- The items of some pieces, the first of which starts on the given line. -/
def ofPieces (line : Nat) : List Piece → List Scanned
  | [] => [token ⟨.eof, "", line⟩]
  | p :: ps =>
    let line := line + p.text.count '\n'
    match p.reading with
    | .blank => ofPieces line ps
    | .token kind => token ⟨kind, String.ofList p.text, line⟩ :: ofPieces line ps
    | .fault cause => error ⟨cause, line⟩ :: ofPieces line ps

end Scanned

/-- The tokens and faults of a source text. -/
def scan (source : String) : List Scanned :=
  Scanned.ofPieces 1 (pieces source.toList)

/-- The tokens of a source text, its faults left out. -/
def tokens (source : String) : List Token :=
  (scan source).filterMap Scanned.token?

/-- The faults of a source text. -/
def lexicalErrors (source : String) : List LexicalError :=
  (scan source).filterMap Scanned.error?

end Lox
