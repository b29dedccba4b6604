import Lox.Decimal.Numeral
import Lox.Token

/-!
# Source text in pieces

`pieces` cuts a source text into the stretches that each are one blank, one comment, one token or
one fault. A piece is as long as it can be: `Reading.ahead` looks at the first character and says
what stands there and how many of the following characters belong to it, so the pieces put
together are the text.
-/

namespace Lox

/-- Why a stretch of text is no token. -/
inductive LexicalFault where
  | unterminatedString
  | unexpectedCharacter (c : Char)
  deriving DecidableEq, Repr

def LexicalFault.message : LexicalFault → String
  | unterminatedString => "Unterminated string."
  | unexpectedCharacter c => "Unexpected character: " ++ c.toString

/-- What a stretch of text is; blanks and comments are `blank`. -/
inductive Reading where
  | blank
  | token (kind : Token.Kind)
  | fault (cause : LexicalFault)
  deriving DecidableEq, Repr

structure Piece where
  text : List Char
  reading : Reading
  deriving DecidableEq, Repr

namespace Reading

/-- The blanks are space, tab, carriage return and newline. -/
def isBlank (c : Char) : Bool :=
  c = ' ' || c = '\t' || c = '\r' || c = '\n'

/-- Words start with an ASCII letter or an underscore. -/
def isWordStart (c : Char) : Bool :=
  c.isAlpha || c = '_'

def isWordChar (c : Char) : Bool :=
  isWordStart c || c.isDigit

/-- The symbol at the start of `c :: cs`, two characters long if it can be, and how many characters
of `cs` it takes. -/
def symbol? (c : Char) (cs : List Char) : Option (Symbol × Nat) :=
  match cs.head?.bind fun d => Symbol.ofSpelling? [c, d] with
  | some s => some (s, 1)
  | none => (Symbol.ofSpelling? [c]).map (·, 0)

/-- A word is reserved only as a whole. -/
def wordKind (word : List Char) : Token.Kind :=
  match Keyword.ofSpelling? word with
  | some k => .keyword k
  | none => .identifier

/-- The fraction digits at the start of a text: those after a point, of which there is at least
one. -/
def fraction : List Char → List Char
  | '.' :: cs => cs.takeWhile Char.isDigit
  | _ => []

/-- The number at the start of `c :: cs`, where `c` is a digit. -/
def number (c : Char) (cs : List Char) : Token.Kind × Nat :=
  let whole := cs.takeWhile Char.isDigit
  let places := fraction (cs.dropWhile Char.isDigit)
  (.number (Decimal.ofDigits (c :: whole) places),
    whole.length + if places = [] then 0 else places.length + 1)

/-- The string that `cs` continues after its opening quote; without a closing quote all of `cs` is
at fault. -/
def string (cs : List Char) : Reading × Nat :=
  let contents := cs.takeWhile (· ≠ '"')
  if contents.length < cs.length then
    (.token (.string (String.ofList contents)), contents.length + 1)
  else
    (.fault .unterminatedString, cs.length)

/-- What stands at the start of `c :: cs`, and how many characters of `cs` belong to it. -/
def ahead (c : Char) (cs : List Char) : Reading × Nat :=
  if isBlank c then
    (.blank, 0)
  else if c = '/' ∧ cs.head? = some '/' then
    (.blank, (cs.takeWhile (· ≠ '\n')).length)
  else if c = '"' then
    string cs
  else if c.isDigit then
    let (kind, n) := number c cs
    (.token kind, n)
  else if isWordStart c then
    let rest := cs.takeWhile isWordChar
    (.token (wordKind (c :: rest)), rest.length)
  else
    match symbol? c cs with
    | some (s, n) => (.token (.symbol s), n)
    | none => (.fault (.unexpectedCharacter c), 0)

end Reading

/-- The pieces of a text, in order. -/
def pieces : List Char → List Piece
  | [] => []
  | c :: cs =>
    let (reading, n) := Reading.ahead c cs
    ⟨c :: cs.take n, reading⟩ :: pieces (cs.drop n)
termination_by text => text.length
decreasing_by simp only [List.length_drop, List.length_cons]; omega

end Lox
