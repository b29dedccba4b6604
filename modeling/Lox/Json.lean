import Lox.Decimal.Format

/-!
# JSON documents

Documents keep the order of their fields. `Json.compact` writes one on a single line without
blanks, `Json.pretty` with two blanks of indentation a level.
-/

namespace Lox

inductive Json where
  | null
  | bool (value : Bool)
  | nat (value : Nat)
  | float (value : Float)
  | string (value : String)
  | array (items : List Json)
  | object (fields : List (String × Json))
  deriving Repr

namespace Json

/-- Numbers have a point or an exponent. The point stays where it is for powers of ten from -5 to
15. -/
def numberFormat : Decimal.Format :=
  { whole := .shortest
    pointZero := true
    signedZero := true
    tie := .even
    plain := some (-5, 15) }

/-- The text of a number, or none: JSON writes the infinities and NaN as `null`. -/
def numberText? (x : Float) : Option String :=
  match Decimal.Binary.ofFloat x with
  | .finite .. => some (numberFormat.text x)
  | _ => none

/-- A character inside quotes: the quote, the backslash and the control characters are escaped. -/
def escape (c : Char) : List Char :=
  match c with
  | '"' => ['\\', '"']
  | '\\' => ['\\', '\\']
  | '\n' => ['\\', 'n']
  | '\t' => ['\\', 't']
  | '\r' => ['\\', 'r']
  | '\x08' => ['\\', 'b']
  | '\x0c' => ['\\', 'f']
  | c =>
    if c.toNat < 32 then
      ['\\', 'u', '0', '0', Nat.digitChar (c.toNat / 16), Nat.digitChar (c.toNat % 16)]
    else
      [c]

def quote (s : String) : String :=
  String.ofList ('"' :: (s.toList.flatMap escape ++ ['"']))

mutual

/-- The document on one line. -/
def compact : Json → String
  | null => "null"
  | bool b => toString b
  | nat n => toString n
  | float x => (numberText? x).getD "null"
  | string s => quote s
  | array items => "[" ++ ",".intercalate (compactItems items) ++ "]"
  | object fields => "\x7b" ++ ",".intercalate (compactFields fields) ++ "\x7d"

def compactItems : List Json → List String
  | [] => []
  | x :: xs => compact x :: compactItems xs

def compactFields : List (String × Json) → List String
  | [] => []
  | (key, x) :: xs => (quote key ++ ":" ++ compact x) :: compactFields xs

end

/-- Items between brackets, each on a line of its own, indented below `margin`. -/
def bracket (margin opening closing : String) : List String → String
  | [] => opening ++ closing
  | items =>
    let line := "\n" ++ margin ++ "  "
    opening ++ line ++ ("," ++ line).intercalate items ++ "\n" ++ margin ++ closing

mutual

/-- The document on several lines, of which all but the first start with `margin`. -/
def prettyFrom (margin : String) : Json → String
  | array items => bracket margin "[" "]" (prettyItems (margin ++ "  ") items)
  | object fields => bracket margin "\x7b" "\x7d" (prettyFields (margin ++ "  ") fields)
  | null => "null"
  | bool b => toString b
  | nat n => toString n
  | float x => (numberText? x).getD "null"
  | string s => quote s

def prettyItems (margin : String) : List Json → List String
  | [] => []
  | x :: xs => prettyFrom margin x :: prettyItems margin xs

def prettyFields (margin : String) : List (String × Json) → List String
  | [] => []
  | (key, x) :: xs => (quote key ++ ": " ++ prettyFrom margin x) :: prettyFields margin xs

end

/-- The document on several lines. -/
def pretty (x : Json) : String :=
  prettyFrom "" x

end Json

end Lox
