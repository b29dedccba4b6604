/-!
# Numerals

The double that a numeral denotes: digits with an optional fraction (`ofDigits`), and the signed
form with an exponent and the names of the infinities and of NaN (`float?`). A numeral denotes the
double nearest to it.
-/

namespace Lox.Decimal

/-- The number that a row of decimal digits spells. -/
def natOfDigits (ds : List Char) : Nat :=
  ds.foldl (fun n c => 10 * n + (c.toNat - '0'.toNat)) 0

/-- The double nearest to `whole.fraction`. -/
def ofDigits (whole fraction : List Char) : Float :=
  Float.ofScientific (natOfDigits (whole ++ fraction)) true fraction.length

/-- The double nearest to `n * 10 ^ e`. Past the reach of the doubles the answer needs no power. -/
def ofPower (n : Nat) (e : Int) : Float :=
  let size := (Nat.toDigits 10 n).length + e
  if n = 0 ∨ size < -400 then 0.0
  else if 400 < size then 1.0 / 0.0
  else Float.ofScientific n (e ≤ 0) e.natAbs

/-- A sign, and what follows it. -/
def splitSign : List Char → Bool × List Char
  | '-' :: cs => (true, cs)
  | '+' :: cs => (false, cs)
  | cs => (false, cs)

/-- The power of ten after a numeral's digits: nothing, or `e` and a signed row of digits. -/
def exponent? : List Char → Option Int
  | [] => some 0
  | c :: cs =>
    let (negative, ds) := splitSign cs
    if (c = 'e' ∨ c = 'E') ∧ ds ≠ [] ∧ ds.all Char.isDigit then
      some (if negative then -(natOfDigits ds : Int) else natOfDigits ds)
    else
      none

/-- The double that unsigned text denotes. -/
def unsigned? (cs : List Char) : Option Float :=
  let name := String.ofList (cs.map Char.toLower)
  if name = "inf" ∨ name = "infinity" then some (1.0 / 0.0)
  else if name = "nan" then some (0.0 / 0.0)
  else
    let whole := cs.takeWhile Char.isDigit
    let (fraction, rest) := match cs.dropWhile Char.isDigit with
      | '.' :: cs => (cs.takeWhile Char.isDigit, cs.dropWhile Char.isDigit)
      | cs => ([], cs)
    if whole = [] ∧ fraction = [] then none
    else (exponent? rest).map fun e =>
      ofPower (natOfDigits (whole ++ fraction)) (e - fraction.length)

/-- The double that a text denotes, if it is a numeral. -/
def float? (text : String) : Option Float :=
  let (negative, cs) := splitSign text.toList
  (unsigned? cs).map fun x => if negative then -x else x

end Lox.Decimal
