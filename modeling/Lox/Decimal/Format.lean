import Lox.Decimal.Shortest

/-!
# Decimal texts of doubles

Every text of a number in this library is one `Format` applied to a double. The formats differ in
how whole numbers are written, in whether minus zero keeps its sign, and in where an exponent takes
over from leading and trailing zeros.
-/

namespace Lox.Decimal

/-- The digits of a whole number: all of its own, or the shortest that read back, padded with
zeros. -/
inductive WholeDigits where
  | exact
  | shortest
  deriving DecidableEq, Repr

/-- A way of writing doubles. -/
structure Format where
  whole : WholeDigits
  /-- Whole numbers end in `.0`. -/
  pointZero : Bool
  /-- Minus zero keeps its sign. -/
  signedZero : Bool
  tie : Tie := .up
  /-- The powers of ten of the first digit that are written without an exponent, if not all. -/
  plain : Option (Int × Int) := none
  deriving DecidableEq, Repr

def zeros (n : Nat) : List Char :=
  List.replicate n '0'

/-- The number written out with its point, and without an exponent. -/
def Scaled.plain (d : Scaled) : List Char :=
  let ds := Nat.toDigits 10 d.digits
  if 0 ≤ d.exponent then
    ds ++ zeros d.exponent.toNat
  else
    let places := (-d.exponent).toNat
    if places < ds.length then
      ds.take (ds.length - places) ++ '.' :: ds.drop (ds.length - places)
    else
      '0' :: '.' :: (zeros (places - ds.length) ++ ds)

/-- The number as one digit, the rest after a point, and a signed power of ten. -/
def Scaled.scientific (d : Scaled) : List Char :=
  let ds := Nat.toDigits 10 d.digits
  let power := d.exponent + (ds.length - 1 : Nat)
  let sign := if power < 0 then '-' else '+'
  let fraction := if ds.length ≤ 1 then [] else '.' :: ds.drop 1
  ds.take 1 ++ fraction ++ 'e' :: sign :: Nat.toDigits 10 power.natAbs

namespace Format

/-- Whether a decimal is written without an exponent. -/
def isPlain (f : Format) (d : Scaled) : Bool :=
  match f.plain with
  | none => true
  | some (least, greatest) =>
    let power := d.exponent + (digitCount d.digits : Int) - 1
    least ≤ power ∧ power ≤ greatest

/-- The digits of `m * 2 ^ q`, without a sign. -/
def magnitude (f : Format) (m : Nat) (q : Int) : List Char :=
  let suffix := if f.pointZero then ['.', '0'] else []
  match m, whole? m q, f.whole with
  | 0, _, _ => '0' :: suffix
  | _, some n, .exact => Nat.toDigits 10 n ++ suffix
  | _, n?, _ =>
    let d := shortest f.tie m q
    if f.isPlain d then
      if n?.isSome then d.plain ++ suffix else d.plain
    else
      d.scientific

def ofBinary (f : Format) : Binary → List Char
  | .nan => "NaN".toList
  | .infinite negative => (if negative then ['-'] else []) ++ "inf".toList
  | .finite negative m q =>
    (if negative ∧ (m ≠ 0 ∨ f.signedZero) then ['-'] else []) ++ f.magnitude m q

/-- The text of a double. -/
def text (f : Format) (x : Float) : String :=
  String.ofList (f.ofBinary (Binary.ofFloat x))

end Format

end Lox.Decimal
