/-!
# Doubles as binary fractions

`Binary.ofFloat` reads the fields of a double: every finite double is `± m * 2 ^ q` for a natural
`m` and an integer `q`, and everything the decimal texts of this library say about a double is
said of `m` and `q`, in exact arithmetic.
-/

namespace Lox.Decimal

/-- What a double stands for. -/
inductive Binary where
  | nan
  | infinite (negative : Bool)
  | finite (negative : Bool) (significand : Nat) (exponent : Int)
  deriving DecidableEq, Repr

namespace Binary

/-- The least exponent, that of the subnormal doubles. -/
def minExponent : Int := -1074

/-- The significand of a power of two above the subnormals. -/
def hidden : Nat := Nat.pow 2 52

def ofBits (bits : Nat) : Binary :=
  let negative := Nat.pow 2 63 ≤ bits
  let field := bits / Nat.pow 2 52 % Nat.pow 2 11
  let fraction := bits % Nat.pow 2 52
  if field = 2047 then
    if fraction = 0 then .infinite negative else .nan
  else if field = 0 then
    .finite negative fraction minExponent
  else
    .finite negative (hidden + fraction) (minExponent + (field - 1 : Nat))

def ofFloat (x : Float) : Binary :=
  ofBits x.toBits.toNat

end Binary

/-- `m * 2 ^ q`, when it is a natural number. -/
def whole? (m : Nat) (q : Int) : Option Nat :=
  if 0 ≤ q then
    some (m * Nat.pow 2 q.toNat)
  else
    let d := Nat.pow 2 (-q).toNat
    if m % d = 0 then some (m / d) else none

end Lox.Decimal
