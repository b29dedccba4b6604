import Lox.Decimal.Binary

/-!
# The shortest decimal that reads back

A double `m * 2 ^ q` is what every real between the midpoints to its neighbours rounds to, the
midpoints included when `m` is even. `shortest` is the decimal of the fewest digits in that
interval, and of those the nearest to the double. The search goes through the decimal grids from
coarse to fine: on a grid the two neighbours of the double are the only points to try, for if a
point of the grid lies in the interval then so does one of them.
-/

namespace Lox.Decimal

/-- The number `digits * 10 ^ exponent`. -/
structure Scaled where
  digits : Nat
  exponent : Int
  deriving DecidableEq, Repr

/-- Which of two equally near decimals is taken. -/
inductive Tie where
  | up
  | even
  deriving DecidableEq, Repr

/-- The positive reals that round to one double, over the common denominator `den`: from `low / den`
to `high / den`, around `mid / den`. -/
structure Interval where
  low : Nat
  mid : Nat
  high : Nat
  den : Nat
  closed : Bool
  deriving DecidableEq, Repr

/-- The reals that round to `m * 2 ^ q`. Below a power of two the doubles lie twice as dense. -/
def Interval.around (m : Nat) (q : Int) : Interval :=
  let below := if m = Binary.hidden ∧ Binary.minExponent < q then 1 else 2
  let scale := Nat.pow 2 (q - 2).toNat
  { low := (4 * m - below) * scale
    mid := 4 * m * scale
    high := (4 * m + 2) * scale
    den := Nat.pow 2 (2 - q).toNat
    closed := m % 2 = 0 }

/-- Whether the interval holds `num / den`. -/
def Interval.holds (i : Interval) (num den : Nat) : Bool :=
  if i.closed then
    i.low * den ≤ num * i.den ∧ num * i.den ≤ i.high * den
  else
    i.low * den < num * i.den ∧ num * i.den < i.high * den

/-- How many decimal digits a number has; zero has none. -/
def digitCount (n : Nat) : Nat :=
  if n = 0 then 0 else (Nat.toDigits 10 n).length

/-- The `p` with `10 ^ p ≤ num / den < 10 ^ (p + 1)`. -/
def magnitude (num den : Nat) : Int :=
  if den ≤ num then
    (digitCount (num / den) : Int) - 1
  else
    -(digitCount ((den - 1) / num) : Int)

/-- The point of the grid of step `10 ^ e` to take for the interval's middle, if the interval holds
one. -/
def Interval.onGrid? (i : Interval) (tie : Tie) (e : Int) : Option Scaled :=
  let up := Nat.pow 10 (-e).toNat
  let down := Nat.pow 10 e.toNat
  let num := i.mid * up
  let den := i.den * down
  let d := num / den
  let twice := 2 * (num % den)
  match i.holds (d * down) up, i.holds ((d + 1) * down) up with
  | true, true =>
    let upper := den < twice ∨ den = twice ∧ (tie = .up ∨ d % 2 = 1)
    some ⟨if upper then d + 1 else d, e⟩
  | true, false => some ⟨d, e⟩
  | false, true => some ⟨d + 1, e⟩
  | false, false => none

/-- The first grid, from step `10 ^ e` on downwards, that has a point in the interval. Seventeen
digits are enough for every double. -/
def Interval.search (i : Interval) (tie : Tie) : Nat → Int → Scaled
  | 0, e => ⟨0, e⟩
  | grids + 1, e => (i.onGrid? tie e).getD (i.search tie grids (e - 1))

/-- The same number with no zero at the end of its digits. -/
def Scaled.reduce (d : Scaled) : Scaled :=
  go d.digits d
where
  go : Nat → Scaled → Scaled
    | 0, d => d
    | fuel + 1, d =>
      if d.digits ≠ 0 ∧ d.digits % 10 = 0 then go fuel ⟨d.digits / 10, d.exponent + 1⟩ else d

/-- The shortest decimal that rounds to `m * 2 ^ q`, for a positive `m`. -/
def shortest (tie : Tie) (m : Nat) (q : Int) : Scaled :=
  let i := Interval.around m q
  (i.search tie 17 (magnitude i.mid i.den)).reduce

end Lox.Decimal
