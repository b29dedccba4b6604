import Lox.Decimal.Shortest
import Mathlib

/-!
# Intervals around doubles

The rationals that round to a double lie between two others (`Interval.Contains`). A double is
written with the least exponent that its significand allows (`Canonical`), so the larger of two has
the larger exponent or, with the same exponent, the larger significand. So no rational rounds to two
of them (`Canonical.eq_of_contains`): their intervals at most share an end, and of two neighbours
only the even one keeps it.
-/

namespace Lox.Decimal

variable {m m' : Nat} {q q' : Int} {x : ℚ}

/-- A significand and an exponent as a double has them. -/
structure Canonical (m : Nat) (q : Int) : Prop where
  lt : m < 2 * Binary.hidden
  least : Binary.minExponent ≤ q
  normal : q = Binary.minExponent ∨ Binary.hidden ≤ m

/-- How far the interval reaches below the double, in quarters of the unit of its last place. -/
def below (m : Nat) (q : Int) : Nat :=
  if m = Binary.hidden ∧ Binary.minExponent < q then 1 else 2

theorem hidden_eq : Binary.hidden = 4503599627370496 :=
  rfl

theorem below_le (m : Nat) (q : Int) : below m q ≤ 2 := by
  unfold below
  split <;> omega

namespace Interval

variable {i : Interval}

/-- The rationals of the interval, with its ends if it is closed. -/
def Contains (i : Interval) (x : ℚ) : Prop :=
  ((i.low : ℚ) / i.den ≤ x ∧ x ≤ (i.high : ℚ) / i.den) ∧
    (i.closed = false → (i.low : ℚ) / i.den < x ∧ x < (i.high : ℚ) / i.den)

theorem contains_of_lt (hlow : (i.low : ℚ) / i.den < x) (hhigh : x < (i.high : ℚ) / i.den) :
    i.Contains x :=
  ⟨⟨hlow.le, hhigh.le⟩, fun _ => ⟨hlow, hhigh⟩⟩

theorem holds_iff {num den : Nat} (hi : 0 < i.den) (hden : 0 < den) :
    i.holds num den = true ↔ i.Contains ((num : ℚ) / den) := by
  have hi' : (0 : ℚ) < i.den := Nat.cast_pos.2 hi
  have hden' : (0 : ℚ) < den := Nat.cast_pos.2 hden
  unfold Contains
  rw [div_le_div_iff₀ hi' hden', div_le_div_iff₀ hden' hi', div_lt_div_iff₀ hi' hden',
    div_lt_div_iff₀ hden' hi']
  norm_cast
  unfold holds
  cases i.closed
  · simp only [Bool.false_eq_true, if_false, decide_eq_true_eq, forall_const]
    exact ⟨fun h => ⟨⟨h.1.le, h.2.le⟩, h⟩, And.right⟩
  · simp

end Interval

/-- A power with a signed exponent, as the quotient that stands for it. -/
theorem pow_div_pow {b : Nat} (hb : b ≠ 0) (e : Int) :
    ((b ^ e.toNat : Nat) : ℚ) / (b ^ (-e).toNat : Nat) = (b : ℚ) ^ e := by
  have hb' : (b : ℚ) ≠ 0 := Nat.cast_ne_zero.2 hb
  obtain ⟨n, rfl | rfl⟩ := e.eq_nat_or_neg
  · simp
  · simp

theorem around_den_pos (m : Nat) (q : Int) : 0 < (Interval.around m q).den :=
  Nat.pow_pos Nat.zero_lt_two

/-- A bound of the interval, which is given in quarters of the unit. -/
theorem around_bound (m : Nat) (q : Int) (n : Nat) :
    ((n * 2 ^ (q - 2).toNat : Nat) : ℚ) / (Interval.around m q).den = n * 2 ^ (q - 2) := by
  have h := pow_div_pow (b := 2) two_ne_zero (q - 2)
  rw [neg_sub] at h
  rw [Nat.cast_mul, mul_div_assoc]
  exact congrArg _ h

theorem around_low (m : Nat) (q : Int) : ((Interval.around m q).low : ℚ) /
    (Interval.around m q).den = (4 * m - below m q : Nat) * 2 ^ (q - 2) :=
  around_bound m q (4 * m - below m q)

theorem around_high (m : Nat) (q : Int) : ((Interval.around m q).high : ℚ) /
    (Interval.around m q).den = (4 * m + 2 : Nat) * 2 ^ (q - 2) :=
  around_bound m q (4 * m + 2)

theorem around_mid (m : Nat) (q : Int) : ((Interval.around m q).mid : ℚ) /
    (Interval.around m q).den = (4 * m : Nat) * 2 ^ (q - 2) :=
  around_bound m q (4 * m)

theorem around_mid_eq (m : Nat) (q : Int) : ((Interval.around m q).mid : ℚ) /
    (Interval.around m q).den = m * 2 ^ q := by
  have hsplit : (2 : ℚ) ^ q = 2 ^ (q - 2) * 4 := by
    rw [zpow_sub₀ two_ne_zero]
    norm_num
  rw [around_mid, hsplit]
  push_cast
  ring

theorem around_closed (m : Nat) (q : Int) :
    (Interval.around m q).closed = false ↔ m % 2 = 1 := by
  simp [Interval.around]

namespace Interval.Contains

theorem low_le (h : (around m q).Contains x) :
    ((4 * m - below m q : Nat) : ℚ) * 2 ^ (q - 2) ≤ x ∧
      (m % 2 = 1 → ((4 * m - below m q : Nat) : ℚ) * 2 ^ (q - 2) < x) := by
  rw [← around_low]
  exact ⟨h.1.1, fun hm => (h.2 ((around_closed m q).2 hm)).1⟩

theorem le_high (h : (around m q).Contains x) :
    x ≤ ((4 * m + 2 : Nat) : ℚ) * 2 ^ (q - 2) ∧
      (m % 2 = 1 → x < ((4 * m + 2 : Nat) : ℚ) * 2 ^ (q - 2)) := by
  rw [← around_high]
  exact ⟨h.1.2, fun hm => (h.2 ((around_closed m q).2 hm)).2⟩

theorem pos (h : (around m q).Contains x) (hm : 0 < m) : 0 < x := by
  have hbelow := below_le m q
  have hlow : (0 : ℚ) < (4 * m - below m q : Nat) := Nat.cast_pos.2 (by omega)
  exact lt_of_lt_of_le (by positivity) h.low_le.1

end Interval.Contains

/-- Two bounds over one unit compare as their numbers. -/
theorem le_of_mul_unit_le {a b : Nat} {u : ℚ} (hu : 0 < u) (h : (a : ℚ) * u ≤ b * u) : a ≤ b :=
  Nat.cast_le.1 (le_of_mul_le_mul_right h hu)

theorem lt_of_mul_unit_lt {a b : Nat} {u : ℚ} (hu : 0 < u) (h : (a : ℚ) * u < b * u) : a < b :=
  Nat.cast_lt.1 (lt_of_mul_lt_mul_right h hu.le)

/-- Of two doubles with the same exponent the larger one has its interval above. -/
theorem not_contains_of_lt (hlt : m < m') (h : (Interval.around m q).Contains x)
    (h' : (Interval.around m' q).Contains x) : False := by
  have hu : (0 : ℚ) < 2 ^ (q - 2) := by positivity
  have hle := le_of_mul_unit_le hu (h'.low_le.1.trans h.le_high.1)
  have hbelow := below_le m' q
  -- Only neighbours meet, and one of them is odd and does without the end.
  rcases Nat.mod_two_eq_zero_or_one m with hm | hm
  · rcases Nat.mod_two_eq_zero_or_one m' with hm' | hm'
    · omega
    · have := lt_of_mul_unit_lt hu (lt_of_lt_of_le (h'.low_le.2 hm') h.le_high.1)
      omega
  · have := lt_of_mul_unit_lt hu (lt_of_le_of_lt h'.low_le.1 (h.le_high.2 hm))
    omega

/-- Of two doubles the one with the larger exponent has its interval above. -/
theorem not_contains_of_exponent_lt (hc : Canonical m q) (hc' : Canonical m' q') (hlt : q < q')
    (h : (Interval.around m q).Contains x) (h' : (Interval.around m' q').Contains x) : False := by
  have hnormal : Binary.hidden ≤ m' :=
    hc'.normal.resolve_left (Int.ne_of_gt (lt_of_le_of_lt hc.least hlt))
  have hbelow : 2 * Binary.hidden * 2 - 1 ≤ 4 * m' - below m' q' := by
    unfold below
    split <;> rename_i hcond
    · omega
    · have hne : m' ≠ Binary.hidden := fun he => hcond ⟨he, lt_of_le_of_lt hc.least hlt⟩
      omega
  have hu : (0 : ℚ) < 2 ^ (q - 2) := by positivity
  -- The unit is at least twice as large.
  have hunit : (2 : ℚ) * 2 ^ (q - 2) ≤ 2 ^ (q' - 2) := by
    rw [← zpow_one_add₀ two_ne_zero]
    exact zpow_le_zpow_right₀ one_le_two (by omega)
  have hlow : ((2 * (2 * Binary.hidden * 2 - 1) : Nat) : ℚ) * 2 ^ (q - 2) ≤
      (4 * m' - below m' q' : Nat) * 2 ^ (q' - 2) := by
    have hcast : ((2 * Binary.hidden * 2 - 1 : Nat) : ℚ) ≤ (4 * m' - below m' q' : Nat) :=
      Nat.cast_le.2 hbelow
    calc ((2 * (2 * Binary.hidden * 2 - 1) : Nat) : ℚ) * 2 ^ (q - 2)
        = (2 * Binary.hidden * 2 - 1 : Nat) * (2 * 2 ^ (q - 2)) := by push_cast; ring
      _ ≤ (4 * m' - below m' q' : Nat) * 2 ^ (q' - 2) :=
        mul_le_mul hcast hunit (by positivity) (Nat.cast_nonneg _)
  have hlt := hc.lt
  have hhidden := hidden_eq
  rcases Nat.mod_two_eq_zero_or_one m with hm | hm
  · have := le_of_mul_unit_le hu (hlow.trans (h'.low_le.1.trans h.le_high.1))
    omega
  · have := lt_of_mul_unit_lt hu (hlow.trans_lt (h'.low_le.1.trans_lt (h.le_high.2 hm)))
    omega

/-- No rational rounds to two doubles. -/
theorem Canonical.eq_of_contains (hc : Canonical m q) (hc' : Canonical m' q')
    (h : (Interval.around m q).Contains x) (h' : (Interval.around m' q').Contains x) :
    m = m' ∧ q = q' := by
  rcases lt_trichotomy q q' with hq | rfl | hq
  · exact (not_contains_of_exponent_lt hc hc' hq h h').elim
  · rcases lt_trichotomy m m' with hm | rfl | hm
    · exact (not_contains_of_lt hm h h').elim
    · exact ⟨rfl, rfl⟩
    · exact (not_contains_of_lt hm h' h).elim
  · exact (not_contains_of_exponent_lt hc' hc hq h' h).elim

end Lox.Decimal
