import Lox.Proofs.Decimal.Interval

/-!
# The shortest decimal reads back

The decimal that `shortest` gives lies in the interval around its double (`contains_shortest`). On
every grid that is tried, the points next to the double are looked at; where neither of them is in
the interval, the interval is no wider than the step of the grid (`width_le_of_onGrid?`). The step
of the seventeenth grid is smaller than that (`step_lt_width`), so the search comes to a point.
-/

namespace Lox.Decimal

variable {m : Nat} {q p e : Int} {i : Interval} {tie : Tie} {d : Scaled}

/-- The number that the decimal is. -/
def Scaled.value (d : Scaled) : ℚ :=
  d.digits * 10 ^ d.exponent

/-! ## Points of a grid -/

/-- A point of the grid, as the quotient that stands for it. -/
theorem point_eq (k : Nat) (e : Int) :
    ((k * Nat.pow 10 e.toNat : Nat) : ℚ) / (Nat.pow 10 (-e).toNat : Nat) = k * 10 ^ e := by
  have h := pow_div_pow (b := 10) (Nat.succ_ne_zero 9) e
  rw [Nat.cast_mul, mul_div_assoc]
  exact congrArg _ h

theorem holds_point_iff (hi : 0 < i.den) (k : Nat) (e : Int) :
    i.holds (k * Nat.pow 10 e.toNat) (Nat.pow 10 (-e).toNat) = true ↔
      i.Contains (k * 10 ^ e) := by
  have hup : 0 < Nat.pow 10 (-e).toNat := Nat.pow_pos (Nat.succ_pos 9)
  rw [Interval.holds_iff hi hup, point_eq]

/-- What is taken from a grid is in the interval. -/
theorem contains_of_onGrid? (hi : 0 < i.den) (h : i.onGrid? tie e = some d) :
    i.Contains d.value := by
  unfold Interval.onGrid? at h
  dsimp only at h
  split at h
  · rename_i hd hd'
    have hlower := (holds_point_iff hi _ e).1 hd
    have hupper := (holds_point_iff hi _ e).1 hd'
    obtain rfl := Option.some.inj h
    unfold Scaled.value
    dsimp only
    split
    · exact hupper
    · exact hlower
  · rename_i hd _
    obtain rfl := Option.some.inj h
    exact (holds_point_iff hi _ e).1 hd
  · rename_i _ hd'
    obtain rfl := Option.some.inj h
    exact (holds_point_iff hi _ e).1 hd'
  · cases h

/-- Where a grid has no point for the middle, the interval is no wider than its step. -/
theorem width_le_of_onGrid? (hi : 0 < i.den) (hlow : i.low < i.mid) (hhigh : i.mid < i.high)
    (h : i.onGrid? tie e = none) : (i.high : ℚ) / i.den - (i.low : ℚ) / i.den ≤ 10 ^ e := by
  have hden : (0 : ℚ) < i.den := Nat.cast_pos.2 hi
  have hlow' : (i.low : ℚ) / i.den < (i.mid : ℚ) / i.den :=
    div_lt_div_of_pos_right (Nat.cast_lt.2 hlow) hden
  have hhigh' : (i.mid : ℚ) / i.den < (i.high : ℚ) / i.den :=
    div_lt_div_of_pos_right (Nat.cast_lt.2 hhigh) hden
  have hdown : 0 < Nat.pow 10 e.toNat := Nat.pow_pos (Nat.succ_pos 9)
  have hup : 0 < Nat.pow 10 (-e).toNat := Nat.pow_pos (Nat.succ_pos 9)
  unfold Interval.onGrid? at h
  dsimp only at h
  generalize hk : i.mid * Nat.pow 10 (-e).toNat / (i.den * Nat.pow 10 e.toNat) = k at h
  -- The middle lies between the points `k` and `k + 1`.
  have hfloor : (k : ℚ) * 10 ^ e ≤ (i.mid : ℚ) / i.den := by
    rw [← point_eq, div_le_div_iff₀ (Nat.cast_pos.2 hup) hden]
    have := Nat.div_mul_le_self (i.mid * Nat.pow 10 (-e).toNat) (i.den * Nat.pow 10 e.toNat)
    rw [hk, Nat.mul_comm i.den, ← Nat.mul_assoc] at this
    exact_mod_cast this
  have hceil : (i.mid : ℚ) / i.den < ((k + 1 : Nat) : ℚ) * 10 ^ e := by
    rw [← point_eq, div_lt_div_iff₀ hden (Nat.cast_pos.2 hup)]
    have := Nat.lt_mul_div_succ (i.mid * Nat.pow 10 (-e).toNat) (Nat.mul_pos hi hdown)
    rw [hk] at this
    exact_mod_cast this.trans_eq (by ring)
  split at h
  · cases h
  · cases h
  · cases h
  · rename_i hd hd'
    have hbelow : (k : ℚ) * 10 ^ e ≤ (i.low : ℚ) / i.den := by
      by_contra hlt
      have := (holds_point_iff hi k e).2 <|
        Interval.contains_of_lt (not_le.1 hlt) (hfloor.trans_lt hhigh')
      rw [hd] at this
      cases this
    have habove : (i.high : ℚ) / i.den ≤ ((k + 1 : Nat) : ℚ) * 10 ^ e := by
      by_contra hlt
      have := (holds_point_iff hi (k + 1) e).2 <|
        Interval.contains_of_lt (hlow'.trans hceil) (not_le.1 hlt)
      rw [hd'] at this
      cases this
    push_cast at habove
    linarith

/-! ## The search -/

/-- A search that comes by a grid with a point ends with the point of some grid. -/
theorem search_spec : ∀ (grids : Nat) (e : Int),
    (∃ k < grids, i.onGrid? tie (e - (k : Nat)) ≠ none) →
      ∃ e', i.onGrid? tie e' = some (i.search tie grids e)
  | 0, _, ⟨_, hk, _⟩ => absurd hk (Nat.not_lt_zero _)
  | grids + 1, e, ⟨k, hk, hpoint⟩ => by
    unfold Interval.search
    cases h : i.onGrid? tie e with
    | some d => exact ⟨e, h⟩
    | none =>
      cases k with
      | zero =>
        rw [Nat.cast_zero, sub_zero] at hpoint
        exact absurd h hpoint
      | succ k =>
        refine search_spec grids (e - 1) ⟨k, Nat.lt_of_succ_lt_succ hk, ?_⟩
        rwa [show e - 1 - (k : Int) = e - ((k + 1 : Nat) : Int) by push_cast; ring]

theorem pow_digitCount_le {n : Nat} (hn : n ≠ 0) : 10 ^ (digitCount n - 1) ≤ n := by
  unfold digitCount
  rw [if_neg hn]
  by_contra hlt
  have hlt := not_le.1 hlt
  rcases Nat.eq_zero_or_pos ((Nat.toDigits 10 n).length - 1) with hone | hpos
  · rw [hone, pow_zero, Nat.lt_one_iff] at hlt
    exact hn hlt
  · have := (Nat.length_toDigits_le_iff (Nat.lt_of_sub_eq_succ rfl) hpos).2 hlt
    omega

theorem lt_pow_digitCount (n : Nat) : n < 10 ^ digitCount n := by
  unfold digitCount
  split
  · simp_all
  · exact (Nat.length_toDigits_le_iff (Nat.lt_of_sub_eq_succ rfl)
      (Nat.length_toDigits_pos)).1 (Nat.le_refl _)

theorem pow_magnitude_le {num den : Nat} (hnum : 0 < num) (hden : 0 < den) :
    (10 : ℚ) ^ magnitude num den ≤ (num : ℚ) / den := by
  have hnum' : (0 : ℚ) < num := Nat.cast_pos.2 hnum
  have hden' : (0 : ℚ) < den := Nat.cast_pos.2 hden
  unfold magnitude
  rw [le_div_iff₀ hden']
  split
  · rename_i hle
    have hquot : num / den ≠ 0 := (Nat.div_pos hle hden).ne'
    have hcount : 0 < digitCount (num / den) := by
      unfold digitCount
      rw [if_neg hquot]
      exact Nat.length_toDigits_pos
    have hpow := Nat.mul_le_of_le_div _ _ _ (pow_digitCount_le hquot)
    rw [← Nat.cast_pred hcount, zpow_natCast]
    exact_mod_cast hpow
  · have hlt := lt_pow_digitCount ((den - 1) / num)
    have hle : den ≤ num * 10 ^ digitCount ((den - 1) / num) := by
      have := Nat.lt_mul_of_div_lt hlt hnum
      rw [Nat.mul_comm] at this
      omega
    rw [zpow_neg, zpow_natCast, inv_mul_le_iff₀ (by positivity)]
    rw [mul_comm]
    exact_mod_cast hle

/-- Sixteen grids below the first digit the step is smaller than the interval. -/
theorem step_lt_width (hc : Canonical m q) (hp : (10 : ℚ) ^ p ≤ m * 2 ^ q) :
    (10 : ℚ) ^ (p - 16) < (2 + below m q : Nat) * 2 ^ (q - 2) := by
  have hu : (0 : ℚ) < 2 ^ (q - 2) := by positivity
  have hsplit : (2 : ℚ) ^ q = 4 * 2 ^ (q - 2) := by
    rw [zpow_sub₀ two_ne_zero]
    norm_num
    ring
  have hstep : (10 : ℚ) ^ (p - 16) = 10 ^ p / 10 ^ 16 := by
    rw [zpow_sub₀ (by norm_num)]
    norm_cast
  have hquarters : 4 * m < (2 + below m q) * 10 ^ 16 := by
    have hlt := hc.lt
    have hhidden := hidden_eq
    unfold below
    split <;> omega
  have hcast : ((4 * m : Nat) : ℚ) < ((2 + below m q) * 10 ^ 16 : Nat) := Nat.cast_lt.2 hquarters
  push_cast at hcast ⊢
  rw [hstep, div_lt_iff₀ (by norm_num)]
  calc (10 : ℚ) ^ p ≤ m * 2 ^ q := hp
    _ = 4 * m * 2 ^ (q - 2) := by rw [hsplit]; ring
    _ < (2 + below m q) * 10 ^ 16 * 2 ^ (q - 2) := mul_lt_mul_of_pos_right hcast hu
    _ = (2 + below m q) * 2 ^ (q - 2) * 10 ^ 16 := by ring

/-! ## Digits without zeros at the end -/

theorem value_go : ∀ (fuel : Nat) (d : Scaled), (Scaled.reduce.go fuel d).value = d.value
  | 0, _ => rfl
  | fuel + 1, d => by
    unfold Scaled.reduce.go
    split
    · rename_i h
      rw [value_go fuel]
      unfold Scaled.value
      have hdigits : ((d.digits / 10 : Nat) : ℚ) * 10 = d.digits := by
        exact_mod_cast Nat.div_mul_cancel (Nat.dvd_of_mod_eq_zero h.2)
      rw [← hdigits, zpow_add_one₀ (by norm_num)]
      ring
    · rfl

theorem value_reduce (d : Scaled) : d.reduce.value = d.value :=
  value_go d.digits d

/-- The shortest decimal of a double rounds to it. -/
theorem contains_shortest (hc : Canonical m q) (hm : 0 < m) (tie : Tie) :
    (Interval.around m q).Contains (shortest tie m q).value := by
  have hden := around_den_pos m q
  have hscale : 0 < Nat.pow 2 (q - 2).toNat := Nat.pow_pos Nat.zero_lt_two
  have hbelow : 0 < below m q ∧ below m q ≤ 2 := by
    unfold below
    split <;> omega
  have hlow : (Interval.around m q).low < (Interval.around m q).mid := by
    show (4 * m - below m q) * _ < 4 * m * _
    exact Nat.mul_lt_mul_of_pos_right (by omega) hscale
  have hhigh : (Interval.around m q).mid < (Interval.around m q).high :=
    Nat.mul_lt_mul_of_pos_right (by omega) hscale
  have hmid : 0 < (Interval.around m q).mid := Nat.mul_pos (by omega) hscale
  have hp := pow_magnitude_le hmid hden
  rw [around_mid_eq] at hp
  have hpoint : (Interval.around m q).onGrid? tie
      (magnitude (Interval.around m q).mid (Interval.around m q).den - (16 : Nat)) ≠ none := by
    intro hnone
    have hwidth := width_le_of_onGrid? hden hlow hhigh hnone
    have hstep := step_lt_width hc hp
    rw [around_low, around_high, ← sub_mul, ← Nat.cast_sub (by omega),
      show 4 * m + 2 - (4 * m - below m q) = 2 + below m q by omega] at hwidth
    exact absurd hwidth (not_le.2 hstep)
  obtain ⟨e, he⟩ := search_spec 17 _ ⟨16, Nat.lt_succ_self 16, hpoint⟩
  unfold shortest
  rw [value_reduce]
  exact contains_of_onGrid? hden he

end Lox.Decimal
