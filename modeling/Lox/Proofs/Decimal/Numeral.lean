import Lox.Decimal.Numeral
import Mathlib

/-!
# Numerals are read

A row of digits, with a fraction or without, is a numeral, and the double that `float?` reads it as
is the one that `ofDigits` gives (`float?_digits`, `float?_fraction`). The two differ in one way:
`float?` skips the division where the quotient is far below the least double or far above the
greatest. A quotient that small rounds to zero (`div_eq_zero`), and one that large to infinity
(`pack_roundWithAccuracy`).
-/

namespace Lox.Decimal

open Float.Model Float.Model.UnpackedFloat

/-! ## Quotients out of reach -/

section Reach

variable {m k : Nat} {e : Int} {s : Sign} {a : Accuracy}

theorem mantissa_shiftRight (em : ExtendedMantissa) :
    ∀ k : Nat, (em >>> k).mantissa = em.mantissa / 2 ^ k
  | 0 => by simp [HShiftRight.hShiftRight, Nat.repeat]
  | k + 1 => by
    have hstep : (em >>> (k + 1)).mantissa = (em >>> k).mantissa / 2 := rfl
    rw [hstep, mantissa_shiftRight em k, Nat.div_div_eq_div_mul, Nat.pow_succ]

/-- A shift to the target exponent keeps a positive mantissa positive and lowers no exponent. -/
theorem shiftToTargetExponent_pos (hm : 0 < m) (he : -1074 ≤ e) :
    let shifted := shiftToTargetExponent Format.binary64 m e a
    0 < shifted.1.mantissa ∧ e ≤ shifted.2 ∧ m.log2 + e - 52 ≤ shifted.2 := by
  have hshift : (Format.binary64.targetExponent (totalExponent m e) - e).toNat = m.log2 - 52 := by
    simp only [Format.targetExponent, totalExponent, Format.mantissaBits, Format.minExponent]
    omega
  have hinitial : (ExtendedMantissa.ofMantissaAndAccuracy m a).mantissa = m := by
    rcases a with _ | (_ | _ | _) <;> rfl
  simp only [shiftToTargetExponent, shiftToExponent, hshift, mantissa_shiftRight, hinitial]
  refine ⟨Nat.div_pos ((Nat.le_log2 (Nat.ne_of_gt hm)).1 ?_) (Nat.two_pow_pos _), ?_, ?_⟩
  all_goals omega

theorem le_roundedMantissa (em : ExtendedMantissa) : em.mantissa ≤ em.roundedMantissa := by
  rcases em with ⟨m, _ | _, _ | _⟩ <;>
    simp [ExtendedMantissa.roundedMantissa, ExtendedMantissa.accuracy, Accuracy.roundToNearestEven]

/-- What is too large for a double rounds to infinity. -/
theorem pack_roundWithAccuracy (hm : 0 < m) (he : -1074 ≤ e) (hlarge : 1024 ≤ m.log2 + e) :
    (roundWithAccuracy Format.binary64 .positive m e a).pack Format.binary64 =
      packedInfinity Format.binary64 .positive := by
  obtain ⟨hpos, hle, hexp⟩ := shiftToTargetExponent_pos (a := a) hm he
  unfold roundWithAccuracy
  generalize shiftToTargetExponent Format.binary64 m e a = first at hpos hle hexp ⊢
  have hpos' : 0 < first.1.roundedMantissa := Nat.lt_of_lt_of_le hpos (le_roundedMantissa first.1)
  obtain ⟨hlast, hle', -⟩ := shiftToTargetExponent_pos (a := .exact) hpos' (he.trans hle)
  dsimp only
  generalize shiftToTargetExponent Format.binary64 first.1.roundedMantissa first.2 .exact = last
    at hlast hle' ⊢
  rw [dif_neg (Nat.ne_of_gt hlast)]
  unfold UnpackedFloat.pack
  dsimp only
  rw [if_pos]
  simp only [Format.exponentBias]
  omega

/-- A quotient of less than half the least double rounds to zero. -/
theorem div_eq_zero {c : Nat} (hm : 0 < m) (hk : 0 < k) (hc : 1075 ≤ c) (hsmall : 2 ^ c * m < k) :
    UnpackedFloat.div Format.binary64 (.finite .positive m 0 hm) (.finite .positive k 0 hk) =
      .zero .positive := by
  have hlog : c + m.log2 ≤ k.log2 := by
    refine (Nat.le_log2 (Nat.ne_of_gt hk)).2 (Nat.le_trans ?_ (Nat.le_of_lt hsmall))
    rw [Nat.pow_add]
    exact Nat.mul_le_mul_left _ (Nat.log2_self_le (Nat.ne_of_gt hm))
  have htarget :
      min (0 - 0) (Format.binary64.targetExponent (totalExponent m 0 - totalExponent k 0)) =
        -1074 := by
    simp only [Format.targetExponent, totalExponent, Format.mantissaBits, Format.minExponent]
    omega
  have hmono : ∀ b ≤ c, m <<< b ≤ 2 ^ c * m := fun b hb => by
    rw [Nat.shiftLeft_eq, Nat.mul_comm]
    exact Nat.mul_le_mul_right m (Nat.pow_le_pow_right Nat.two_pos hb)
  have hdouble : 2 * (m <<< 1074) < k :=
    calc 2 * (m <<< 1074) = m <<< 1075 := (Nat.shiftLeft_succ m 1074).symm
      _ ≤ 2 ^ c * m := hmono 1075 hc
      _ < k := hsmall
  have hshift : m <<< 1074 < k := by omega
  have hhalf : compare (2 * (m <<< 1074)) k = .lt := Nat.compare_eq_lt.2 hdouble
  have hne : m <<< 1074 ≠ 0 := Nat.ne_of_gt (Nat.shiftLeft_pos_iff.2 hm)
  simp only [UnpackedFloat.div, divCore, htarget]
  rw [show ((0 : Int) - 0 - -1074).toNat = 1074 from rfl, Nat.div_eq_of_lt hshift,
    Nat.mod_eq_of_lt hshift, accuracyOfFraction, if_neg hne, hhalf]
  rfl

/-- A quotient that is too large for a double is infinite. -/
theorem pack_div {j : Nat} (hm : 0 < m) (hk : 0 < k) (hj : 1074 ≤ j) (hlarge : 2 ^ j * k ≤ m) :
    (UnpackedFloat.div Format.binary64 (.finite .positive m 0 hm) (.finite .positive k 0 hk)).pack
      Format.binary64 = packedInfinity Format.binary64 .positive := by
  have hlog : j + k.log2 ≤ m.log2 := by
    refine (Nat.le_log2 (Nat.ne_of_gt hm)).2 (Nat.le_trans ?_ hlarge)
    rw [Nat.pow_add]
    exact Nat.mul_le_mul_left _ (Nat.log2_self_le (Nat.ne_of_gt hk))
  have htarget :
      min (0 - 0) (Format.binary64.targetExponent (totalExponent m 0 - totalExponent k 0)) = 0 := by
    simp only [Format.targetExponent, totalExponent, Format.mantissaBits, Format.minExponent]
    omega
  have hquotient : 2 ^ j ≤ m / k := (Nat.le_div_iff_mul_le hk).2 hlarge
  have hpos : 0 < m / k := Nat.lt_of_lt_of_le (Nat.two_pow_pos j) hquotient
  have hbits : j ≤ (m / k).log2 := (Nat.le_log2 (Nat.ne_of_gt hpos)).2 hquotient
  simp only [UnpackedFloat.div, divCore, htarget]
  exact pack_roundWithAccuracy (m := m / k) hpos (by decide) (by omega)

/-- A product that is too large for a double is infinite. -/
theorem pack_mul (hm : 0 < m) (hk : 0 < k) (he : -1074 ≤ e)
    (hlarge : 1024 ≤ m.log2 + e) :
    (UnpackedFloat.mul Format.binary64 (.finite .positive m e hm) (.finite .positive k 0 hk)).pack
      Format.binary64 = packedInfinity Format.binary64 .positive := by
  have hlog : m.log2 ≤ (m * k).log2 :=
    (Nat.le_log2 (Nat.ne_of_gt (Nat.mul_pos hm hk))).2
      ((Nat.log2_self_le (Nat.ne_of_gt hm)).trans (Nat.le_mul_of_pos_right m hk))
  simp only [UnpackedFloat.mul]
  exact pack_roundWithAccuracy (Nat.mul_pos hm hk) (by omega) (by omega)

end Reach

/-! ## Powers of ten out of reach -/

section Power

variable {n k : Nat}

/-- Past the first powers of ten a numeral is rounded once, as a quotient. -/
theorem ofScientific_eq (h : ¬ (n < 2 ^ 53 ∧ k ≤ 22)) :
    Float.ofScientific n true k =
      ⟨Float.Model.pack (UnpackedFloat.ofScientific Format.binary64 n (-(k : Int)))⟩ := by
  have hneg : Int.negOfNat k = -(k : Int) := Int.negOfNat_eq
  unfold Float.ofScientific
  rw [dif_neg h, ← hneg]
  rfl

theorem ofScientific_zero (k : Nat) : Float.ofScientific 0 true k = 0.0 := by
  by_cases hk : k ≤ 22
  · interval_cases k <;> decide
  · rw [ofScientific_eq fun h => hk h.2]
    rfl

theorem two_pow_le (j : Nat) : 2 ^ (3 * j) ≤ 10 ^ j := by
  rw [Nat.pow_mul]
  exact Nat.pow_le_pow_left (by decide) j

/-- A numeral with many more places than digits is read as zero. -/
theorem ofScientific_small {d j : Nat} (hn : n < 10 ^ d) (hj : 400 ≤ j) (hk : d + j ≤ k) :
    Float.ofScientific n true k = 0.0 := by
  rcases Nat.eq_zero_or_pos n with rfl | hpos
  · exact ofScientific_zero k
  have hsmall : 2 ^ (3 * j) * n < 10 ^ k :=
    calc 2 ^ (3 * j) * n ≤ 10 ^ j * n := Nat.mul_le_mul_right n (two_pow_le j)
      _ < 10 ^ j * 10 ^ d := Nat.mul_lt_mul_of_pos_left hn (Nat.pow_pos (by decide))
      _ = 10 ^ (d + j) := by rw [← Nat.pow_add, Nat.add_comm]
      _ ≤ 10 ^ k := Nat.pow_le_pow_right (by decide) hk
  have hzero : UnpackedFloat.ofScientific Format.binary64 n (-(k : Int)) = .zero .positive := by
    unfold UnpackedFloat.ofScientific
    rw [dif_neg (Nat.ne_of_gt hpos), if_neg (by dsimp only; omega)]
    split
    · rfl
    · rw [if_neg (by omega)]
      simp only [Int.neg_neg, Int.toNat_natCast]
      exact div_eq_zero hpos (Nat.pow_pos (by decide)) (by omega) hsmall
  rw [ofScientific_eq fun h => by omega, hzero]
  rfl

/-- A numeral with many more digits than places is read as infinity. -/
theorem ofScientific_large {j : Nat} (hj : 400 ≤ j) (hn : 10 ^ (k + j) ≤ n) :
    Float.ofScientific n true k = 1.0 / 0.0 := by
  have hpos : 0 < n := Nat.lt_of_lt_of_le (Nat.pow_pos (by decide)) hn
  have hbits : 3 * (k + j) ≤ n.log2 :=
    (Nat.le_log2 (Nat.ne_of_gt hpos)).2 ((two_pow_le (k + j)).trans hn)
  have hinfinite : (UnpackedFloat.ofScientific Format.binary64 n (-(k : Int))).pack
      Format.binary64 = packedInfinity Format.binary64 .positive := by
    unfold UnpackedFloat.ofScientific
    rw [dif_neg (Nat.ne_of_gt hpos), if_neg (by dsimp only; omega), if_neg (by dsimp only; omega)]
    split
    · have hk : k = 0 := by omega
      subst hk
      have hlog : n.log2 ≤ (n <<< Format.binary64.mantissaBits).log2 :=
        (Nat.le_log2 (Nat.ne_of_gt (Nat.shiftLeft_pos_iff.2 hpos))).2
          ((Nat.log2_self_le (Nat.ne_of_gt hpos)).trans Nat.le_shiftLeft)
      refine pack_mul (Nat.shiftLeft_pos_iff.2 hpos) (Nat.pow_pos (by decide)) (by decide) ?_
      simp only [Format.mantissaBits] at hlog ⊢
      omega
    · simp only [Int.neg_neg, Int.toNat_natCast]
      refine pack_div hpos (Nat.pow_pos (by decide)) (j := 3 * j) (by omega) ?_
      calc 2 ^ (3 * j) * 10 ^ k ≤ 10 ^ j * 10 ^ k := Nat.mul_le_mul_right _ (two_pow_le j)
        _ = 10 ^ (k + j) := by rw [← Nat.pow_add, Nat.add_comm]
        _ ≤ n := hn
  have hlarge : ¬ (n < 2 ^ 53 ∧ k ≤ 22) := by
    rintro ⟨hlt, -⟩
    have := (Nat.log2_lt (Nat.ne_of_gt hpos)).2 hlt
    omega
  rw [ofScientific_eq hlarge]
  unfold Float.Model.pack
  simp only [hinfinite]
  rfl

/-- Where the power of ten is left out, the numeral is read as with it. -/
theorem ofPower_neg (n k : Nat) : ofPower n (-(k : Int)) = Float.ofScientific n true k := by
  have hdigits : n < 10 ^ (Nat.toDigits 10 n).length :=
    (Nat.length_toDigits_le_iff (by decide) Nat.length_toDigits_pos).1 (Nat.le_refl _)
  unfold ofPower
  dsimp only
  split
  · rename_i h
    rcases h with rfl | h
    · exact (ofScientific_zero k).symm
    · exact (ofScientific_small hdigits (j := k - (Nat.toDigits 10 n).length)
        (by omega) (by omega)).symm
  · split
    · refine (ofScientific_large (j := (Nat.toDigits 10 n).length - 1 - k) (by omega) ?_).symm
      have hlong := mt (Nat.length_toDigits_le_iff (b := 10) (n := n)
        (k := (Nat.toDigits 10 n).length - 1) (by decide) (by omega)).2 (by omega)
      rw [show k + ((Nat.toDigits 10 n).length - 1 - k) = (Nat.toDigits 10 n).length - 1 by omega]
      exact Nat.le_of_not_lt hlong
    · have hneg : -(k : Int) ≤ 0 := by omega
      rw [Int.natAbs_neg, Int.natAbs_natCast, decide_eq_true hneg]

end Power

/-! ## Rows of digits -/

section Digits

variable {c : Char} {cs whole fraction : List Char}

theorem toLower_of_isDigit (h : c.isDigit = true) : c.toLower = c := by
  have hle : c.val ≤ '9'.val := by
    simp only [Char.isDigit, Bool.and_eq_true, decide_eq_true_eq] at h
    exact h.2
  unfold Char.toLower
  rw [dif_neg]
  intro hupper
  exact absurd (UInt32.le_trans hupper.1 hle) (by decide)

theorem splitSign_of_isDigit (h : c.isDigit = true) : splitSign (c :: cs) = (false, c :: cs) := by
  unfold splitSign
  split
  · rename_i heq
    cases heq
    cases h
  · rename_i heq
    cases heq
    cases h
  · rfl

/-- Text that starts with a digit is not the name of a double. -/
theorem ne_name_of_isDigit (h : c.isDigit = true) (d : Char) (name : List Char)
    (hd : d.isDigit = false) :
    String.ofList ((c :: cs).map Char.toLower) ≠ String.ofList (d :: name) := by
  rw [List.map_cons, toLower_of_isDigit h]
  intro heq
  obtain ⟨rfl, -⟩ := List.cons.inj (String.ofList_injective heq)
  exact absurd (h.symm.trans hd) (by decide)

/-- Text that starts with a digit is read as digits, places and a power of ten. -/
theorem float?_of_isDigit (h : c.isDigit = true) : float? (String.ofList (c :: cs)) =
    let (fraction, rest) := match (c :: cs).dropWhile Char.isDigit with
      | '.' :: cs => (cs.takeWhile Char.isDigit, cs.dropWhile Char.isDigit)
      | cs => ([], cs)
    (exponent? rest).map fun e =>
      ofPower (natOfDigits ((c :: cs).takeWhile Char.isDigit ++ fraction))
        (e - fraction.length) := by
  have hinf : String.ofList ((c :: cs).map Char.toLower) ≠ "inf" :=
    ne_name_of_isDigit h 'i' ['n', 'f'] rfl
  have hinfinity : String.ofList ((c :: cs).map Char.toLower) ≠ "infinity" :=
    ne_name_of_isDigit h 'i' ['n', 'f', 'i', 'n', 'i', 't', 'y'] rfl
  have hnan : String.ofList ((c :: cs).map Char.toLower) ≠ "nan" :=
    ne_name_of_isDigit h 'n' ['a', 'n'] rfl
  have hwhole : (c :: cs).takeWhile Char.isDigit ≠ [] := by simp [h]
  unfold float? unsigned?
  rw [String.toList_ofList, splitSign_of_isDigit h]
  dsimp only
  rw [if_neg (not_or.2 ⟨hinf, hinfinity⟩), if_neg hnan, if_neg fun h => hwhole h.1]
  exact Option.map_id'

section

variable (hne : whole ≠ []) (hwhole : ∀ c ∈ whole, c.isDigit = true)

include hne hwhole

/-- A row of digits is read as its nearest double. -/
theorem float?_digits : float? (String.ofList whole) = some (ofDigits whole []) := by
  obtain ⟨c, cs, rfl⟩ := List.exists_cons_of_ne_nil hne
  have htake : ((c :: cs) ++ []).takeWhile Char.isDigit = c :: cs ++ [] :=
    List.takeWhile_append_of_pos hwhole
  have hdrop : ((c :: cs) ++ []).dropWhile Char.isDigit = [] := List.dropWhile_append_of_pos hwhole
  rw [List.append_nil] at htake hdrop
  rw [float?_of_isDigit (hwhole c List.mem_cons_self), htake, hdrop]
  simp only [exponent?, Option.map_some, ofDigits, List.length_nil]
  exact congrArg some (ofPower_neg _ 0)

/-- Digits with a fraction are read as their nearest double. -/
theorem float?_fraction (hfraction : ∀ c ∈ fraction, c.isDigit = true) :
    float? (String.ofList (whole ++ '.' :: fraction)) = some (ofDigits whole fraction) := by
  obtain ⟨c, cs, rfl⟩ := List.exists_cons_of_ne_nil hne
  have htake : ((c :: cs) ++ '.' :: fraction).takeWhile Char.isDigit = c :: cs ++ [] :=
    List.takeWhile_append_of_pos hwhole
  have hdrop : ((c :: cs) ++ '.' :: fraction).dropWhile Char.isDigit = '.' :: fraction :=
    List.dropWhile_append_of_pos hwhole
  have hplaces : (fraction ++ []).takeWhile Char.isDigit = fraction ++ [] :=
    List.takeWhile_append_of_pos hfraction
  have hrest : (fraction ++ []).dropWhile Char.isDigit = [] :=
    List.dropWhile_append_of_pos hfraction
  rw [List.append_nil] at htake hplaces hrest
  rw [List.cons_append] at htake hdrop ⊢
  rw [float?_of_isDigit (hwhole c List.mem_cons_self), htake, hdrop]
  simp only [hplaces, hrest, exponent?, Option.map_some, ofDigits]
  rw [Int.zero_sub]
  exact congrArg some (ofPower_neg _ fraction.length)

end

end Digits

end Lox.Decimal
