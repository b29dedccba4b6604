import Lox.Decimal.Format
import Lox.Decimal.Numeral
import Lox.Proofs.Decimal.Shortest

/-!
# Texts tell doubles apart

The decimal text of a double spells a number that rounds to the double (`contains_magnitude`): the
double itself where it is a whole number, and its shortest decimal otherwise. So two finite doubles
with the same text are the same (`Format.text_injective`). A text has digits, a point and a sign in
it and nothing else (`Format.chars_text`).
-/

namespace Lox.Decimal

open Float.Model (UnpackedFloat)

variable {m m' n : Nat} {q q' : Int} {f : Format} {x y : Float}

/-! ## Doubles and their fields -/

theorem canonical_of_ofBits {bits : Nat} {negative : Bool}
    (h : Binary.ofBits bits = .finite negative m q) : Canonical m q := by
  have hfraction : bits % Nat.pow 2 52 < Nat.pow 2 52 := Nat.mod_lt _ (Nat.pow_pos Nat.zero_lt_two)
  have hhidden : Nat.pow 2 52 = Binary.hidden := rfl
  unfold Binary.ofBits at h
  dsimp only at h
  split at h
  · split at h <;> cases h
  · split at h
    · cases h
      exact ⟨by omega, le_rfl, .inl rfl⟩
    · cases h
      exact ⟨by omega, by omega, .inr (Nat.le_add_right _ _)⟩

/-- The fields of a finite double make up its bits. -/
theorem bits_of_ofBits {bits : Nat} {negative : Bool} (hbits : bits < 2 ^ 64)
    (h : Binary.ofBits bits = .finite negative m q) :
    bits = (if negative then 2 ^ 63 else 0) +
      (if m < Binary.hidden then 0 else (q - Binary.minExponent + 1).toNat) * 2 ^ 52 +
      m % 2 ^ 52 := by
  have hhidden : Binary.hidden = 2 ^ 52 := rfl
  unfold Binary.ofBits at h
  dsimp only at h
  simp only [Nat.pow_eq, hhidden] at h ⊢
  split at h
  · split at h <;> cases h
  · split at h
    · cases h
      have hsubnormal : bits % 2 ^ 52 < 2 ^ 52 := Nat.mod_lt _ (by norm_num)
      simp only [if_pos hsubnormal, decide_eq_true_eq]
      split <;> omega
    · cases h
      have hnormal : ¬ 2 ^ 52 + bits % 2 ^ 52 < 2 ^ 52 := Nat.not_lt_of_le (Nat.le_add_right _ _)
      simp only [if_neg hnormal, decide_eq_true_eq]
      split <;> omega

/-- A finite double has a significand and an exponent. -/
theorem ofFloat_of_isFinite (h : x.isFinite = true) :
    ∃ negative m q, Binary.ofFloat x = .finite negative m q := by
  have hfield : x.toBits.toNat / Nat.pow 2 52 % Nat.pow 2 11 ≠ 2047 := by
    intro hfield
    have hexponent : @UnpackedFloat.unpackExponent Float.Model.Format.binary64
        x.toModel.toBits.toBitVec = -1#11 := by
      rw [UnpackedFloat.unpackExponent_def]
      apply BitVec.eq_of_toNat_eq
      rw [BitVec.extractLsb'_toNat, Nat.shiftRight_eq_div_pow]
      exact hfield
    unfold Float.isFinite Float.Model.isFinite Float.Model.unpack UnpackedFloat.unpack at h
    dsimp only at h
    rw [if_pos hexponent] at h
    split at h <;> cases h
  unfold Binary.ofFloat Binary.ofBits
  dsimp only
  rw [if_neg hfield]
  split <;> exact ⟨_, _, _, rfl⟩

theorem ofFloat_injective {b : Binary} {negative : Bool} (hb : b = .finite negative m q)
    (hx : Binary.ofFloat x = b) (hy : Binary.ofFloat y = b) : x = y := by
  subst hb
  have hbits := bits_of_ofBits x.toBits.toNat_lt hx
  rw [← bits_of_ofBits y.toBits.toNat_lt hy] at hbits
  exact Float.toBits_inj.1 (UInt64.toNat_inj.1 hbits)

/-! ## What digits spell -/

/-- The number that digits spell, with a point among them or without. -/
def spelled (cs : List Char) : ℚ :=
  let places := (cs.dropWhile (· ≠ '.')).drop 1
  natOfDigits (cs.takeWhile (· ≠ '.') ++ places) / 10 ^ places.length

theorem takeWhile_ne_point {w : List Char} (hw : '.' ∉ w) (cs : List Char) :
    (w ++ cs).takeWhile (· ≠ '.') = w ++ cs.takeWhile (· ≠ '.') ∧
      (w ++ cs).dropWhile (· ≠ '.') = cs.dropWhile (· ≠ '.') := by
  have hall : ∀ c ∈ w, decide (c ≠ '.') = true := fun c hc => by
    simpa using fun he : c = '.' => hw (he ▸ hc)
  exact ⟨List.takeWhile_append_of_pos hall, List.dropWhile_append_of_pos hall⟩

theorem spelled_point {w : List Char} (hw : '.' ∉ w) (places : List Char) :
    spelled (w ++ '.' :: places) = natOfDigits (w ++ places) / 10 ^ places.length := by
  obtain ⟨htake, hdrop⟩ := takeWhile_ne_point hw ('.' :: places)
  unfold spelled
  rw [htake, hdrop]
  simp

theorem spelled_whole {w : List Char} (hw : '.' ∉ w) : spelled w = natOfDigits w := by
  obtain ⟨htake, hdrop⟩ := takeWhile_ne_point hw []
  rw [List.append_nil] at htake hdrop
  unfold spelled
  rw [htake, hdrop]
  simp

theorem natOfDigits_toDigits (n : Nat) : natOfDigits (Nat.toDigits 10 n) = n :=
  Nat.ofDigitChars_ten_toDigits

theorem natOfDigits_append_zeros (ds : List Char) (k : Nat) :
    natOfDigits (ds ++ zeros k) = natOfDigits ds * 10 ^ k := by
  show Nat.ofDigitChars 10 (ds ++ List.replicate k '0') 0 = Nat.ofDigitChars 10 ds 0 * 10 ^ k
  rw [Nat.ofDigitChars_append, Nat.ofDigitChars_replicate_zero, Nat.mul_comm]

theorem natOfDigits_zeros_append (ds : List Char) (k : Nat) :
    natOfDigits (zeros k ++ ds) = natOfDigits ds := by
  show Nat.ofDigitChars 10 (List.replicate k '0' ++ ds) 0 = Nat.ofDigitChars 10 ds 0
  rw [Nat.ofDigitChars_append, Nat.ofDigitChars_replicate_zero, Nat.mul_zero]

theorem point_notMem_toDigits (n : Nat) : '.' ∉ Nat.toDigits 10 n := by
  intro h
  have := Nat.isDigit_of_mem_toDigits (Nat.succ_pos 9) (Nat.le_refl 10) h
  cases this

theorem point_notMem_zeros (k : Nat) : '.' ∉ zeros k := by
  intro h
  cases List.eq_of_mem_replicate h

/-- The text of a decimal spells the decimal. -/
theorem spelled_plain (d : Scaled) : spelled d.plain = d.value := by
  have hpoint := point_notMem_toDigits d.digits
  unfold Scaled.plain Scaled.value
  dsimp only
  split
  · rename_i hexponent
    have hnone : '.' ∉ Nat.toDigits 10 d.digits ++ zeros d.exponent.toNat :=
      fun h => (List.mem_append.1 h).elim hpoint (point_notMem_zeros _)
    rw [spelled_whole hnone, natOfDigits_append_zeros, natOfDigits_toDigits]
    push_cast
    rw [← zpow_natCast, Int.toNat_of_nonneg hexponent]
  · rename_i hexponent
    have hvalue : (d.digits : ℚ) * 10 ^ d.exponent = d.digits / 10 ^ (-d.exponent).toNat := by
      rw [← zpow_natCast, Int.toNat_of_nonneg (by omega), zpow_neg, div_inv_eq_mul]
    rw [hvalue]
    split
    · rename_i hplaces
      rw [spelled_point fun h => hpoint (List.mem_of_mem_take h), List.take_append_drop,
        natOfDigits_toDigits, List.length_drop]
      congr 2
      omega
    · rename_i hplaces
      rw [show '0' :: '.' :: (zeros ((-d.exponent).toNat - (Nat.toDigits 10 d.digits).length) ++
        Nat.toDigits 10 d.digits) = zeros 1 ++ '.' ::
          (zeros ((-d.exponent).toNat - (Nat.toDigits 10 d.digits).length) ++
            Nat.toDigits 10 d.digits) from rfl, spelled_point (point_notMem_zeros 1),
        natOfDigits_zeros_append, natOfDigits_zeros_append, natOfDigits_toDigits,
        List.length_append, zeros, List.length_replicate]
      congr 2
      omega

/-! ## Texts -/

theorem whole?_eq_some (h : whole? m q = some n) : (n : ℚ) = m * 2 ^ q := by
  unfold whole? at h
  split at h
  · rename_i hq
    obtain rfl := Option.some.inj h
    obtain ⟨k, rfl⟩ := Int.eq_ofNat_of_zero_le hq
    simp
  · rename_i hq
    dsimp only at h
    split at h
    · rename_i hdvd
      obtain rfl := Option.some.inj h
      obtain ⟨k, hk⟩ := Int.eq_ofNat_of_zero_le (show 0 ≤ -q by omega)
      rw [hk, Int.toNat_natCast] at hdvd ⊢
      rw [Nat.cast_div (Nat.dvd_of_mod_eq_zero hdvd) (by simp), show q = -(k : Int) by omega,
        zpow_neg, zpow_natCast, div_eq_mul_inv]
      simp
    · cases h

/-- A double is in the interval around it. -/
theorem contains_self (hm : 0 < m) (q : Int) : (Interval.around m q).Contains (m * 2 ^ q) := by
  have hu : (0 : ℚ) < 2 ^ (q - 2) := by positivity
  have hbelow : 0 < below m q := by
    unfold below
    split <;> omega
  rw [← around_mid_eq, around_mid]
  refine Interval.contains_of_lt ?_ ?_
  · rw [around_low]
    exact mul_lt_mul_of_pos_right (Nat.cast_lt.2 (by omega)) hu
  · rw [around_high]
    exact mul_lt_mul_of_pos_right (Nat.cast_lt.2 (by omega)) hu

section Format

variable (hwhole : f.whole = .exact) (hplain : f.plain = none)

theorem spelled_suffix {w : List Char} (hw : '.' ∉ w) (f : Format) :
    spelled (w ++ if f.pointZero then ['.', '0'] else []) = natOfDigits w := by
  split
  · rw [spelled_point hw]
    show ((natOfDigits (w ++ zeros 1) : Nat) : ℚ) / 10 ^ 1 = _
    rw [natOfDigits_append_zeros]
    push_cast
    ring
  · rw [List.append_nil, spelled_whole hw]

theorem spelled_magnitude_zero (q : Int) : spelled (f.magnitude 0 q) = 0 := by
  have h := spelled_suffix (point_notMem_zeros 1) f
  have hzero : natOfDigits (zeros 1) = 0 := rfl
  rw [hzero, Nat.cast_zero] at h
  exact h

include hwhole hplain

/-- The cases of a text that has no exponent in it. -/
theorem magnitude_cases (hm : 0 < m) (q : Int) :
    (∃ n, whole? m q = some n ∧ f.magnitude m q =
      Nat.toDigits 10 n ++ if f.pointZero then ['.', '0'] else []) ∨
    f.magnitude m q = (shortest f.tie m q).plain := by
  obtain ⟨k, rfl⟩ : ∃ k, m = k + 1 := ⟨m - 1, by omega⟩
  unfold Format.magnitude
  simp only [hwhole]
  cases whole? (k + 1) q with
  | some n => exact .inl ⟨n, rfl, rfl⟩
  | none => exact .inr (if_pos (by rw [Format.isPlain, hplain]))

/-- The text of a positive double spells a number that rounds to it. -/
theorem contains_magnitude (hc : Canonical m q) (hm : 0 < m) :
    (Interval.around m q).Contains (spelled (f.magnitude m q)) := by
  rcases magnitude_cases hwhole hplain hm q with ⟨n, hn, h⟩ | h
  · rw [h, spelled_suffix (point_notMem_toDigits n), natOfDigits_toDigits, whole?_eq_some hn]
    exact contains_self hm q
  · rw [h, spelled_plain]
    exact contains_shortest hc hm f.tie

theorem magnitude_injective (hc : Canonical m q) (hc' : Canonical m' q')
    (h : f.magnitude m q = f.magnitude m' q') : m = m' ∧ q = q' := by
  have hzero {m : Nat} {q : Int} (hc : Canonical m q) (hm : 0 < m)
      (h : spelled (f.magnitude m q) = 0) : False := by
    have hpos := (contains_magnitude hwhole hplain hc hm).pos hm
    rw [h] at hpos
    exact lt_irrefl _ hpos
  rcases Nat.eq_zero_or_pos m with rfl | hm <;> rcases Nat.eq_zero_or_pos m' with rfl | hm'
  · have hleast : ¬ Binary.hidden ≤ 0 := Nat.not_le_of_lt (Nat.pow_pos Nat.zero_lt_two)
    exact ⟨rfl, (hc.normal.resolve_right hleast).trans (hc'.normal.resolve_right hleast).symm⟩
  · exact (hzero hc' hm' (h ▸ spelled_magnitude_zero q)).elim
  · exact (hzero hc hm (h ▸ spelled_magnitude_zero q')).elim
  · have hx := contains_magnitude hwhole hplain hc hm
    rw [h] at hx
    exact hc.eq_of_contains hc' hx (contains_magnitude hwhole hplain hc' hm')

/-- Digits and the point. -/
theorem chars_magnitude (m : Nat) (q : Int) :
    f.magnitude m q ≠ [] ∧ ∀ c ∈ f.magnitude m q, c.isDigit = true ∨ c = '.' := by
  have hdigits (n : Nat) : ∀ c ∈ Nat.toDigits 10 n, c.isDigit = true ∨ c = '.' := fun c hc =>
    .inl (Nat.isDigit_of_mem_toDigits (Nat.succ_pos 9) (Nat.le_refl 10) hc)
  have hzeros (k : Nat) : ∀ c ∈ zeros k, c.isDigit = true ∨ c = '.' := fun c hc => by
    rw [List.eq_of_mem_replicate hc]
    exact .inl rfl
  have hsuffix : ∀ c ∈ (if f.pointZero then ['.', '0'] else [] : List Char),
      c.isDigit = true ∨ c = '.' := by
    split <;> simp
  rcases Nat.eq_zero_or_pos m with rfl | hm
  · exact ⟨List.cons_ne_nil _ _, List.forall_mem_cons.2 ⟨.inl rfl, hsuffix⟩⟩
  · rcases magnitude_cases hwhole hplain hm q with ⟨n, -, h⟩ | h
    · rw [h]
      exact ⟨List.append_ne_nil_of_left_ne_nil Nat.toDigits_ne_nil _,
        List.forall_mem_append.2 ⟨hdigits n, hsuffix⟩⟩
    · rw [h]
      unfold Scaled.plain
      dsimp only
      split
      · exact ⟨List.append_ne_nil_of_left_ne_nil Nat.toDigits_ne_nil _,
          List.forall_mem_append.2 ⟨hdigits _, hzeros _⟩⟩
      · split
        · refine ⟨List.append_ne_nil_of_right_ne_nil _ (List.cons_ne_nil _ _), ?_⟩
          refine List.forall_mem_append.2 ⟨fun c hc => hdigits _ c (List.mem_of_mem_take hc), ?_⟩
          exact List.forall_mem_cons.2 ⟨.inr rfl, fun c hc => hdigits _ c (List.mem_of_mem_drop hc)⟩
        · refine ⟨List.cons_ne_nil _ _, ?_⟩
          exact List.forall_mem_cons.2 ⟨.inl rfl, List.forall_mem_cons.2 ⟨.inr rfl,
            List.forall_mem_append.2 ⟨hzeros _, hdigits _⟩⟩⟩

end Format

namespace Format

variable (hwhole : f.whole = .exact) (hplain : f.plain = none)

include hwhole hplain

/-- A sign, digits and the point. -/
theorem chars_text (hx : x.isFinite = true) : (f.text x).toList ≠ [] ∧
    ∀ c ∈ (f.text x).toList, c.isDigit = true ∨ c = '.' ∨ c = '-' := by
  obtain ⟨negative, m, q, hx⟩ := ofFloat_of_isFinite hx
  obtain ⟨hne, hchars⟩ := chars_magnitude hwhole hplain m q
  unfold text
  rw [hx, String.toList_ofList]
  refine ⟨List.append_ne_nil_of_right_ne_nil _ hne, List.forall_mem_append.2 ⟨?_, ?_⟩⟩
  · split <;> simp
  · exact fun c hc => (hchars c hc).imp_right .inl

/-- Two finite doubles with the same text are the same. -/
theorem text_injective (hsigned : f.signedZero = true) (hx : x.isFinite = true)
    (hy : y.isFinite = true) (h : f.text x = f.text y) : x = y := by
  obtain ⟨negative, m, q, hx⟩ := ofFloat_of_isFinite hx
  obtain ⟨negative', m', q', hy⟩ := ofFloat_of_isFinite hy
  have hsign (m : Nat) (q : Int) : ∀ cs, '-' :: cs ≠ f.magnitude m q := fun cs he => by
    rcases (chars_magnitude hwhole hplain m q).2 '-' (he ▸ List.mem_cons_self) with hc | hc <;>
      cases hc
  have hlist : f.ofBinary (Binary.ofFloat x) = f.ofBinary (Binary.ofFloat y) := by
    simpa [text] using congrArg String.toList h
  rw [hx, hy] at hlist
  have hfields : negative = negative' ∧ f.magnitude m q = f.magnitude m' q' := by
    cases negative <;> cases negative' <;> simp only [ofBinary, hsigned, Bool.false_eq_true,
      false_and, or_true, and_true, if_true, if_false, List.nil_append, List.singleton_append,
      List.cons.injEq, true_and] at hlist ⊢
    · exact hlist
    · exact (hsign m q _ hlist.symm).elim
    · exact (hsign m' q' _ hlist).elim
    · exact hlist
  obtain ⟨rfl, hmagnitude⟩ := hfields
  obtain ⟨rfl, rfl⟩ := magnitude_injective hwhole hplain (canonical_of_ofBits hx)
    (canonical_of_ofBits hy) hmagnitude
  exact ofFloat_injective rfl hx hy

end Format

end Lox.Decimal
