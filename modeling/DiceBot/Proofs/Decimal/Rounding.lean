import DiceBot.Decimal.Binary64
import DiceBot.Proofs.Text.Digits
import Mathlib.Algebra.Order.Field.Power
import Mathlib.Data.Int.Log
import Mathlib.Data.Rat.Floor
import Mathlib.Tactic.FieldSimp
import Mathlib.Tactic.Positivity
import Mathlib.Tactic.Ring

/-! # Laws of rounding

The floating-point number nearest to a fraction depends on the value of the fraction alone
(`ofRatio_congr`), and that nearest to a decimal number on its value and sign (`ofDecimal_mul_pow`,
`exists_ofDecimal`). A finite number is nearest to its own exact value (`magnitude_ofRatio_ratio`). -/

namespace DiceBot.Binary64

variable {n d n' d' : Nat}

/-! ### Fractions -/

theorem scaled_snd_pos {base : Nat} (hb : 0 < base) (n : Nat) (hd : 0 < d) (k : Int) :
    0 < (scaled base n d k).2 := by
  unfold scaled
  split_ifs
  · exact hd
  · exact Nat.mul_pos hd (Nat.pow_pos hb)

theorem scaled_fst_pos {base : Nat} (hb : 0 < base) (hn : 0 < n) (d : Nat) (k : Int) :
    0 < (scaled base n d k).1 := by
  unfold scaled
  split_ifs
  · exact Nat.mul_pos hn (Nat.pow_pos hb)
  · exact hn

/-- The value of a scaled fraction. -/
theorem scaled_eq (base n d : Nat) (k : Int) :
    ((scaled base n d k).1 : ℚ) / (scaled base n d k).2 = n / d * (base : ℚ) ^ k := by
  unfold scaled
  split_ifs with hk
  · obtain ⟨m, rfl⟩ := Int.eq_ofNat_of_zero_le hk
    rw [Int.toNat_natCast, Nat.pow_eq, zpow_natCast]
    push_cast
    ring
  · obtain ⟨m, hm⟩ := Int.eq_ofNat_of_zero_le (show 0 ≤ -k by omega)
    obtain rfl : k = -m := by omega
    rw [neg_neg, Int.toNat_natCast, Nat.pow_eq, zpow_neg, zpow_natCast]
    push_cast
    rw [div_mul_eq_div_div, div_eq_mul_inv (_ / _)]

/-- The whole number nearest to a fraction stays when the fraction is expanded. -/
theorem roundHalfEven_mul {c : Nat} (hc : 0 < c) (n d : Nat) :
    roundHalfEven (c * n) (c * d) = roundHalfEven n d := by
  have hlt (a b : Nat) : 2 * (c * a) < c * b ↔ 2 * a < b := by
    rw [Nat.mul_left_comm, Nat.mul_lt_mul_left hc]
  have hgt (a b : Nat) : c * b < 2 * (c * a) ↔ b < 2 * a := by
    rw [Nat.mul_left_comm, Nat.mul_lt_mul_left hc]
  simp only [roundHalfEven, Nat.mul_div_mul_left n d hc, Nat.mul_mod_mul_left, hlt, hgt]

theorem roundHalfEven_congr (hd : 0 < d) (hd' : 0 < d') (h : (n : ℚ) / d = n' / d') :
    roundHalfEven n d = roundHalfEven n' d' := by
  have hq : (d : ℚ) ≠ 0 := by exact_mod_cast hd.ne'
  have hq' : (d' : ℚ) ≠ 0 := by exact_mod_cast hd'.ne'
  have hcross : n * d' = n' * d := by
    rw [div_eq_div_iff hq hq'] at h
    exact_mod_cast h
  calc roundHalfEven n d = roundHalfEven (d' * n) (d' * d) := (roundHalfEven_mul hd' n d).symm
    _ = roundHalfEven (d * n') (d * d') := by
      rw [Nat.mul_comm d' n, hcross, Nat.mul_comm n', Nat.mul_comm d']
    _ = roundHalfEven n' d' := roundHalfEven_mul hd n' d'

theorem roundHalfEven_one (n : Nat) : roundHalfEven n 1 = n := by
  simp [roundHalfEven, Nat.mod_one]

/-! ### The binary logarithm -/

/-- The fraction lies within a factor of two of the quotient of the powers of two below its parts. -/
theorem log2_sub_bounds (hn : 0 < n) (hd : 0 < d) :
    (2 : ℚ) ^ ((n.log2 : Int) - d.log2 - 1) < n / d ∧
      (n : ℚ) / d < 2 ^ ((n.log2 : Int) - d.log2 + 1) := by
  have hdq : (0 : ℚ) < d := by exact_mod_cast hd
  have hnlow : (2 : ℚ) ^ n.log2 ≤ n := by exact_mod_cast Nat.log2_self_le hn.ne'
  have hnhigh : (n : ℚ) < 2 ^ (n.log2 + 1) := by exact_mod_cast Nat.lt_log2_self
  have hdlow : (2 : ℚ) ^ d.log2 ≤ d := by exact_mod_cast Nat.log2_self_le hd.ne'
  have hdhigh : (d : ℚ) < 2 ^ (d.log2 + 1) := by exact_mod_cast Nat.lt_log2_self
  have hlow : (2 : ℚ) ^ ((n.log2 : Int) - d.log2 - 1) = 2 ^ n.log2 / 2 ^ (d.log2 + 1) := by
    rw [sub_sub, zpow_sub₀ two_ne_zero, zpow_natCast]
    norm_cast
  have hhigh : (2 : ℚ) ^ ((n.log2 : Int) - d.log2 + 1) = 2 ^ (n.log2 + 1) / 2 ^ d.log2 := by
    rw [sub_add_eq_add_sub, zpow_sub₀ two_ne_zero, zpow_natCast]
    norm_cast
  constructor
  · rw [hlow, div_lt_div_iff₀ (by positivity) hdq]
    calc (2 : ℚ) ^ n.log2 * d ≤ n * d := by gcongr
      _ < n * 2 ^ (d.log2 + 1) := by gcongr
  · rw [hhigh, div_lt_div_iff₀ hdq (by positivity)]
    calc (n : ℚ) * 2 ^ d.log2 ≤ n * d := by gcongr
      _ < 2 ^ (n.log2 + 1) * d := by gcongr

theorem intLog_eq {r : ℚ} (hr : 0 < r) {e : Int} (hlow : 2 ^ e ≤ r) (hhigh : r < 2 ^ (e + 1)) :
    Int.log 2 r = e := by
  have h1 := (Int.zpow_le_iff_le_log (b := 2) (by decide) hr).mp (by exact_mod_cast hlow)
  have h2 := (Int.lt_zpow_iff_log_lt (b := 2) (by decide) hr).mp (by exact_mod_cast hhigh)
  omega

/-- **The exponent of a fraction is its binary logarithm.** -/
theorem log2Ratio_eq (hn : 0 < n) (hd : 0 < d) : log2Ratio n d = Int.log 2 ((n : ℚ) / d) := by
  have hr : (0 : ℚ) < n / d := by positivity
  obtain ⟨hlow, hhigh⟩ := log2_sub_bounds hn hd
  unfold log2Ratio
  generalize (n.log2 : Int) - d.log2 = e at *
  have hpos := scaled_snd_pos (show 0 < 2 from two_pos) n hd (-e)
  have hval := scaled_eq 2 n d (-e)
  rw [Nat.cast_ofNat] at hval
  -- the scaled fraction is at least one just if the power of two does not exceed the fraction
  have hone : (scaled 2 n d (-e)).2 ≤ (scaled 2 n d (-e)).1 ↔ (2 : ℚ) ^ e ≤ n / d := by
    rw [← @Nat.cast_le ℚ, ← one_le_div (by exact_mod_cast hpos), hval, zpow_neg,
      ← div_eq_mul_inv, one_le_div (zpow_pos two_pos e)]
  show (if _ ≤ _ then e else e - 1) = _
  split_ifs with h
  · exact (intLog_eq hr (hone.mp h) hhigh).symm
  · exact (intLog_eq hr hlow.le (by rw [sub_add_cancel]; exact not_le.mp fun h' => h (hone.mpr h'))).symm

/-! ### The nearest number -/

/-- The power of two whose multiples the numbers near a value are. -/
def gridExponent (r : ℚ) : Int := max (Int.log 2 r - 52) (-1074)

theorem ofRatio_eq (hn : 0 < n) (hd : 0 < d) (negative : Bool) :
    ofRatio negative n d =
      let q := gridExponent (n / d)
      let magnitude := (q + 1074).toNat * fractionUnit +
        roundHalfEven (scaled 2 n d (-q)).1 (scaled 2 n d (-q)).2
      ofMagnitude negative (min magnitude infiniteMagnitude) := by
  rw [gridExponent, ← log2Ratio_eq hn hd]
  rfl

/-- **Rounding looks at the value of a fraction only.** -/
theorem ofRatio_congr (hn : 0 < n) (hd : 0 < d) (hn' : 0 < n') (hd' : 0 < d')
    (h : (n : ℚ) / d = n' / d') (negative : Bool) : ofRatio negative n d = ofRatio negative n' d' := by
  rw [ofRatio_eq hn hd, ofRatio_eq hn' hd', ← h]
  have hround (q : Int) : roundHalfEven (scaled 2 n d q).1 (scaled 2 n d q).2 =
      roundHalfEven (scaled 2 n' d' q).1 (scaled 2 n' d' q).2 :=
    roundHalfEven_congr (scaled_snd_pos two_pos n hd _) (scaled_snd_pos two_pos n' hd' _)
      (by rw [scaled_eq, scaled_eq, h])
  simp only [hround]

/-! ### Signs -/

theorem magnitude_ofMagnitude (negative : Bool) {m : Nat} (h : m ≤ infiniteMagnitude) :
    (ofMagnitude negative m).magnitude = m := by
  have hm : m < signUnit := Nat.lt_of_le_of_lt h (by decide)
  unfold magnitude ofMagnitude
  rw [UInt64.toNat_ofNat']
  unfold signUnit at *
  split_ifs <;> omega

/-- A floating-point number consists of its sign and its magnitude. -/
theorem ofMagnitude_magnitude (x : Binary64) : ofMagnitude x.isNegative x.magnitude = x := by
  obtain ⟨bits⟩ := x
  have hlt : bits.toNat < 2 * signUnit := bits.toNat_lt
  unfold ofMagnitude isNegative magnitude
  have hsum : (if decide (signUnit ≤ bits.toNat) then signUnit else 0) + bits.toNat % signUnit =
      bits.toNat := by
    unfold signUnit at *
    simp only [decide_eq_true_eq]
    split_ifs <;> omega
  show Binary64.mk (UInt64.ofNat _) = _
  rw [hsum, UInt64.ofNat_toNat]

/-- The sign of a decimal number is that of the number nearest to it. -/
theorem exists_ofDecimal (digits : Nat) (k : Int) :
    ∃ m ≤ infiniteMagnitude, ∀ negative, ofDecimal negative digits k = ofMagnitude negative m := by
  simp only [ofDecimal]
  split_ifs
  · exact ⟨0, Nat.zero_le _, fun _ => rfl⟩
  · exact ⟨infiniteMagnitude, Nat.le_refl _, fun _ => rfl⟩
  · exact ⟨_, Nat.min_le_right _ _, fun _ => rfl⟩

theorem ofDecimal_eq (negative : Bool) (digits : Nat) (k : Int) :
    ofDecimal negative digits k = ofMagnitude negative (ofDecimal false digits k).magnitude := by
  obtain ⟨m, hm, h⟩ := exists_ofDecimal digits k
  rw [h, h, magnitude_ofMagnitude false hm]

/-! ### Decimal numbers -/

/-- **A decimal number with zeros at its end is rounded as the one without them.** -/
theorem ofDecimal_mul_pow (negative : Bool) (digits z : Nat) (k : Int) :
    ofDecimal negative (digits * 10 ^ z) k = ofDecimal negative digits (k + z) := by
  rcases Nat.eq_zero_or_pos digits with rfl | hd
  · simp [ofDecimal]
  have hsize : ((Nat.toDigits 10 (digits * 10 ^ z)).length : Int) + k =
      (Nat.toDigits 10 digits).length + (k + z) := by
    rw [show Nat.toDigits 10 (digits * 10 ^ z) = _ from Text.ofNat_mul_pow hd z, List.length_append,
      List.length_replicate, Text.ofNat]
    push_cast
    ring
  have hpos : 0 < digits * 10 ^ z := by positivity
  have hratio : ofRatio negative (scaled 10 (digits * 10 ^ z) 1 k).1 (scaled 10 (digits * 10 ^ z) 1 k).2 =
      ofRatio negative (scaled 10 digits 1 (k + z)).1 (scaled 10 digits 1 (k + z)).2 := by
    refine ofRatio_congr (scaled_fst_pos (by decide) hpos _ _) (scaled_snd_pos (by decide) _ one_pos _)
      (scaled_fst_pos (by decide) hd _ _) (scaled_snd_pos (by decide) _ one_pos _) ?_ negative
    rw [scaled_eq, scaled_eq, zpow_add₀ (by norm_num), zpow_natCast]
    push_cast
    ring
  simp only [ofDecimal, hsize, hd.ne', hpos.ne', false_or]
  split_ifs
  · rfl
  · rfl
  · exact hratio

/-! ### Exact values -/

theorem significand_pos {x : Binary64} (h : x.isZero = false) : 0 < x.significand := by
  have hm : x.magnitude ≠ 0 := by simpa [isZero] using h
  unfold significand fractionUnit
  split_ifs
  · omega
  · omega

/-- Exponent and significand make up the magnitude. -/
theorem exponent_add_significand (x : Binary64) :
    (x.exponent + 1074).toNat * fractionUnit + x.significand = x.magnitude := by
  by_cases hm : x.magnitude < fractionUnit
  · rw [exponent, significand, if_pos hm, if_pos hm]
    simp
  · obtain ⟨q, hq⟩ : ∃ q, x.magnitude / fractionUnit = q + 1 :=
      Nat.exists_eq_add_of_le' (Nat.div_pos (not_lt.mp hm) (by decide))
    have he : ((q + 1 : Nat) - 1075 + 1074 : Int).toNat = q := by omega
    rw [exponent, significand, if_neg hm, if_neg hm, hq, he]
    calc q * fractionUnit + (fractionUnit + x.magnitude % fractionUnit) =
        fractionUnit * (q + 1) + x.magnitude % fractionUnit := by ring
      _ = x.magnitude := by rw [← hq, Nat.div_add_mod]

/-- The grid of a finite number near its value is that of its exponent. -/
theorem gridExponent_ratio {x : Binary64} (hz : x.isZero = false) (hf : x.isFinite) :
    gridExponent (x.significand * 2 ^ x.exponent) = x.exponent := by
  have hpos := significand_pos hz
  have hr : (0 : ℚ) < x.significand * 2 ^ x.exponent := by positivity
  have hlt : x.magnitude < infiniteMagnitude := by simpa [isFinite] using hf
  unfold gridExponent
  by_cases hm : x.magnitude < fractionUnit
  · -- a number below the least normal one lies on the finest grid
    have he : x.exponent = -1074 := if_pos hm
    have hs : x.significand < 2 ^ 52 := by rwa [significand, if_pos hm]
    have hlog : Int.log 2 ((x.significand : ℚ) * 2 ^ x.exponent) < -1022 := by
      refine (Int.lt_zpow_iff_log_lt (b := 2) (by decide) hr).mp ?_
      rw [he]
      calc (x.significand : ℚ) * 2 ^ (-1074 : Int) < 2 ^ 52 * 2 ^ (-1074 : Int) := by
            gcongr
            exact_mod_cast hs
        _ = ((2 : Nat) : ℚ) ^ (-1022 : Int) := by
            rw [← zpow_natCast, ← zpow_add₀ two_ne_zero]
            norm_num
    omega
  · have he : x.exponent = (x.magnitude / fractionUnit : Nat) - 1075 := if_neg hm
    have hs : x.significand = fractionUnit + x.magnitude % fractionUnit := if_neg hm
    have hlog : Int.log 2 ((x.significand : ℚ) * 2 ^ x.exponent) = 52 + x.exponent := by
      refine intLog_eq hr ?_ ?_
      · rw [zpow_add₀ two_ne_zero]
        gcongr
        have : 2 ^ 52 ≤ x.significand := by unfold fractionUnit at hs; omega
        exact_mod_cast this
      · rw [add_right_comm, zpow_add₀ two_ne_zero]
        gcongr
        have : x.significand < 2 ^ 53 := by unfold fractionUnit at hs; omega
        exact_mod_cast this
    have hbound : 1 ≤ x.magnitude / fractionUnit := by
      unfold fractionUnit at *
      omega
    omega

/-- **A finite number is nearest to its own value.** -/
theorem ofRatio_of_eq {x : Binary64} (hz : x.isZero = false) (hf : x.isFinite) (hn : 0 < n) (hd : 0 < d)
    (h : (n : ℚ) / d = x.significand * 2 ^ x.exponent) :
    (ofRatio false n d).magnitude = x.magnitude := by
  have hlt : x.magnitude < infiniteMagnitude := by simpa [isFinite] using hf
  rw [ofRatio_eq hn hd, h, gridExponent_ratio hz hf]
  have hround : roundHalfEven (scaled 2 n d (-x.exponent)).1 (scaled 2 n d (-x.exponent)).2 =
      x.significand := by
    refine Eq.trans (roundHalfEven_congr (scaled_snd_pos two_pos n hd _) one_pos ?_)
      (roundHalfEven_one x.significand)
    rw [scaled_eq, h, Nat.cast_ofNat, mul_assoc, ← zpow_add₀ two_ne_zero, add_neg_cancel,
      zpow_zero, mul_one, Nat.cast_one, div_one]
  simp only [hround, exponent_add_significand]
  rw [magnitude_ofMagnitude false (Nat.min_le_right _ _), Nat.min_eq_left hlt.le]

end DiceBot.Binary64
