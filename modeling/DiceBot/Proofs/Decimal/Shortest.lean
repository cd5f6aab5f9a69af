import DiceBot.Decimal.Shortest
import DiceBot.Proofs.Decimal.Rounding

/-! # Laws of the shortest decimal

The decimal that a positive finite number is written with reads back as that number
(`readsBack_shortest`), and so does its positional form (`exists_positional`). -/

namespace DiceBot.Binary64

variable {x : Binary64}

/-! ### Reading back -/

theorem readsBack_iff {d : Decimal} :
    readsBack x d ↔ (ofDecimal false d.digits d.exponent).magnitude = x.magnitude := by
  rw [readsBack, decide_eq_true_iff]

theorem readsBack_of_onGrid? {k : Int} {d : Decimal} (h : onGrid? x k = some d) : readsBack x d := by
  unfold onGrid? at h
  dsimp only at h
  split at h
  · rename_i hbelow habove
    cases h
    split_ifs
    · exact hbelow
    · exact habove
  · rename_i hbelow _
    cases h
    exact hbelow
  · rename_i _ habove
    cases h
    exact habove
  · cases h

/-- The value of a finite number is far from the bounds at which decimals are not computed. -/
theorem value_bounds (hz : x.isZero = false) (hf : x.isFinite) :
    (2 : ℚ) ^ (-1074 : Int) ≤ x.significand * 2 ^ x.exponent ∧
      (x.significand : ℚ) * 2 ^ x.exponent < 2 ^ (1024 : Int) := by
  have hlt : x.magnitude < infiniteMagnitude := by simpa [isFinite] using hf
  have hs : 1 ≤ x.significand := significand_pos hz
  have hs' : x.significand < 2 ^ 53 := by
    unfold significand fractionUnit
    split_ifs <;> omega
  have he : -1074 ≤ x.exponent ∧ x.exponent ≤ 971 := by
    unfold exponent
    unfold infiniteMagnitude fractionUnit at *
    split_ifs <;> omega
  constructor
  · calc (2 : ℚ) ^ (-1074 : Int) ≤ 2 ^ x.exponent := zpow_le_zpow_right₀ one_le_two he.1
      _ = 1 * 2 ^ x.exponent := (one_mul _).symm
      _ ≤ x.significand * 2 ^ x.exponent := by
        gcongr
        exact_mod_cast hs
  · calc (x.significand : ℚ) * 2 ^ x.exponent < 2 ^ 53 * 2 ^ x.exponent := by
          gcongr
          exact_mod_cast hs'
      _ ≤ 2 ^ 53 * 2 ^ (971 : Int) := by
        gcongr
        · exact one_le_two
        · exact he.2
      _ = 2 ^ (1024 : Int) := by
        rw [← zpow_natCast, ← zpow_add₀ two_ne_zero]
        norm_num

/-- The position of the first digit of a decimal bounds its value. -/
theorem decimal_bounds {digits : Nat} (hd : 0 < digits) (k : Int) :
    (10 : ℚ) ^ ((Text.ofNat digits).length + k - 1) ≤ digits * 10 ^ k ∧
      (digits : ℚ) * 10 ^ k < 10 ^ ((Text.ofNat digits).length + k) := by
  obtain ⟨hlow, hhigh⟩ := Text.length_ofNat_bounds hd
  have hlen : 0 < (Text.ofNat digits).length := List.length_pos_iff.mpr (Text.ofNat_ne_nil digits)
  have hten : (10 : ℚ) ≠ 0 := by norm_num
  constructor
  · have hexp : ((Text.ofNat digits).length + k - 1 : Int) =
        ((Text.ofNat digits).length - 1 : Nat) + k := by omega
    rw [hexp, zpow_add₀ hten, zpow_natCast]
    gcongr
    exact_mod_cast hlow
  · rw [zpow_add₀ hten, zpow_natCast]
    gcongr
    exact_mod_cast hhigh

theorem two_pow_lt_ten_pow : (2 : ℚ) ^ 1074 < 10 ^ 1000 :=
  calc (2 : ℚ) ^ 1074 = (2 ^ 3) ^ 358 := by rw [← pow_mul]
    _ < 10 ^ 358 := pow_lt_pow_left₀ (by norm_num) (by norm_num) (by decide)
    _ ≤ 10 ^ 1000 := pow_le_pow_right₀ (by norm_num) (by decide)

/-- **A decimal with the value of a finite number reads back as that number.** -/
theorem readsBack_of_eq (hz : x.isZero = false) (hf : x.isFinite) {d : Decimal} (hd : 0 < d.digits)
    (h : (d.digits : ℚ) * 10 ^ d.exponent = x.significand * 2 ^ x.exponent) : readsBack x d := by
  obtain ⟨hlow, hhigh⟩ := decimal_bounds hd d.exponent
  obtain ⟨hxlow, hxhigh⟩ := value_bounds hz hf
  rw [h] at hlow hhigh
  have hten : (1 : ℚ) < 10 := by norm_num
  -- the decimal is within reach of the format
  have hsmall : -1000 ≤ ((Text.ofNat d.digits).length : Int) + d.exponent := by
    by_contra hlt
    have hle : (10 : ℚ) ^ ((Text.ofNat d.digits).length + d.exponent) ≤ 10 ^ (-1000 : Int) :=
      zpow_le_zpow_right₀ hten.le (by omega)
    have hpow : (10 : ℚ) ^ (-1000 : Int) ≤ 2 ^ (-1074 : Int) := by
      rw [zpow_neg, zpow_neg, zpow_ofNat, zpow_ofNat]
      exact inv_anti₀ (by positivity) two_pow_lt_ten_pow.le
    exact absurd (hxlow.trans_lt hhigh) (not_lt.mpr (hle.trans hpow))
  have hlarge : ((Text.ofNat d.digits).length : Int) + d.exponent ≤ 1000 := by
    by_contra hlt
    have hle : (10 : ℚ) ^ (1000 : Int) ≤ 10 ^ ((Text.ofNat d.digits).length + d.exponent - 1) :=
      zpow_le_zpow_right₀ hten.le (by omega)
    have hpow : (2 : ℚ) ^ (1024 : Int) ≤ 10 ^ (1000 : Int) := by
      rw [zpow_ofNat, zpow_ofNat]
      exact (pow_le_pow_right₀ one_le_two (by decide)).trans two_pow_lt_ten_pow.le
    exact absurd (hlow.trans_lt hxhigh) (not_lt.mpr (hpow.trans hle))
  have hround : ofDecimal false d.digits d.exponent =
      ofRatio false (scaled 10 d.digits 1 d.exponent).1 (scaled 10 d.digits 1 d.exponent).2 := by
    simp only [ofDecimal]
    rw [if_neg, if_neg]
    · exact not_lt.mpr hlarge
    · exact not_or.mpr ⟨hd.ne', not_lt.mpr hsmall⟩
  rw [readsBack_iff, hround]
  refine ofRatio_of_eq hz hf (scaled_fst_pos (by decide) hd _ _)
    (scaled_snd_pos (by decide) _ one_pos _) ?_
  rw [scaled_eq, ← h, Nat.cast_one, div_one, Nat.cast_ofNat]

theorem readsBack_exactDecimal (hz : x.isZero = false) (hf : x.isFinite) :
    readsBack x x.exactDecimal := by
  have hs := significand_pos hz
  unfold exactDecimal
  split_ifs with he
  · obtain ⟨m, hm⟩ := Int.eq_ofNat_of_zero_le he
    refine readsBack_of_eq hz hf ?_ ?_
    · exact Nat.mul_pos hs (Nat.pow_pos two_pos)
    · rw [hm, Int.toNat_natCast, Nat.pow_eq, zpow_zero, mul_one, zpow_natCast]
      push_cast
      rfl
  · obtain ⟨m, hm⟩ := Int.eq_ofNat_of_zero_le (show 0 ≤ -x.exponent by omega)
    refine readsBack_of_eq hz hf ?_ ?_
    · exact Nat.mul_pos hs (Nat.pow_pos (by decide))
    · show ((x.significand * Nat.pow 5 (-x.exponent).toNat : Nat) : ℚ) * 10 ^ x.exponent = _
      obtain he' : x.exponent = -m := by omega
      rw [hm, Int.toNat_natCast, Nat.pow_eq, he', zpow_neg, zpow_neg, zpow_natCast, zpow_natCast,
        show (10 : ℚ) = 5 * 2 by norm_num, mul_pow]
      push_cast
      field_simp

/-- **The shortest decimal of a number reads back as the number.** -/
theorem readsBack_shortest (hz : x.isZero = false) (hf : x.isFinite) : readsBack x x.shortest := by
  unfold shortest
  dsimp only
  cases h : (List.range 17).findSome? fun (i : Nat) =>
      onGrid? x (log10Ratio x.ratio.1 x.ratio.2 - i) with
  | none => exact readsBack_exactDecimal hz hf
  | some d =>
    obtain ⟨i, -, hi⟩ := List.exists_of_findSome?_eq_some h
    exact readsBack_of_onGrid? hi

theorem digits_shortest_pos (hz : x.isZero = false) (hf : x.isFinite) : 0 < x.shortest.digits := by
  refine Nat.pos_of_ne_zero fun h0 => ?_
  have hback := readsBack_iff.mp (readsBack_shortest hz hf)
  have hm : x.magnitude ≠ 0 := by simpa [isZero] using hz
  rw [h0, ofDecimal, if_pos (Or.inl rfl), magnitude_ofMagnitude false (Nat.zero_le _)] at hback
  exact hm hback.symm

/-! ### The positional form -/

/-- A decimal without the zeros at the end of its digits is rounded as before. -/
theorem ofDecimal_trimmed (negative : Bool) (d : Decimal) :
    ofDecimal negative d.trimmed.digits d.trimmed.exponent = ofDecimal negative d.digits d.exponent := by
  unfold Decimal.trimmed
  dsimp only
  split_ifs
  · rfl
  · have hzeros := Text.digitsValue_eq_mul_pow (Text.ofNat d.digits)
    rw [Text.digitsValue_ofNat] at hzeros
    generalize ((Text.ofNat d.digits).reverse.takeWhile (· = '0')).length = z at *
    generalize Text.digitsValue _ = m at *
    have hdiv : d.digits / Nat.pow 10 z = m := by
      rw [hzeros, Nat.pow_eq, Nat.mul_div_cancel _ (by positivity)]
    rw [hdiv, ← ofDecimal_mul_pow, ← hzeros]

theorem digits_trimmed_pos {d : Decimal} (h : 0 < d.digits) : 0 < d.trimmed.digits := by
  unfold Decimal.trimmed
  dsimp only
  rw [if_neg h.ne']
  have hzeros := Text.digitsValue_eq_mul_pow (Text.ofNat d.digits)
  rw [Text.digitsValue_ofNat] at hzeros
  generalize ((Text.ofNat d.digits).reverse.takeWhile (· = '0')).length = z at *
  exact Nat.div_pos (Nat.le_of_dvd h ⟨_, hzeros.trans (Nat.mul_comm ..)⟩) (Nat.pow_pos (by decide))

/-- What a decimal is written with: digits before and behind a point, with no zero in front of others,
that stand for the decimal. -/
structure Spells (d : Decimal) (whole places : Text) : Prop where
  isDigit_whole : ∀ c ∈ whole, c.isDigit
  isDigit_places : ∀ c ∈ places, c.isDigit
  whole_ne_nil : whole ≠ []
  places_ne_nil : places ≠ []
  no_leading_zero : whole.length = 1 ∨ whole.head? ≠ some '0'
  ofDecimal_eq : ∀ negative, ofDecimal negative (Text.digitsValue (whole ++ places)) (-places.length) =
    ofDecimal negative d.digits d.exponent

theorem Spells.of_trimmed {d : Decimal} {whole places : Text} (h : Spells d.trimmed whole places) :
    Spells d whole places :=
  { h with ofDecimal_eq := fun negative => (h.ofDecimal_eq negative).trans (ofDecimal_trimmed negative d) }

theorem isDigit_replicate_zero (n : Nat) : ∀ c ∈ List.replicate n '0', c.isDigit := fun c hc => by
  rw [List.eq_of_mem_replicate hc]
  decide

/-- A whole decimal is written with its digits, the zeros of its exponent and a zero behind the point. -/
theorem spells_whole {d : Decimal} (hpos : 0 < d.digits) {z : Nat} (hz : d.exponent = z) :
    Spells d (Text.ofNat d.digits ++ List.replicate z '0') ['0'] where
  isDigit_whole := fun c hc =>
    (List.mem_append.mp hc).elim Text.isDigit_of_mem_ofNat (isDigit_replicate_zero z c)
  isDigit_places := isDigit_replicate_zero 1
  whole_ne_nil := fun hnil => Text.ofNat_ne_nil _ (List.append_eq_nil_iff.mp hnil).1
  places_ne_nil := List.cons_ne_nil _ _
  no_leading_zero := by
    have hhead := Text.head?_ofNat_ne hpos
    obtain ⟨c, ds, hc⟩ := List.exists_cons_of_ne_nil (Text.ofNat_ne_nil d.digits)
    rw [hc] at hhead ⊢
    exact Or.inr hhead
  ofDecimal_eq := fun negative => by
    have hsum : Text.digitsValue (Text.ofNat d.digits ++ List.replicate z '0' ++ ['0']) =
        d.digits * 10 ^ (z + 1) := by
      rw [List.append_assoc, ← List.replicate_succ', Text.digitsValue_append_zeros, Text.digitsValue_ofNat]
    rw [hsum, ofDecimal_mul_pow, hz]
    congr 1
    simp

/-- The digits of a decimal with zeros in front, so that there are more than `n` of them. -/
def paddedDigits (d : Decimal) (n : Nat) : Text :=
  List.replicate (n + 1 - (Text.ofNat d.digits).length) '0' ++ Text.ofNat d.digits

/-- Any other decimal is written with a point before the last of its padded digits. -/
theorem spells_fraction {d : Decimal} (hpos : 0 < d.digits) {n : Nat} (hn : d.exponent = -n) (hn' : 0 < n) :
    Spells d ((paddedDigits d n).take ((paddedDigits d n).length - n))
      ((paddedDigits d n).drop ((paddedDigits d n).length - n)) := by
  generalize hp : paddedDigits d n = padded
  rw [paddedDigits] at hp
  have hlen : padded.length = max (n + 1) (Text.ofNat d.digits).length := by
    rw [← hp, List.length_append, List.length_replicate]
    omega
  have hdigits : ∀ c ∈ padded, c.isDigit := fun c hc =>
    (List.mem_append.mp (hp ▸ hc)).elim (isDigit_replicate_zero _ c) Text.isDigit_of_mem_ofNat
  refine ⟨fun c hc => hdigits c (List.mem_of_mem_take hc), fun c hc => hdigits c (List.mem_of_mem_drop hc),
    ?_, ?_, ?_, fun negative => ?_⟩
  · rw [← List.length_pos_iff, List.length_take]
    omega
  · rw [← List.length_pos_iff, List.length_drop]
    omega
  · -- there is a zero in front only if the number is less than one
    by_cases hle : (Text.ofNat d.digits).length ≤ n
    · left
      rw [List.length_take]
      omega
    · right
      rw [List.head?_take, if_neg (by omega), ← hp, Nat.sub_eq_zero_of_le (by omega),
        List.replicate_zero, List.nil_append]
      exact Text.head?_ofNat_ne hpos
  · have hvalue : Text.digitsValue padded = d.digits := by
      rw [← hp, Text.digitsValue_zeros_append, Text.digitsValue_ofNat]
    rw [List.take_append_drop, hvalue, List.length_drop, hn]
    congr 1
    omega

theorem exists_positional {d : Decimal} (h : 0 < d.digits) :
    ∃ whole places, d.positional ++ (if d.isWhole then ".0".toList else []) = whole ++ '.' :: places ∧
      Spells d whole places := by
  have hpos := digits_trimmed_pos h
  unfold Decimal.positional Decimal.isWhole
  dsimp only
  by_cases he : 0 ≤ d.trimmed.exponent
  · obtain ⟨z, hz⟩ := Int.eq_ofNat_of_zero_le he
    refine ⟨_, _, ?_, (spells_whole hpos hz).of_trimmed⟩
    rw [if_pos he, if_pos (decide_eq_true he), hz, Int.toNat_natCast]
    rfl
  · obtain ⟨n, hn⟩ := Int.eq_ofNat_of_zero_le (show 0 ≤ -d.trimmed.exponent by omega)
    refine ⟨_, _, ?_, (spells_fraction hpos (n := n) (by omega) (by omega)).of_trimmed⟩
    rw [if_neg he, if_neg (by simpa using he), hn, Int.toNat_natCast, List.append_nil]
    rfl

end DiceBot.Binary64
