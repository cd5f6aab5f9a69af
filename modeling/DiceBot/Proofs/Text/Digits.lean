import DiceBot.Text.Basic
import Mathlib.Data.List.TakeWhile
import Mathlib.Tactic.Ring
import Mathlib.Tactic.SplitIfs

/-! # Laws of decimal digits

The value of a run of digits, put together from the values of its parts, and the digits of a number:
the first is no zero unless it is the only one, and zeros at the end are factors of ten. Different numbers
are written differently. -/

namespace DiceBot.Text

/-! ### The value of digits -/

theorem digitsValue_append (s t : Text) :
    digitsValue (s ++ t) = digitsValue s * 10 ^ t.length + digitsValue t := by
  unfold digitsValue
  rw [Nat.ofDigitChars_append, Nat.ofDigitChars_eq_ofDigitChars_zero, Nat.mul_comm]

@[simp] theorem digitsValue_nil : digitsValue [] = 0 := rfl

@[simp] theorem digitsValue_replicate_zero (n : Nat) : digitsValue (List.replicate n '0') = 0 := by
  rw [digitsValue, Nat.ofDigitChars_replicate_zero, Nat.mul_zero]

/-- Zeros in front do not count. -/
theorem digitsValue_zeros_append (n : Nat) (s : Text) :
    digitsValue (List.replicate n '0' ++ s) = digitsValue s := by
  rw [digitsValue_append, digitsValue_replicate_zero, Nat.zero_mul, Nat.zero_add]

/-- Zeros at the end are factors of ten. -/
theorem digitsValue_append_zeros (s : Text) (n : Nat) :
    digitsValue (s ++ List.replicate n '0') = digitsValue s * 10 ^ n := by
  rw [digitsValue_append, digitsValue_replicate_zero, List.length_replicate, Nat.add_zero]

theorem digitsValue_singleton (c : Char) : digitsValue [c] = c.toNat - 48 := by
  simp [digitsValue, Nat.ofDigitChars_cons]

/-- A run of digits is less than the power of ten of its length. -/
theorem digitsValue_lt {s : Text} (h : ∀ c ∈ s, c.isDigit) : digitsValue s < 10 ^ s.length := by
  induction s with
  | nil => simp
  | cons c s ih =>
    obtain ⟨hc, hs⟩ := List.forall_mem_cons.mp h
    have hc : c.toNat - 48 ≤ 9 := by
      simp only [Char.isDigit, Bool.and_eq_true, decide_eq_true_eq, ge_iff_le, UInt32.le_iff_toNat_le] at hc
      exact Nat.sub_le_of_le_add hc.2
    have hvalue : digitsValue (c :: s) = (c.toNat - 48) * 10 ^ s.length + digitsValue s := by
      rw [← digitsValue_singleton, ← digitsValue_append, List.singleton_append]
    calc digitsValue (c :: s) = (c.toNat - 48) * 10 ^ s.length + digitsValue s := hvalue
      _ < 9 * 10 ^ s.length + 10 ^ s.length := Nat.add_lt_add_of_le_of_lt (Nat.mul_le_mul_right _ hc) (ih hs)
      _ = 10 ^ (c :: s).length := by rw [List.length_cons, Nat.pow_succ]; ring

/-! ### The digits of a number -/

theorem ofNat_mul_ten {n : Nat} (hn : 0 < n) : ofNat (n * 10) = ofNat n ++ ['0'] := by
  have h := Nat.toDigits_append_toDigits (b := 10) (d := 0) (by decide) hn (by decide)
  rw [Nat.toDigits_zero, Nat.add_zero, Nat.mul_comm] at h
  exact h.symm

/-- Multiplied by a power of ten a number is written with zeros at its end. -/
theorem ofNat_mul_pow {n : Nat} (hn : 0 < n) (z : Nat) :
    ofNat (n * 10 ^ z) = ofNat n ++ List.replicate z '0' := by
  induction z with
  | zero => simp
  | succ z ih =>
    rw [Nat.pow_succ, ← Nat.mul_assoc, ofNat_mul_ten (Nat.mul_pos hn (Nat.pow_pos (by decide))), ih,
      List.append_assoc, List.replicate_succ']

/-- A positive number does not begin with a zero. -/
theorem head?_ofNat_ne {n : Nat} (hn : 0 < n) : (ofNat n).head? ≠ some '0' := by
  induction n using Nat.strongRecOn with
  | ind n ih =>
    unfold ofNat
    rw [Nat.toDigits_eq_if (by decide)]
    split_ifs with h
    · have hdigit : ∀ m < 10, 0 < m → m.digitChar ≠ '0' := by decide
      simpa using hdigit n h hn
    · have hrest := ih (n / 10) (by omega) (by omega)
      obtain ⟨c, ds, hc⟩ := List.exists_cons_of_ne_nil (ofNat_ne_nil (n / 10))
      rw [ofNat] at hrest hc
      rw [hc] at hrest ⊢
      exact hrest

/-- The number of digits of a positive number. -/
theorem length_ofNat_bounds {n : Nat} (hn : 0 < n) :
    10 ^ ((ofNat n).length - 1) ≤ n ∧ n < 10 ^ (ofNat n).length := by
  have hlen : 0 < (ofNat n).length := List.length_pos_iff.mpr (ofNat_ne_nil n)
  refine ⟨?_, (Nat.length_toDigits_le_iff (by decide) hlen).mp (Nat.le_refl _)⟩
  rcases Nat.eq_zero_or_pos ((ofNat n).length - 1) with h | h
  · rw [h]
    exact hn
  · refine Nat.le_of_not_lt fun hlt => ?_
    have hle : (ofNat n).length ≤ (ofNat n).length - 1 :=
      (Nat.length_toDigits_le_iff (by decide) h).mpr hlt
    omega

/-! ### Numbers told apart -/

theorem ofNat_injective : Function.Injective ofNat := Function.LeftInverse.injective digitsValue_ofNat

theorem minus_not_mem_ofNat (n : Nat) : '-' ∉ ofNat n := fun h => by
  cases isDigit_of_mem_ofNat h

theorem ofInt_injective : Function.Injective ofInt
  | .ofNat n, .ofNat m, h => congrArg Int.ofNat (ofNat_injective h)
  | .ofNat n, .negSucc m, h => by
    have hn : ofNat n = '-' :: ofNat (m + 1) := h
    exact absurd (hn ▸ List.mem_cons_self) (minus_not_mem_ofNat n)
  | .negSucc n, .ofNat m, h => by
    have hm : '-' :: ofNat (n + 1) = ofNat m := h
    exact absurd (hm ▸ List.mem_cons_self) (minus_not_mem_ofNat m)
  | .negSucc n, .negSucc m, h => by
    have hnm := ofNat_injective (List.cons.inj h).2
    rw [Nat.succ.inj hnm]

/-- A number is written with digits and a minus sign. -/
theorem isDigit_or_eq_of_mem_ofInt {n : Int} {c : Char} (h : c ∈ ofInt n) : c.isDigit ∨ c = '-' := by
  cases n with
  | ofNat n => exact Or.inl (isDigit_of_mem_ofNat h)
  | negSucc n =>
    rcases List.mem_cons.mp h with rfl | h
    · exact Or.inr rfl
    · exact Or.inl (isDigit_of_mem_ofNat h)

/-! ### Zeros at the end -/

/-- A text without the zeros at its end, and these zeros. -/
theorem eq_append_zeros (s : Text) :
    s = (s.reverse.dropWhile (· = '0')).reverse ++
      List.replicate (s.reverse.takeWhile (· = '0')).length '0' := by
  have hsplit := List.takeWhile_append_dropWhile (p := (· = '0')) (l := s.reverse)
  have hzeros : s.reverse.takeWhile (· = '0') =
      List.replicate (s.reverse.takeWhile (· = '0')).length '0' :=
    List.eq_replicate_of_mem fun c hc => by simpa using List.mem_takeWhile_imp hc
  rw [← List.reverse_replicate, ← hzeros, ← List.reverse_append, hsplit, List.reverse_reverse]

/-- The value of digits is that without the zeros at the end, times a power of ten. -/
theorem digitsValue_eq_mul_pow (s : Text) :
    digitsValue s = digitsValue (s.reverse.dropWhile (· = '0')).reverse *
      10 ^ (s.reverse.takeWhile (· = '0')).length := by
  rw [← digitsValue_append_zeros, ← eq_append_zeros]

end DiceBot.Text
