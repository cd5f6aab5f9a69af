import DiceBot.Error

/-! # Values

The value of an expression is a whole number from `-2^63` to `2^63 - 1`. Every operation is carried
out exactly and its result is then `checked` against this range. -/

namespace DiceBot

/-- The smallest value, `-2^63`. -/
def minValue : Int := -0x8000000000000000

/-- The largest value, `2^63 - 1`. -/
def maxValue : Int := 0x7fffffffffffffff

/-- Whether `n` is a value. -/
def IsValue (n : Int) : Prop := minValue ≤ n ∧ n ≤ maxValue

instance (n : Int) : Decidable (IsValue n) := inferInstanceAs (Decidable (_ ∧ _))

/-- The exact result `n`, unless it is outside the range of values. -/
def checked (n : Int) : Except EvalError Int := if IsValue n then .ok n else .error .overflow

theorem checked_eq_ok_iff {n m : Int} : checked n = .ok m ↔ IsValue n ∧ n = m := by
  unfold checked
  split <;> simp_all

theorem checked_eq_error_iff {n : Int} {e : EvalError} :
    checked n = .error e ↔ ¬IsValue n ∧ e = .overflow := by
  unfold checked
  split <;> simp_all [eq_comm]

end DiceBot
