/-! # Ranges of code points

A property of characters is given as a list of closed ranges of code points. -/

namespace DiceBot.Text

/-- A closed range of code points: the first and the last. -/
abbrev CodeRange := Nat × Nat

/-- Whether one of the ranges holds the character. -/
def inRanges (ranges : List CodeRange) (c : Char) : Bool :=
  ranges.any fun r => r.1 ≤ c.toNat && c.toNat ≤ r.2

theorem inRanges_eq_true_iff {ranges : List CodeRange} {c : Char} :
    inRanges ranges c = true ↔ ∃ r ∈ ranges, r.1 ≤ c.toNat ∧ c.toNat ≤ r.2 := by
  simp [inRanges]

end DiceBot.Text
