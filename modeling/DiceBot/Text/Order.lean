import DiceBot.Text.Basic

/-! # The order of texts

Texts are compared character by character, by code points; this is also the order of their UTF-8
bytes. -/

namespace DiceBot.Text

/-- Whether `s` comes before `t`. -/
def isBefore : (s t : Text) → Bool
  | _, [] => false
  | [], _ :: _ => true
  | a :: s, b :: t => a.toNat < b.toNat || (a.toNat = b.toNat && isBefore s t)

theorem isBefore_irrefl (s : Text) : isBefore s s = false := by
  induction s with
  | nil => rfl
  | cons a s ih => simp [isBefore, ih]

/-- Of two texts that differ one comes before the other. -/
theorem isBefore_or_isBefore : ∀ {s t : Text}, s ≠ t → isBefore s t ∨ isBefore t s
  | [], [], h => absurd rfl h
  | [], _ :: _, _ => Or.inl rfl
  | _ :: _, [], _ => Or.inr rfl
  | a :: s, b :: t, h => by
    rcases Nat.lt_trichotomy a.toNat b.toNat with hab | hab | hab
    · left; simp [isBefore, hab]
    · have hc : a = b := Char.toNat_inj.mp hab
      subst hc
      have hst : s ≠ t := fun e => h (by rw [e])
      rcases isBefore_or_isBefore hst with hs | hs
      · left; simp [isBefore, hs]
      · right; simp [isBefore, hs]
    · right; simp [isBefore, hab]

end DiceBot.Text
