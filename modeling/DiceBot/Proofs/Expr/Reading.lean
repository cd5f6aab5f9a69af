import DiceBot.Expr.Lexer
import DiceBot.Expr.Spelling

/-! # What the readers read

A reader of tokens takes exactly the texts that spell a token: whatever is read is a spelling
(`readToken_spells`), and a spelling is read as its token, whatever follows, unless what follows could
belong to the token too (`readToken_append`). That is so after a number when digits follow, and after
a number or a dice term when a `d` or a mark follows (`resumes`). -/

namespace DiceBot

/-! ### Digits at the ends of texts -/

/-- Whether a text begins with a character that only stands inside of a dice term. -/
def resumes : Text → Bool
  | [] => false
  | c :: _ => c = 'd' || c = '!' || c = '?'

theorem startsWithDigit_append {x : Text} (hx : x ≠ []) (s : Text) :
    startsWithDigit (x ++ s) = startsWithDigit x := by
  obtain ⟨c, x, rfl⟩ := List.exists_cons_of_ne_nil hx
  rfl

theorem endsWithDigit_append {y : Text} (hy : y ≠ []) (x : Text) :
    endsWithDigit (x ++ y) = endsWithDigit y := by
  unfold endsWithDigit
  rw [List.reverse_append, startsWithDigit_append (by simpa using hy)]

theorem endsWithDigit_of_isDigit {ds : Text} (hne : ds ≠ []) (hd : ∀ c ∈ ds, c.isDigit) :
    endsWithDigit ds := by
  unfold endsWithDigit
  obtain ⟨c, r, hr⟩ := List.exists_cons_of_ne_nil (l := ds.reverse) (by simpa using hne)
  rw [hr]
  exact hd c (List.mem_reverse.mp (by rw [hr]; exact List.mem_cons_self))

theorem IsCount.ne_nil {ds : Text} {n : UInt32} (h : IsCount ds n) : ds ≠ [] := by
  rintro rfl
  have hv := h.value
  have hp := h.pos
  rw [← hv] at hp
  exact absurd hp (by decide)

namespace Lexer

/-! ### Numbers -/

theorem digits_eq_nil {s : Text} (hs : startsWithDigit s = false) : digits s = [] := by
  cases s with
  | nil => rfl
  | cons c s =>
    have hc : c.isDigit = false := hs
    simp [digits, hc]

theorem digits_append {ds s : Text} (hd : ∀ c ∈ ds, c.isDigit) (hs : startsWithDigit s = false) :
    digits (ds ++ s) = ds := by
  have hnil : s.takeWhile Char.isDigit = [] := digits_eq_nil hs
  rw [digits, List.takeWhile_append_of_pos hd, hnil, List.append_nil]

theorem afterDigits_append {ds s : Text} (hd : ∀ c ∈ ds, c.isDigit)
    (hs : startsWithDigit s = false) : afterDigits (ds ++ s) = s := by
  rw [afterDigits, List.dropWhile_append_of_pos hd]
  cases s with
  | nil => rfl
  | cons c s =>
    have hc : c.isDigit = false := hs
    simp [hc]

theorem isDigit_of_mem_digits {s : Text} : ∀ c ∈ digits s, c.isDigit := by
  induction s with
  | nil => simp [digits]
  | cons c s ih =>
    intro d hd
    rw [digits, List.takeWhile_cons] at hd
    split at hd
    · next hc =>
      rcases List.mem_cons.mp hd with rfl | hd
      · exact hc
      · exact ih d hd
    · cases hd

theorem startsWithDigit_afterDigits (s : Text) : startsWithDigit (afterDigits s) = false := by
  induction s with
  | nil => rfl
  | cons c s ih =>
    rw [afterDigits, List.dropWhile_cons]
    split
    · exact ih
    · next hc => simpa [startsWithDigit] using hc

theorem readCount_append {ds s : Text} {n : UInt32} (h : IsCount ds n)
    (hs : startsWithDigit s = false) : readCount (ds ++ s) = some (n, s) := by
  have hv := h.value
  have hn : n.toNat ≤ maxCount := by
    have := n.toNat_lt
    unfold maxCount
    omega
  unfold readCount
  rw [digits_append h.isDigit hs, afterDigits_append h.isDigit hs]
  simp [hv, hn, h.pos]

theorem readCount_isCount {s rest : Text} {n : UInt32} (h : readCount s = some (n, rest)) :
    ∃ ds, IsCount ds n ∧ s = ds ++ rest ∧ startsWithDigit rest = false := by
  simp only [readCount, Option.ite_none_right_eq_some, Option.some.injEq, Prod.mk.injEq] at h
  obtain ⟨⟨hpos, hle⟩, rfl, rfl⟩ := h
  have hn : (UInt32.ofNat (Text.digitsValue (digits s))).toNat = Text.digitsValue (digits s) := by
    rw [UInt32.toNat_ofNat', Nat.mod_eq_of_lt]
    unfold maxCount at hle
    omega
  exact ⟨digits s, ⟨isDigit_of_mem_digits, hn.symm, by rw [hn]; exact hpos⟩,
    (digits_append_afterDigits s).symm, startsWithDigit_afterDigits s⟩

/-- A text that does not begin with a digit does not begin with a count. -/
theorem readCount_eq_none {s : Text} (hs : startsWithDigit s = false) : readCount s = none := by
  rw [readCount, digits_eq_nil hs]
  rfl

/-! ### Dice terms -/

theorem readModifier_append {k : Modifier} {s : Text} (hs : resumes s = false) :
    readModifier (k.mark ++ s) = (k, s) := by
  cases k with
  | none =>
    cases s with
    | nil => rfl
    | cons c s =>
      simp only [resumes, Bool.or_eq_false_iff, decide_eq_false_iff_not] at hs
      simp only [Modifier.mark, List.nil_append]
      unfold readModifier
      split
      · next h => cases h; exact absurd rfl hs.1.2
      · next h => cases h; exact absurd rfl hs.2
      · rfl
  | highest => rfl
  | lowest => rfl

theorem readDice_append {t : DiceTerm} {x s : Text} (hx : Spells (.operand (.dice t)) x)
    (hsep : ¬(endsWithDigit x ∧ startsWithDigit s)) (hs : resumes s = false) :
    readDice (x ++ s) = some (t, s) := by
  cases hx with
  | @dice ds es n m k hn hm =>
    have hd : startsWithDigit ('d' :: (es ++ (k.mark ++ s))) = false := rfl
    have hk : startsWithDigit (k.mark ++ s) = false := by
      cases k with
      | none =>
        have hend : endsWithDigit (ds ++ 'd' :: es ++ Modifier.none.mark) := by
          rw [Modifier.mark, List.append_nil, ← List.singleton_append, ← List.append_assoc,
            endsWithDigit_append hm.ne_nil]
          exact endsWithDigit_of_isDigit hm.ne_nil hm.isDigit
        exact Bool.eq_false_iff.mpr fun h => hsep ⟨hend, h⟩
      | highest => rfl
      | lowest => rfl
    have hassoc : ds ++ 'd' :: es ++ k.mark ++ s = ds ++ 'd' :: (es ++ (k.mark ++ s)) := by simp
    rw [hassoc, readDice, readCount_append hn hd]
    simp only [readSides, readCount_append hm hk, readModifier_append hs]

theorem readDice_spells {t : DiceTerm} {s rest : Text} (h : readDice s = some (t, rest)) :
    ∃ x, Spells (.operand (.dice t)) x ∧ s = x ++ rest ∧
      ¬(endsWithDigit x ∧ startsWithDigit rest) := by
  unfold readDice at h
  split at h
  · next n s₁ hn =>
    unfold readSides at h
    split at h
    · next m s₂ hm =>
      obtain ⟨ds, hds, rfl, -⟩ := readCount_isCount hn
      obtain ⟨es, hes, rfl, hs₂⟩ := readCount_isCount hm
      have hmod := readModifier_eq_append s₂
      rcases hk : readModifier s₂ with ⟨k, s₃⟩
      rw [hk] at hmod
      simp only [hk, Option.some.injEq, Prod.mk.injEq] at h
      obtain ⟨rfl, rfl⟩ := h
      refine ⟨ds ++ 'd' :: es ++ k.mark, .dice k hds hes, by simp [hmod], fun ⟨hend, hst⟩ => ?_⟩
      cases k with
      | none =>
        -- without a mark, the digits of the sides end where the rest begins
        have hrest : s₂ = s₃ := hmod
        rw [hrest, hst] at hs₂
        cases hs₂
      | highest =>
        rw [endsWithDigit_append (by simp [Modifier.mark])] at hend
        exact absurd hend (by decide)
      | lowest =>
        rw [endsWithDigit_append (by simp [Modifier.mark])] at hend
        exact absurd hend (by decide)
    · cases h
  · cases h

/-! ### Tokens -/

theorem readDice_eq_none {s : Text} (hs : startsWithDigit s = false) : readDice s = none := by
  rw [readDice, readCount_eq_none hs]

theorem readInteger_eq_none {s : Text} (hs : startsWithDigit s = false) : readInteger s = none := by
  rw [readInteger, digits_eq_nil hs]
  rfl

/-- Digits before anything but a `d` are no dice term. -/
theorem readDice_digits {ds s : Text} (hd : ∀ c ∈ ds, c.isDigit) (hst : startsWithDigit s = false)
    (hs : resumes s = false) : readDice (ds ++ s) = none := by
  unfold readDice
  split
  · next n s' hn =>
    -- the count is all of the digits, so the `d` would be the first character of `s`
    simp only [readCount, Option.ite_none_right_eq_some, Option.some.injEq, Prod.mk.injEq,
      afterDigits_append hd hst] at hn
    rw [hn.2.2] at hs
    cases hs
  · rfl

/-- **A spelling is read as its token**, unless what follows could belong to it. -/
theorem readToken_append {k : TokenKind} {x s : Text} (hx : Spells k x)
    (hsep : ¬(endsWithDigit x ∧ startsWithDigit s)) (hs : resumes s = false) :
    readToken (x ++ s) = some (k, s) := by
  cases hx with
  | @integer ds hne hd hle =>
    have hst : startsWithDigit s = false := Bool.eq_false_iff.mpr fun h =>
      hsep ⟨endsWithDigit_of_isDigit hne hd, h⟩
    have hint : readInteger (x ++ s) = some ((Text.digitsValue x : Int), s) := by
      rw [readInteger, digits_append hd hst, afterDigits_append hd hst]
      simp [hne, hle]
    rw [readToken, readDice_digits hd hst hs, hint]
  | dice k hn hm => rw [readToken, readDice_append (.dice k hn hm) hsep hs]
  | operator op =>
    have hst : startsWithDigit (op.symbol :: s) = false := by cases op <;> rfl
    rw [List.singleton_append, readToken, readDice_eq_none hst, readInteger_eq_none hst]
    cases op <;> rfl
  | leftParen =>
    rw [List.singleton_append, readToken, readDice_eq_none rfl, readInteger_eq_none rfl]
    rfl
  | rightParen =>
    rw [List.singleton_append, readToken, readDice_eq_none rfl, readInteger_eq_none rfl]
    rfl

/-- **What is read is a spelling**, and its digits end where the rest begins. -/
theorem readToken_spells {k : TokenKind} {s rest : Text} (h : readToken s = some (k, rest)) :
    ∃ x, Spells k x ∧ s = x ++ rest ∧ ¬(endsWithDigit x ∧ startsWithDigit rest) := by
  unfold readToken at h
  split at h
  · next t rest' ht =>
    cases h
    exact readDice_spells ht
  · split at h
    · next n rest' hn =>
      cases h
      simp only [readInteger, Option.ite_none_right_eq_some, Option.some.injEq, Prod.mk.injEq] at hn
      obtain ⟨⟨hne, hle⟩, rfl, rfl⟩ := hn
      refine ⟨digits s, .integer hne isDigit_of_mem_digits hle, (digits_append_afterDigits s).symm,
        fun h => ?_⟩
      rw [startsWithDigit_afterDigits] at h
      cases h.2
    · split at h
      · next op rest' hop =>
        cases h
        refine ⟨[op.symbol], .operator op, readOperator_eq_append hop, fun h => ?_⟩
        cases op <;> exact absurd h.1 (by decide)
      · have hs := readParen_eq_append h
        unfold readParen at h
        split at h
        · cases h
          exact ⟨['('], .leftParen, hs, fun h => absurd h.1 (by decide)⟩
        · cases h
          exact ⟨[')'], .rightParen, hs, fun h => absurd h.1 (by decide)⟩
        · cases h

end Lexer

end DiceBot
