import DiceBot.Expr.Evaluate
import DiceBot.Proofs.Expr.Arrangement
import DiceBot.Proofs.Expr.Cutting

/-! # From a text to its postfix order

A text is parsed if it can be cut into tokens, if the limits allow all of its dice terms
(`Limits.checkAll_eq_ok_iff`), and if its parentheses match; then the answer is the postfix order of its
tokens (`parse_eq_ok_iff`), and the machine is run on it (`yields_evaluate_iff`). The limits refuse tokens
for the first dice term beyond them (`Limits.checkAll_eq_error_iff`). -/

namespace DiceBot

/-! ### Limits -/

namespace Limits

/-- The limits allow a dice term. -/
def Allows (l : Limits) (t : DiceTerm) : Prop :=
  (∀ n ∈ l.maxRepeats, t.repeats ≤ n) ∧ ∀ n ∈ l.maxSides, t.sides ≤ n

/-- The limits allow all dice terms among the tokens. -/
def AllowsAll (l : Limits) (ts : List Token) : Prop :=
  ∀ t ∈ ts, ∀ term, t.kind = .operand (.dice term) → l.Allows term

/-- The bound that a dice term exceeds, with its limit and with what was found. The number of dice comes
first: the number of sides only counts if that is within its bound. -/
inductive Exceeds (l : Limits) (t : DiceTerm) : Bound → UInt32 → UInt32 → Prop where
  | repeats {n : UInt32} (hlimit : l.maxRepeats = some n) (hlt : n < t.repeats) :
      Exceeds l t .repeats n t.repeats
  | sides {n : UInt32} (hrepeats : ∀ m ∈ l.maxRepeats, t.repeats ≤ m) (hlimit : l.maxSides = some n)
      (hlt : n < t.sides) : Exceeds l t .sides n t.sides

/-- The limits refuse tokens for the first dice term among them that exceeds a bound, as it was typed. -/
inductive Refuses (l : Limits) : List Token → EvalError → Prop where
  | first {before after : List Token} {term : DiceTerm} {x : Text} {bound : Bound} {limit found : UInt32}
      (hbefore : l.AllowsAll before) (hterm : l.Exceeds term bound limit found) :
      Refuses l (before ++ ⟨.operand (.dice term), x⟩ :: after) (.rangeExceeded x bound limit found)

section Checks

variable {l : Limits} {term : DiceTerm} {t : Token} {ts : List Token} {x : Text} {bound : Bound}
  {limit : Option UInt32} {found : UInt32} {e : EvalError}

theorem checkBound_eq_ok_iff :
    checkBound x bound limit found = .ok () ↔ ∀ n ∈ limit, found ≤ n := by
  cases limit with
  | none => simp [checkBound]
  | some n =>
    by_cases h : n < found
    · simp [checkBound, h, UInt32.not_le.mpr h]
    · simp [checkBound, h, UInt32.not_lt.mp h]

theorem checkBound_eq_error_iff : checkBound x bound limit found = .error e ↔
    ∃ n, limit = some n ∧ n < found ∧ e = .rangeExceeded x bound n found := by
  cases limit with
  | none => simp [checkBound]
  | some n =>
    by_cases h : n < found
    · simp [checkBound, h, eq_comm]
    · simp [checkBound, h]

theorem check_eq_ok_iff : l.check term x = .ok () ↔ l.Allows term := by
  rw [check, check_bind_eq_ok_iff, checkBound_eq_ok_iff, checkBound_eq_ok_iff, Allows]

theorem check_eq_error_iff : l.check term x = .error e ↔
    ∃ bound limit found, l.Exceeds term bound limit found ∧ e = .rangeExceeded x bound limit found := by
  rw [check, bind_eq_error_iff]
  constructor
  · rintro (h | ⟨⟨⟩, hrepeats, h⟩)
    · obtain ⟨n, hlimit, hlt, he⟩ := checkBound_eq_error_iff.mp h
      exact ⟨.repeats, n, term.repeats, .repeats hlimit hlt, he⟩
    · obtain ⟨n, hlimit, hlt, he⟩ := checkBound_eq_error_iff.mp h
      exact ⟨.sides, n, term.sides, .sides (checkBound_eq_ok_iff.mp hrepeats) hlimit hlt, he⟩
  · rintro ⟨bound, limit, found, hexceeds, he⟩
    cases hexceeds with
    | repeats hlimit hlt => exact Or.inl (checkBound_eq_error_iff.mpr ⟨_, hlimit, hlt, he⟩)
    | sides hrepeats hlimit hlt =>
      exact Or.inr ⟨(), checkBound_eq_ok_iff.mpr hrepeats,
        checkBound_eq_error_iff.mpr ⟨_, hlimit, hlt, he⟩⟩

theorem checkToken_eq_ok_iff :
    l.checkToken t = .ok () ↔ ∀ term, t.kind = .operand (.dice term) → l.Allows term := by
  unfold checkToken
  split
  · next term hk => simp [check_eq_ok_iff, hk]
  · next hk => simpa using fun term h => absurd h (hk term)

theorem checkToken_eq_error_iff : l.checkToken t = .error e ↔
    ∃ term, t.kind = .operand (.dice term) ∧ l.check term t.text = .error e := by
  unfold checkToken
  split
  · next term hk => simp [hk]
  · next hk => simpa using fun term h => absurd h (hk term)

/-- **The limits let tokens pass** if they allow all dice terms among them. -/
theorem checkAll_eq_ok_iff : l.checkAll ts = .ok () ↔ l.AllowsAll ts := by
  unfold AllowsAll
  induction ts with
  | nil => simp [checkAll]
  | cons t ts ih =>
    rw [List.forall_mem_cons, ← ih, ← checkToken_eq_ok_iff, checkAll, check_bind_eq_ok_iff]

/-- The tokens behind those that the limits allow decide alone. -/
theorem checkAll_append (hbefore : l.AllowsAll ts) (us : List Token) :
    l.checkAll (ts ++ us) = l.checkAll us := by
  induction ts with
  | nil => rfl
  | cons t ts ih =>
    obtain ⟨ht, hts⟩ := List.forall_mem_cons.mp hbefore
    rw [List.cons_append, checkAll, checkToken_eq_ok_iff.mpr ht]
    exact ih hts

/-- **What the limits refuse** they refuse for its first dice term beyond them. -/
theorem checkAll_eq_error_iff : l.checkAll ts = .error e ↔ l.Refuses ts e := by
  constructor
  · intro h
    induction ts with
    | nil => cases h
    | cons t ts ih =>
      rcases bind_eq_error_iff.mp h with h | ⟨⟨⟩, ht, h⟩
      · obtain ⟨term, hk, hcheck⟩ := checkToken_eq_error_iff.mp h
        obtain ⟨kind, x⟩ := t
        obtain rfl : kind = .operand (.dice term) := hk
        obtain ⟨bound, limit, found, hexceeds, rfl⟩ := check_eq_error_iff.mp hcheck
        have hfirst : l.Refuses ([] ++ ⟨.operand (.dice term), x⟩ :: ts)
            (.rangeExceeded x bound limit found) := .first (List.forall_mem_nil _) hexceeds
        exact hfirst
      · cases ih h with
        | @first before _ _ _ _ _ _ hbefore hterm =>
          have hallowed : l.AllowsAll (t :: before) :=
            List.forall_mem_cons.mpr ⟨checkToken_eq_ok_iff.mp ht, hbefore⟩
          exact .first hallowed hterm
  · intro h
    cases h with
    | @first _ _ term x _ _ _ hbefore hterm =>
      have hcheck : l.check term x = .error _ := check_eq_error_iff.mpr ⟨_, _, _, hterm, rfl⟩
      rw [checkAll_append hbefore]
      exact bind_eq_error_iff.mpr (Or.inl (checkToken_eq_error_iff.mpr ⟨term, rfl, hcheck⟩))

end Checks

end Limits

/-! ### Parsing -/

/-- **What is parsed**: a text that can be cut, within the limits, whose tokens have a postfix order. -/
theorem parse_eq_ok_iff {limits : Limits} {s : Text} {p : List Token} :
    parse limits s = .ok p ↔ ∃ ts, IsCut s ts ∧ limits.AllowsAll ts ∧ Postfix.Arranges ts [] p := by
  have hparse : parse limits s = .ok p ↔ Lexer.validate s (Lexer.tokens s) = .ok () ∧
      limits.checkAll (Lexer.tokens s) = .ok () ∧ Postfix.ofInfix (Lexer.tokens s) = .ok p := by
    simp only [parse, check_bind_eq_ok_iff]
  rw [hparse, Limits.checkAll_eq_ok_iff, Postfix.ofInfix, Postfix.arrange_eq_ok_iff]
  constructor
  · rintro ⟨hv, hl, ha⟩
    exact ⟨_, isCut_iff.mpr ⟨rfl, hv⟩, hl, ha⟩
  · rintro ⟨ts, hcut, hl, ha⟩
    obtain ⟨rfl, hv⟩ := isCut_iff.mp hcut
    exact ⟨hv, hl, ha⟩

/-- An outcome comes from a text that is parsed, by a run of the machine. -/
theorem yields_evaluate_iff {σ : Type} [WordSource σ] {limits : Limits} {s : Text} {out : Outcome}
    {g g' : σ} : (evaluate limits s).Yields g out g' ↔
      ∃ p, parse limits s = .ok p ∧ (Machine.evaluate p).Yields g out g' := by
  unfold evaluate
  rw [Rolling.yields_bind_iff]
  constructor
  · rintro ⟨p, g₁, hparse, hrun⟩
    obtain ⟨hp, rfl⟩ := Rolling.yields_ofExcept_iff.mp hparse
    exact ⟨p, hp, hrun⟩
  · rintro ⟨p, hp, hrun⟩
    exact ⟨p, g, Rolling.yields_ofExcept_iff.mpr ⟨hp, rfl⟩, hrun⟩

end DiceBot
