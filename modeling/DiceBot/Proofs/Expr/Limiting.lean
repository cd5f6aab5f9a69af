import DiceBot.Proofs.Expr.Rerolling

/-! # What the limits do

A text that cannot be cut into tokens is invalid, whatever the limits. Of a text that can be cut, the
limits look at the dice terms, from left to right, before anything is said about its parentheses or its
shape and before anything is rolled: they refuse it for the first term beyond a bound
(`fails_of_refuses`), or else they do nothing (`parse_of_allowsAll`). So whatever comes with some limits, but
a term beyond them, comes with looser ones too (`evaluate_limited`). -/

namespace DiceBot

namespace Limits

/-- Every bound of the first limits is one of the others, or a greater one. -/
structure Looser (l' l : Limits) : Prop where
  repeats : ∀ n ∈ l'.maxRepeats, ∃ m ∈ l.maxRepeats, m ≤ n
  sides : ∀ n ∈ l'.maxSides, ∃ m ∈ l.maxSides, m ≤ n

theorem Looser.allows {l' l : Limits} (h : l'.Looser l) {t : DiceTerm} (ht : l.Allows t) :
    l'.Allows t := by
  obtain ⟨hrepeats, hsides⟩ := ht
  refine ⟨fun n hn => ?_, fun n hn => ?_⟩
  · obtain ⟨m, hm, hmn⟩ := h.repeats n hn
    exact UInt32.le_trans (hrepeats m hm) hmn
  · obtain ⟨m, hm, hmn⟩ := h.sides n hn
    exact UInt32.le_trans (hsides m hm) hmn

theorem Looser.allowsAll {l' l : Limits} (h : l'.Looser l) {ts : List Token} (hts : l.AllowsAll ts) :
    l'.AllowsAll ts :=
  fun t ht term hk => h.allows (hts t ht term hk)

/-- No bounds at all are looser than any. -/
theorem looser_unlimited (l : Limits) : unlimited.Looser l where
  repeats _ hn := by cases hn
  sides _ hn := by cases hn

end Limits

/-! ### The three stages -/

section Stages

variable {limits : Limits} {s : Text} {ts : List Token} {e : EvalError}

/-- A text that is not valid is invalid whatever the limits. -/
theorem parse_of_not_valid (h : Lexer.validate s (Lexer.tokens s) ≠ .ok ()) :
    parse limits s = .error (.invalidToken s) :=
  bind_eq_error_iff.mpr (Or.inl (Lexer.validate_of_ne_ok h))

/-- Of a text that is cut, the limits see the tokens before they are put into postfix order. -/
theorem parse_of_isCut (hcut : IsCut s ts) :
    parse limits s = (limits.checkAll ts >>= fun _ => Postfix.ofInfix ts) := by
  obtain ⟨rfl, hvalid⟩ := isCut_iff.mp hcut
  rw [parse, hvalid]
  rfl

/-- **Within the limits** a text is parsed as it is without them. -/
theorem parse_of_allowsAll (hcut : IsCut s ts) (h : limits.AllowsAll ts) :
    parse limits s = Postfix.ofInfix ts := by
  rw [parse_of_isCut hcut, Limits.checkAll_eq_ok_iff.mpr h]
  rfl

variable {σ : Type} [WordSource σ]

/-- **Beyond the limits** a text fails for the term that the limits refuse it for. -/
theorem fails_of_refuses (hcut : IsCut s ts) (h : limits.Refuses ts e) (g : σ) :
    (evaluate limits s).Fails g e g := by
  have hcheck := Limits.checkAll_eq_error_iff.mpr h
  have hparse : parse limits s = .error e := by
    rw [parse_of_isCut hcut, hcheck]
    rfl
  exact fails_of_parse_eq_error hparse g

/-- All limits that allow the terms of a text have the same effect on it. -/
theorem evaluate_of_allowsAll {limits' : Limits} (hcut : IsCut s ts) (h : limits.AllowsAll ts)
    (h' : limits'.AllowsAll ts) :
    (evaluate limits s : Rolling σ Outcome) = evaluate limits' s := by
  unfold evaluate
  rw [parse_of_allowsAll hcut h, parse_of_allowsAll hcut h']

/-- A text is not valid, or it can be cut, and then the limits refuse it or allow all of it. -/
theorem not_valid_or_refuses_or_allowsAll (limits : Limits) (s : Text) :
    Lexer.validate s (Lexer.tokens s) ≠ .ok () ∨ (∃ ts e, IsCut s ts ∧ limits.Refuses ts e) ∨
      ∃ ts, IsCut s ts ∧ limits.AllowsAll ts := by
  by_cases hvalid : Lexer.validate s (Lexer.tokens s) = .ok ()
  · have hcut : IsCut s (Lexer.tokens s) := isCut_iff.mpr ⟨rfl, hvalid⟩
    cases hcheck : limits.checkAll (Lexer.tokens s) with
    | ok u => exact Or.inr (Or.inr ⟨_, hcut, Limits.checkAll_eq_ok_iff.mp hcheck⟩)
    | error e => exact Or.inr (Or.inl ⟨_, e, hcut, Limits.checkAll_eq_error_iff.mp hcheck⟩)
  · exact Or.inl hvalid

/-- **Looser limits** change nothing but that terms are within them that were not. -/
theorem evaluate_of_looser {looser : Limits} (hlooser : looser.Looser limits) (g : σ)
    (h : ∀ x bound limit found g',
      ¬(evaluate limits s).Fails g (.rangeExceeded x bound limit found) g') :
    (evaluate looser s).run g = (evaluate limits s).run g := by
  rcases not_valid_or_refuses_or_allowsAll limits s with hvalid | ⟨ts, e, hcut, hrefuses⟩ | ⟨ts, hcut, hall⟩
  · have hfails : ∀ l : Limits, (evaluate l s).run g = some (.error (.invalidToken s), g) := fun l =>
      fails_of_parse_eq_error (parse_of_not_valid hvalid) g
    rw [hfails, hfails]
  · have hfails := fails_of_refuses hcut hrefuses g
    cases hrefuses with
    | first => exact absurd hfails (h _ _ _ _ g)
  · rw [evaluate_of_allowsAll hcut (hlooser.allowsAll hall) hall]

/-- **Limits only refuse**, and before anything is drawn: a text is invalid, or it is refused for its
first term beyond a bound, or it is evaluated as it is without limits. So what comes with some limits
comes with looser ones too, unless a term is beyond the former. -/
theorem evaluate_limited (limits : Limits) (s : Text) :
    ((Lexer.validate s (Lexer.tokens s) ≠ .ok () ∧
        ∀ g : σ, (evaluate limits s).Fails g (.invalidToken s) g) ∨
      (∃ ts e, IsCut s ts ∧ limits.Refuses ts e ∧ ∀ g : σ, (evaluate limits s).Fails g e g) ∨
      ∃ ts, IsCut s ts ∧ limits.AllowsAll ts ∧
        (evaluate limits s : Rolling σ Outcome) = evaluate .unlimited s) ∧
    ∀ (looser : Limits) (g : σ), looser.Looser limits →
      (∀ x bound limit found g',
        ¬(evaluate limits s).Fails g (.rangeExceeded x bound limit found) g') →
      (evaluate looser s).run g = (evaluate limits s).run g := by
  refine ⟨?_, fun looser g hlooser h => evaluate_of_looser hlooser g h⟩
  rcases not_valid_or_refuses_or_allowsAll limits s with hvalid | ⟨ts, e, hcut, hrefuses⟩ | ⟨ts, hcut, hall⟩
  · exact Or.inl ⟨hvalid, fails_of_parse_eq_error (parse_of_not_valid hvalid)⟩
  · exact Or.inr (Or.inl ⟨ts, e, hcut, hrefuses, fails_of_refuses hcut hrefuses⟩)
  · have hunlimited := (limits.looser_unlimited).allowsAll hall
    exact Or.inr (Or.inr ⟨ts, hcut, hall, evaluate_of_allowsAll hcut hall hunlimited⟩)

end Stages

/-- A text with several faults is refused for its first term beyond a bound, and for the number of its dice. A
quotient fails behind two dice, with looser limits too. -/
theorem evaluate_limited_faults :
    let limits : Limits := ⟨some 3, some 4⟩
    let looser : Limits := ⟨some 5, none⟩
    let faulty := "1d4+(4d5*2d9".toList
    let quotient := "2d2/(1-1)".toList
    (looser.Looser limits ∧
      (evaluate limits quotient).Fails (⟨[0, 0x80000000, 7]⟩ : Script) .divisionByZero ⟨[7]⟩) ∧
    (evaluate looser quotient).Fails (⟨[0, 0x80000000, 7]⟩ : Script) .divisionByZero ⟨[7]⟩ ∧
    (evaluate limits faulty).Fails (⟨[7]⟩ : Script) (.rangeExceeded "4d5".toList .repeats 3 4) ⟨[7]⟩ ∧
    (evaluate looser faulty).Fails (⟨[7]⟩ : Script) .mismatchedParen ⟨[7]⟩ := by
  intro limits looser faulty quotient
  have hlooser : looser.Looser limits :=
    ⟨fun n hn => ⟨3, rfl, by cases hn; decide⟩, fun n hn => by cases hn⟩
  have hquotient : (evaluate limits quotient).Fails (⟨[0, 0x80000000, 7]⟩ : Script)
      .divisionByZero ⟨[7]⟩ := by
    unfold Rolling.Fails
    decide +kernel
  have hsame := (evaluate_limited limits quotient).2 looser (⟨[0, 0x80000000, 7]⟩ : Script) hlooser
    fun x bound limit found g' h => by cases (hquotient.unique h).1
  refine ⟨⟨hlooser, hquotient⟩, hsame.trans hquotient, ?_, ?_⟩
  · unfold Rolling.Fails
    decide +kernel
  · unfold Rolling.Fails
    decide +kernel

end DiceBot
