import DiceBot.Proofs.Expr.Alike
import DiceBot.Proofs.Template.Validation

/-! # The same text with other dice

A text is refused before anything is rolled, whatever the dice: for its tokens, for the limits or for
its parentheses (`isRefusal_of_parse`). A text that is not refused comes to the machine, which fails
only for the shape of the text or for its arithmetic (`Machine.evaluate_endsIn`). So the errors of the
first kind are the same for all dice, and a text that has a value with some dice fails with others only
for its arithmetic (`evaluate_rerolled`). -/

namespace DiceBot

/-- A reason to refuse a text before anything is rolled. -/
def EvalError.IsRefusal : EvalError → Prop
  | .invalidToken _ | .rangeExceeded .. | .mismatchedParen => True
  | .malformedExpression | .divisionByZero | .overflow => False

theorem EvalError.IsArithmetic.not_isRefusal {e : EvalError} (h : e.IsArithmetic) :
    ¬e.IsRefusal := by
  rcases h with rfl | rfl <;> exact id

/-! ### Refusals -/

theorem Limits.Refuses.isRefusal {l : Limits} {ts : List Token} {e : EvalError} (h : l.Refuses ts e) :
    e.IsRefusal := by
  cases h with
  | first => trivial

/-- **What is not parsed is refused.** -/
theorem isRefusal_of_parse {limits : Limits} {s : Text} {e : EvalError}
    (h : parse limits s = .error e) : e.IsRefusal := by
  rcases bind_eq_error_iff.mp h with h | ⟨-, -, h⟩
  · rw [Lexer.validate_of_ne_ok (by simp [h])] at h
    cases h
    trivial
  · rcases bind_eq_error_iff.mp h with h | ⟨-, -, h⟩
    · exact (Limits.checkAll_eq_error_iff.mp h).isRefusal
    · rw [Postfix.eq_mismatchedParen_of_arrange h]
      trivial

/-! ### Failures of the machine -/

namespace Machine

variable {σ : Type} [WordSource σ]

/-- An operator fails without two values, or for its arithmetic. -/
theorem not_isRefusal_of_applyOperator {m : Machine} {op : Operator} {e : EvalError}
    (h : m.applyOperator op = .error e) : ¬e.IsRefusal := by
  unfold applyOperator at h
  split at h
  · next b a stack _ =>
    cases hop : op.apply a b with
    | error e' =>
      rw [hop] at h
      cases h
      exact (Operator.isArithmetic_of_apply hop).not_isRefusal
    | ok v =>
      rw [hop] at h
      cases h
  · cases h
    exact id

theorem step_endsIn : ∀ {t : Token}, Spells t.kind t.text → ∀ (m : Machine) (g : σ),
    (m.step t).EndsIn (¬EvalError.IsRefusal ·) g
  | ⟨.operand (.integer n), x⟩, _, m, g => Rolling.endsIn_pure _ g
  | ⟨.operand (.dice t), x⟩, h, m, g => by
    obtain ⟨hrepeats, hsides⟩ := Spells.counts_pos h
    have hroll := (DiceTerm.roll_endsIn hrepeats hsides g).mono fun e he => he.not_isRefusal
    exact hroll.bind fun r g' _ => Rolling.endsIn_pure _ g'
  | ⟨.operator op, x⟩, _, m, g =>
    Rolling.endsIn_ofExcept (fun _ he => not_isRefusal_of_applyOperator he) g
  | ⟨.leftParen, x⟩, _, m, g =>
    .error (show _ = some (Except.error .malformedExpression, g) from rfl) id
  | ⟨.rightParen, x⟩, _, m, g =>
    .error (show _ = some (Except.error .malformedExpression, g) from rfl) id

theorem run_endsIn {ts : List Token} (hts : ∀ t ∈ ts, Spells t.kind t.text) (m : Machine) (g : σ) :
    (m.run ts).EndsIn (¬EvalError.IsRefusal ·) g := by
  induction ts generalizing m g with
  | nil => exact Rolling.endsIn_pure m g
  | cons t ts ih =>
    obtain ⟨ht, hts⟩ := List.forall_mem_cons.mp hts
    rw [run_cons]
    exact (step_endsIn ht m g).bind fun m' g' _ => ih hts m' g'

/-- **The machine refuses nothing**: spelled tokens have a value, or fail for their shape or their
arithmetic. -/
theorem evaluate_endsIn {ts : List Token} (hts : ∀ t ∈ ts, Spells t.kind t.text) (g : σ) :
    (evaluate ts).EndsIn (¬EvalError.IsRefusal ·) g := by
  refine (run_endsIn hts empty g).bind fun m g' _ => Rolling.endsIn_ofExcept (fun e he => ?_) g'
  unfold outcome at he
  split at he <;> cases he
  exact id

end Machine

/-! ### Texts -/

section Evaluate

variable {σ τ : Type} [WordSource σ] [WordSource τ] {limits : Limits} {s : Text}

/-- A text that is not parsed fails at once. -/
theorem fails_of_parse_eq_error {e : EvalError} (h : parse limits s = .error e) (g : σ) :
    (evaluate limits s).Fails g e g := by
  unfold Rolling.Fails evaluate
  rw [h]
  rfl

/-- A text that is parsed is not refused any more. -/
theorem evaluate_endsIn_of_parse {p : List Token} (h : parse limits s = .ok p) (g : σ) :
    (evaluate limits s).EndsIn (¬EvalError.IsRefusal ·) g := by
  obtain ⟨ts, hcut, -, harr⟩ := parse_eq_ok_iff.mp h
  have hspells : ∀ t ∈ p, Spells t.kind t.text := fun t ht => by
    rcases harr.mem_or_mem t ht with ht | ht
    · exact hcut.spells t ht
    · cases ht
  unfold evaluate
  rw [h, Rolling.ofExcept_ok, pure_bind]
  exact Machine.evaluate_endsIn hspells g

/-- Every text has an end with a steady source. -/
theorem exists_run_evaluate (hσ : Steady σ) (limits : Limits) (s : Text) (g : σ) :
    ∃ outcome g', (evaluate limits s).run g = some (outcome, g') := by
  cases hparse : parse limits s with
  | error e => exact ⟨_, _, fails_of_parse_eq_error hparse g⟩
  | ok p => exact (evaluate_endsIn_of_parse hparse g).exists_run hσ

/-- **A refusal is one for all dice**, and nothing is drawn for it. -/
theorem fails_of_isRefusal {e : EvalError} {g g' : σ} (he : e.IsRefusal)
    (h : (evaluate limits s).Fails g e g') : g' = g ∧ ∀ k : τ, (evaluate limits s).Fails k e k := by
  cases hparse : parse limits s with
  | error e' =>
    obtain ⟨rfl, rfl⟩ := (fails_of_parse_eq_error hparse g).unique h
    exact ⟨rfl, fun k => fails_of_parse_eq_error hparse k⟩
  | ok p => exact absurd he ((evaluate_endsIn_of_parse hparse g).of_fails h)

/-- **The same text with other dice.** A refusal comes with all dice and draws nothing. If the text has
a value with some dice, it is malformed with none: with others it has a value or fails for its
arithmetic, and so does a template that was accepted, or that was filled and had a value. -/
theorem evaluate_rerolled (limits : Limits) (s : Text) :
    (∀ (e : EvalError) (g g' : σ), e.IsRefusal → (evaluate limits s).Fails g e g' →
      g' = g ∧ ∀ k : τ, (evaluate limits s).Fails k e k) ∧
    (∀ (out : Outcome) (g g' : σ), (evaluate limits s).Yields g out g' → ∀ k : τ,
      (∀ k', ¬(evaluate limits s).Fails k .malformedExpression k') ∧
        (evaluate limits s).EndsIn EvalError.IsArithmetic k) ∧
    (∀ g g' : σ, (Template.validate limits s).Yields g () g' → ∀ k : τ,
      (Template.validate limits s).EndsIn EvalError.IsArithmetic k) ∧
    ∀ (args : List Text) (out : Outcome) (g g' : σ), (Template.evaluate limits s args).Yields g out g' →
      ∀ k : τ, (Template.evaluate limits s args).EndsIn EvalError.IsArithmetic k := by
  refine ⟨fun e g g' he h => fails_of_isRefusal he h, fun out g g' h k => ?_, fun g g' h k => ?_,
    fun args out g g' h k => evaluate_endsIn_of_yields h k⟩
  · have hends := evaluate_endsIn_of_yields h k
    refine ⟨fun k' hk => ?_, hends⟩
    rcases hends.of_fails hk with he | he <;> cases he
  · obtain ⟨out, hout⟩ := Template.yields_validate_iff.mp h
    exact (evaluate_endsIn_of_yields hout k).bind fun _ k' _ => Rolling.endsIn_pure _ k'

end Evaluate

/-- A quotient that is a number with a two and none with a one, a template that divides by its trial,
and a text beyond the limits. -/
theorem evaluate_rerolled_quotient :
    let limits : Limits := ⟨some 3, some 4⟩
    let quotient := "6/(1d2-1)".toList
    let template := "6/(1d2-A)".toList
    let beyond : EvalError := .rangeExceeded "1d5".toList .sides 4 5
    ((evaluate limits quotient).Yields (⟨[0x80000000]⟩ : Script) ⟨6, [⟨"1d2".toList, [2]⟩]⟩ ⟨[]⟩ ∧
      (Template.validate limits template).Yields (⟨[0x80000000]⟩ : Script) () ⟨[]⟩ ∧
      beyond.IsRefusal ∧ (evaluate limits "1d4+(1d5".toList).Fails (⟨[7]⟩ : Script) beyond ⟨[7]⟩) ∧
    ∀ k : Metered Script,
      (evaluate limits quotient).EndsIn EvalError.IsArithmetic k ∧
        (Template.validate limits template).EndsIn EvalError.IsArithmetic k ∧
        (evaluate limits "1d4+(1d5".toList).Fails k beyond k := by
  intro limits quotient template beyond
  have hquotient : (evaluate limits quotient).Yields (⟨[0x80000000]⟩ : Script)
      ⟨6, [⟨"1d2".toList, [2]⟩]⟩ ⟨[]⟩ := by
    unfold Rolling.Yields
    decide +kernel
  have htemplate : (Template.validate limits template).Yields (⟨[0x80000000]⟩ : Script) () ⟨[]⟩ := by
    unfold Rolling.Yields
    decide +kernel
  have hbeyond : (evaluate limits "1d4+(1d5".toList).Fails (⟨[7]⟩ : Script) beyond ⟨[7]⟩ := by
    unfold Rolling.Fails
    decide +kernel
  refine ⟨⟨hquotient, htemplate, trivial, hbeyond⟩, fun k => ⟨?_, ?_, ?_⟩⟩
  · exact ((evaluate_rerolled limits quotient).2.1 _ _ _ hquotient k).2
  · exact (evaluate_rerolled limits template).2.2.1 _ _ htemplate k
  · have hrefusal : beyond.IsRefusal := trivial
    exact ((evaluate_rerolled limits _).1 _ _ _ hrefusal hbeyond).2 k

end DiceBot
