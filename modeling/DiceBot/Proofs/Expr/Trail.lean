import DiceBot.Proofs.Expr.Parsing
import DiceBot.Proofs.Expr.Stack
import Mathlib.Data.List.Forall2

/-! # The trail of an evaluation

The trail accounts for the value. It has one record for each dice term of the text, in the order of the
text, and each record holds all the dice of its term (`IsRecord`). Put what each record stands for in
the place of its dice term (`settle`): the machine then comes to the same value without a single die
(`Runs.exists_records`, `evaluate_trail`). -/

namespace DiceBot

/-- The dice term among operands. -/
def Operand.term? : Operand × Text → Option (DiceTerm × Text)
  | (.dice t, x) => some (t, x)
  | _ => none

/-- The dice term of a token and the text it was typed as. -/
def Token.dice? (t : Token) : Option (DiceTerm × Text) := t.operand?.bind Operand.term?

/-- The record of a dice term: its text, and as many dice as it has, each on one of its faces. -/
structure IsRecord (t : DiceTerm × Text) (r : RollRecord) : Prop where
  expression : r.expression = t.2
  length : r.results.length = t.1.repeats.toNat
  faces : ∀ d ∈ r.results, IsFace t.1.sides d

/-- The tokens with an integer in the place of each dice term: what its record stands for. -/
def settle : (tokens : List Token) → (records : List RollRecord) → List Token
  | [], _ => []
  | t :: ts, rs =>
    match t.dice?, rs with
    | some (term, x), r :: rs =>
      ⟨.operand (.integer (term.combine r.results)), x⟩ :: settle ts rs
    | _, rs => t :: settle ts rs

theorem settle_of_dice?_eq_none {t : Token} (h : t.dice? = none) (ts : List Token)
    (rs : List RollRecord) : settle (t :: ts) rs = t :: settle ts rs := by
  simp only [settle, h]

/-- The dice terms keep their order. -/
theorem Postfix.Arranges.filterMap_dice? {ts p : List Token} (h : Arranges ts [] p) :
    p.filterMap Token.dice? = ts.filterMap Token.dice? := by
  have hdice : ∀ us : List Token, us.filterMap Token.dice? =
      (us.filterMap Token.operand?).filterMap Operand.term? :=
    fun us => List.filterMap_filterMap.symm
  rw [hdice, hdice, h.filterMap_operand? (by simp)]

namespace Machine

variable {σ : Type} [WordSource σ]

/-- **A run leaves records** for its dice terms, and runs to the same stack from these records alone. -/
theorem Runs.exists_records {ts : List Token} {m m' : Machine} {g g' : σ} (h : Runs m g ts m' g') :
    ∃ rs, m'.trail = m.trail ++ rs ∧ List.Forall₂ IsRecord (ts.filterMap Token.dice?) rs ∧
      ∀ {τ : Type} [WordSource τ] (k : τ) (tr : List RollRecord),
        Runs ⟨m.stack, tr⟩ k (settle ts rs) ⟨m'.stack, tr⟩ k := by
  induction h with
  | done => exact ⟨[], (List.append_nil _).symm, .nil, fun k tr => .done⟩
  | @integer S tr n x ts m g g' _ ih =>
    obtain ⟨rs, htrail, hrec, hruns⟩ := ih
    refine ⟨rs, htrail, hrec, fun k tr => ?_⟩
    rw [settle_of_dice?_eq_none rfl]
    exact .integer (hruns k tr)
  | @dice S tr t v ds x ts m g g₁ g' hroll _ ih =>
    obtain ⟨rs, htrail, hrec, hruns⟩ := ih
    obtain ⟨hlen, hfaces, hcomb⟩ := DiceTerm.roll_yields hroll
    refine ⟨⟨x, ds⟩ :: rs, by simpa using htrail, .cons ⟨rfl, hlen, hfaces⟩ hrec,
      fun k tr => ?_⟩
    have hsettle : settle (⟨.operand (.dice t), x⟩ :: ts) (⟨x, ds⟩ :: rs) =
        ⟨.operand (.integer (t.combine ds)), x⟩ :: settle ts rs := rfl
    rw [hsettle, hcomb]
    exact .integer (hruns k tr)
  | @operator S tr op a b v x ts m g g' happ _ ih =>
    obtain ⟨rs, htrail, hrec, hruns⟩ := ih
    refine ⟨rs, htrail, hrec, fun k tr => ?_⟩
    rw [settle_of_dice?_eq_none rfl]
    exact .operator happ (hruns k tr)

end Machine

theorem IsRecord.map_expression {ts : List (DiceTerm × Text)} {rs : List RollRecord}
    (h : List.Forall₂ IsRecord ts rs) : rs.map RollRecord.expression = ts.map Prod.snd := by
  induction h with
  | nil => rfl
  | cons hr _ ih => rw [List.map_cons, List.map_cons, hr.expression, ih]

/-- **The trail is complete and faithful**: its records are those of the dice terms of the text in
their order, and the value follows from them alone, without a word being drawn. -/
theorem evaluate_trail {σ : Type} [WordSource σ] {limits : Limits} {s : Text} {out : Outcome}
    {g g' : σ} (h : (evaluate limits s).Yields g out g') :
    ∃ ts p, IsCut s ts ∧ parse limits s = .ok p ∧
      out.rolls.map RollRecord.expression = (ts.filterMap Token.dice?).map Prod.snd ∧
      List.Forall₂ IsRecord (ts.filterMap Token.dice?) out.rolls ∧
      ∀ {τ : Type} [WordSource τ] (k : τ),
        (Machine.evaluate (settle p out.rolls)).Yields k ⟨out.value, []⟩ k := by
  obtain ⟨p, hp, hrun⟩ := yields_evaluate_iff.mp h
  obtain ⟨ts, hcut, -, harr⟩ := parse_eq_ok_iff.mp hp
  obtain ⟨rs, htrail, hrec, hruns⟩ := (Machine.yields_evaluate_iff.mp hrun).exists_records
  obtain rfl : out.rolls = rs := htrail
  rw [harr.filterMap_dice?] at hrec
  exact ⟨ts, p, hcut, hp, IsRecord.map_expression hrec, hrec, fun k =>
    Machine.yields_evaluate_iff.mpr (hruns k [])⟩

/-- The product is worked out first, but the records stand in the order of the text. -/
theorem evaluate_trail_reordered :
    let rolls : List RollRecord :=
      [⟨"1d4".toList, [4]⟩, ⟨"2d6!".toList, [1, 5]⟩, ⟨"02d8".toList, [1, 4]⟩]
    (evaluate ⟨none, none⟩ "1d4-2d6!*02d8".toList).Yields
        (⟨[0xC0000000, 0x20000000, 0xC0000000, 0x10000000, 0x7FFFFFFF, 5]⟩ : Script)
        ⟨-21, rolls⟩ ⟨[5]⟩ ∧
      ∃ p, parse ⟨none, none⟩ "1d4-2d6!*02d8".toList = .ok p ∧
        (Machine.evaluate (settle p rolls)).Yields (⟨[5]⟩ : Script) ⟨-21, []⟩ ⟨[5]⟩ := by
  intro rolls
  have hyields : (evaluate ⟨none, none⟩ "1d4-2d6!*02d8".toList).Yields
      (⟨[0xC0000000, 0x20000000, 0xC0000000, 0x10000000, 0x7FFFFFFF, 5]⟩ : Script)
      ⟨-21, rolls⟩ ⟨[5]⟩ := by
    unfold Rolling.Yields
    decide +kernel
  obtain ⟨-, p, -, hp, -, -, hsettled⟩ := evaluate_trail hyields
  exact ⟨hyields, p, hp, hsettled _⟩

end DiceBot
