import DiceBot.Proofs.Dice.Bounding
import DiceBot.Proofs.Expr.Alike
import DiceBot.Proofs.Expr.Meaning
import DiceBot.Proofs.Expr.Printing
import DiceBot.Proofs.Expr.Trail

/-! # The greatest total within limits

Limits with both bounds have a greatest total: the product of the bounds, or the largest value if that is
less (`Limits.maxTotal_eq`). No dice term within the limits has a greater total than that
(`Limits.Allows.greatest_le`). Every record in a trail comes from a roll of its term
(`Machine.Runs.exists_rolled`), so what the recorded dice stand for is never beyond the greatest total
(`evaluate_within_maxTotal`), and it is the greatest total if the dice fall that way. -/

namespace DiceBot

/-! ### Limits -/

namespace Limits

variable {l : Limits} {n m : UInt32}

theorem maxTotal_eq (hn : l.maxRepeats = some n) (hm : l.maxSides = some m) :
    l.maxTotal = some (min ((n.toNat : Int) * m.toNat) maxValue) := by
  rw [maxTotal, hn, hm]
  rfl

/-- **A term within the limits** comes to no more than their greatest total. -/
theorem Allows.greatest_le {t : DiceTerm} (ht : l.Allows t) (hr : 0 < t.repeats.toNat)
    (hn : l.maxRepeats = some n) (hm : l.maxSides = some m) :
    t.greatest ≤ min ((n.toNat : Int) * m.toNat) maxValue := by
  have hrepeats : t.repeats.toNat ≤ n.toNat := ht.1 n hn
  have hsides : t.sides.toNat ≤ m.toNat := ht.2 m hm
  have hproduct := Nat.mul_le_mul ((DiceTerm.counting_le hr).trans hrepeats) hsides
  rw [DiceTerm.greatest_eq]
  exact min_le_min (by exact_mod_cast hproduct) (Int.le_refl _)

end Limits

/-! ### Records come from rolls -/

/-- The record of a roll of the term, with words from some source. -/
structure IsRolled (σ : Type) [WordSource σ] (t : DiceTerm × Text) (r : RollRecord) : Prop where
  expression : r.expression = t.2
  rolled : ∃ (g g' : σ) (v : Int), t.1.roll.Yields g (v, r.results) g'

theorem Token.dice?_eq_some_iff {t : Token} {term : DiceTerm} {x : Text} :
    t.dice? = some (term, x) ↔ t = ⟨.operand (.dice term), x⟩ := by
  obtain ⟨kind, y⟩ := t
  rcases kind with (n | term') | _ | _ | _ <;> simp [Token.dice?, Token.operand?, Operand.term?]

section Records

variable {σ : Type} [WordSource σ]

/-- **Every record** comes from a roll of its term. -/
theorem Machine.Runs.exists_rolled {ts : List Token} {m m' : Machine} {g g' : σ}
    (h : Runs m g ts m' g') : ∃ rs, m'.trail = m.trail ++ rs ∧
      List.Forall₂ (IsRolled σ) (ts.filterMap Token.dice?) rs := by
  induction h with
  | done => exact ⟨[], (List.append_nil _).symm, .nil⟩
  | integer _ ih => exact ih
  | dice hroll _ ih =>
    obtain ⟨rs, htrail, hrolled⟩ := ih
    exact ⟨_ :: rs, by simpa using htrail, .cons ⟨rfl, _, _, _, hroll⟩ hrolled⟩
  | operator _ _ ih => exact ih

/-- A record of a roll holds the dice of its term, and they are within its bounds. -/
theorem IsRolled.isRecord {t : DiceTerm × Text} {r : RollRecord} (h : IsRolled σ t r)
    (hr : 0 < t.1.repeats.toNat) (hs : 0 < t.1.sides.toNat) :
    IsRecord t r ∧ t.1.combine r.results ≤ t.1.greatest := by
  obtain ⟨hexpression, g, g', v, hyields⟩ := h
  obtain ⟨hdice, htotal⟩ := (DiceTerm.yields_roll_iff hr hs).mp hyields
  obtain ⟨hlen, hfaces⟩ := mapM_die hs _ hdice
  obtain ⟨hnot, -⟩ := DiceTerm.total_eq_ok_iff.mp htotal
  exact ⟨⟨hexpression, hlen, hfaces⟩, (DiceTerm.combine_bounds hlen hr hfaces hnot).2⟩

/-- **The records of an outcome** are those of the terms of its text, which the limits allow, and the dice of
each stay within the bounds of their term. -/
theorem exists_within_of_yields {limits : Limits} {s : Text} {out : Outcome} {g g' : σ}
    (h : (evaluate limits s).Yields g out g') : ∃ ts, IsCut s ts ∧
      List.Forall₂ (fun t r => (limits.Allows t.1 ∧ 0 < t.1.repeats.toNat) ∧
        IsRecord t r ∧ t.1.combine r.results ≤ t.1.greatest) (ts.filterMap Token.dice?) out.rolls := by
  obtain ⟨p, hp, hrun⟩ := yields_evaluate_iff.mp h
  obtain ⟨ts, hcut, hallows, harr⟩ := parse_eq_ok_iff.mp hp
  obtain ⟨rs, htrail, hrolled⟩ := (Machine.yields_evaluate_iff.mp hrun).exists_rolled
  obtain rfl : out.rolls = rs := htrail
  rw [harr.filterMap_dice?] at hrolled
  have hterms : ∀ t ∈ ts.filterMap Token.dice?,
      limits.Allows t.1 ∧ 0 < t.1.repeats.toNat ∧ 0 < t.1.sides.toNat := by
    rintro ⟨term, x⟩ hmem
    obtain ⟨t, ht, hdice⟩ := List.mem_filterMap.mp hmem
    obtain rfl := Token.dice?_eq_some_iff.mp hdice
    exact ⟨hallows _ ht term rfl, Spells.counts_pos (hcut.spells _ ht)⟩
  refine ⟨ts, hcut, ((List.forall₂_and_left _ _).mpr ⟨hterms, hrolled⟩).imp ?_⟩
  rintro t r ⟨⟨ht, hr, hs⟩, hroll⟩
  exact ⟨⟨ht, hr⟩, hroll.isRecord hr hs⟩

/-- Records that have no more than `n` dice each. -/
theorem length_flatMap_results_le {n : Nat} {ts : List (DiceTerm × Text)} {rs : List RollRecord}
    (h : List.Forall₂ (fun _ r => r.results.length ≤ n) ts rs) :
    (rs.flatMap RollRecord.results).length ≤ n * ts.length := by
  induction h with
  | nil => exact Nat.zero_le _
  | cons hr _ ih =>
    rw [List.flatMap_cons, List.length_append, List.length_cons, Nat.mul_succ, Nat.add_comm]
    exact Nat.add_le_add ih hr

end Records

/-! ### A single term -/

/-- The text of a single term is evaluated by a roll of it. -/
theorem yields_of_spells {σ : Type} [WordSource σ] {limits : Limits} {t : DiceTerm} {x : Text}
    (hx : Spells (.operand (.dice t)) x) (ht : limits.Allows t) {g g' : σ} {v : Int}
    {ds : List UInt32} (h : t.roll.Yields g (v, ds) g') :
    (evaluate limits x).Yields g ⟨v, [⟨x, ds⟩]⟩ g' := by
  have hallows : limits.AllowsAll [⟨.operand (.dice t), x⟩] := by
    intro u hu term hk
    obtain rfl := List.mem_singleton.mp hu
    cases hk
    exact ht
  have harr := Postfix.arrange_eq_ok_iff.mp
    (Postfix.ofInfix_of_isExpression (isExpression_bracketed (.leaf (.dice t) x)))
  have hparse : parse limits x = .ok [⟨.operand (.dice t), x⟩] :=
    parse_eq_ok_iff.mpr ⟨_, hx.isCut, hallows, harr⟩
  exact yields_evaluate_iff.mpr ⟨_, hparse, Machine.yields_evaluate_iff.mpr (.dice h .done)⟩

/-! ### The bound -/

/-- **The greatest total is a bound**: it is the product of the two bounds, capped at the largest value, and in
every outcome the dice of each term come to no more, and there are no more dice than the limits allow for
so many terms. It is the product itself if that is a value, and then the dice of some text come to it. -/
theorem evaluate_within_maxTotal {limits : Limits} {n m : UInt32} (hn : limits.maxRepeats = some n)
    (hm : limits.maxSides = some m) : ∃ top, limits.maxTotal = some top ∧
      top = min ((n.toNat : Int) * m.toNat) maxValue ∧
      (∀ {σ : Type} [WordSource σ] {s : Text} {out : Outcome} {g g' : σ},
        (evaluate limits s).Yields g out g' → ∃ ts, IsCut s ts ∧
          List.Forall₂ (fun t r => IsRecord t r ∧ t.1.combine r.results ≤ top)
            (ts.filterMap Token.dice?) out.rolls ∧
          (out.rolls.flatMap RollRecord.results).length ≤
            n.toNat * (ts.filterMap Token.dice?).length) ∧
      ((n.toNat * m.toNat : Int) ≤ maxValue → top = n.toNat * m.toNat ∧
        (0 < n.toNat → 0 < m.toNat → ∃ (s : Text) (ws : List UInt32) (out : Outcome) (g' : Script),
          (evaluate limits s).Yields (⟨ws⟩ : Script) out g' ∧ out.value = top)) := by
  refine ⟨_, Limits.maxTotal_eq hn hm, rfl, fun {σ _ s out g g'} h => ?_, fun hfits => ?_⟩
  · obtain ⟨ts, hcut, hwithin⟩ := exists_within_of_yields h
    refine ⟨ts, hcut, hwithin.imp ?_, length_flatMap_results_le (hwithin.imp ?_)⟩
    · rintro t r ⟨⟨ht, hr⟩, hrecord, hle⟩
      exact ⟨hrecord, hle.trans (ht.greatest_le hr hn hm)⟩
    · rintro t r ⟨⟨ht, -⟩, hrecord, -⟩
      rw [hrecord.length]
      exact ht.1 n hn
  · have htop : min ((n.toNat : Int) * m.toNat) maxValue = n.toNat * m.toNat := min_eq_left hfits
    refine ⟨htop, fun hnpos hmpos => ?_⟩
    have ht : limits.Allows ⟨n, m, .none⟩ :=
      ⟨fun k hk => by cases hn.symm.trans hk; exact UInt32.le_refl n,
        fun k hk => by cases hm.symm.trans hk; exact UInt32.le_refl m⟩
    obtain ⟨ws, ds, g', hyields⟩ :=
      DiceTerm.exists_yields_replicate (t := ⟨n, m, .none⟩) hnpos hmpos hfits ⟨hmpos, Nat.le_refl _⟩
    refine ⟨_, ws, _, g', yields_of_spells (DiceTerm.spells_display hnpos hmpos) ht hyields, ?_⟩
    rw [htop]
    exact Int.natCast_mul n.toNat m.toNat

/-- The highest die counts of the first term, and the sum of the second; neither comes to sixty here, but
three dice with twenty sides can. -/
theorem evaluate_within_maxTotal_twoTerms :
    let limits : Limits := ⟨some 3, some 20⟩
    let rolls : List RollRecord := [⟨"2d20!".toList, [1, 20]⟩, ⟨"3d6".toList, [4, 1, 6]⟩]
    (limits.maxRepeats = some 3 ∧ limits.maxSides = some 20) ∧
      (evaluate limits "2d20!+3d6".toList).Yields
        (⟨[0, 0xFFFFFFFF, 0x80000000, 0, 0xFFFFFFFF, 9]⟩ : Script) ⟨31, rolls⟩ ⟨[9]⟩ ∧
      limits.maxTotal = some 60 ∧
      (∃ ts, IsCut "2d20!+3d6".toList ts ∧
        List.Forall₂ (fun t r => IsRecord t r ∧ t.1.combine r.results ≤ 60)
          (ts.filterMap Token.dice?) rolls ∧
        5 ≤ 3 * (ts.filterMap Token.dice?).length) ∧
      ∃ (s : Text) (ws : List UInt32) (out : Outcome) (g' : Script),
        (evaluate limits s).Yields (⟨ws⟩ : Script) out g' ∧ out.value = 60 := by
  intro limits rolls
  have hyields : (evaluate limits "2d20!+3d6".toList).Yields
      (⟨[0, 0xFFFFFFFF, 0x80000000, 0, 0xFFFFFFFF, 9]⟩ : Script) ⟨31, rolls⟩ ⟨[9]⟩ := by
    unfold Rolling.Yields
    decide +kernel
  obtain ⟨top, htop, -, hbound, hexact⟩ := evaluate_within_maxTotal
    (show limits.maxRepeats = some 3 from rfl) (show limits.maxSides = some 20 from rfl)
  obtain ⟨hproduct, hattained⟩ := hexact (by decide)
  obtain rfl : top = 60 := hproduct.trans (by decide)
  exact ⟨⟨rfl, rfl⟩, hyields, htop, hbound hyields, hattained (by decide) (by decide)⟩

end DiceBot
