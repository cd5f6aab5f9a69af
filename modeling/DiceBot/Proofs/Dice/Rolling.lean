import DiceBot.Proofs.Result

/-! # Dice that fall

A die that falls shows one of its faces (`face?_isFace`). The dice of a term have a total, their combination,
unless they overflow (`DiceTerm.total_eq_ok_iff`); so a dice term that is rolled yields as many dice as it
says together with their combination (`DiceTerm.roll_yields`). -/

namespace DiceBot

/-! ### Dice -/

/-- The faces of a die are numbered from one to the number of its sides. -/
def IsFace (sides d : UInt32) : Prop := 1 ≤ d.toNat ∧ d.toNat ≤ sides.toNat

/-- The upper half of the product of a word with the sides is less than these. -/
theorem upperHalf_lt {sides : UInt32} (hs : 0 < sides.toNat) (w : UInt32) :
    w.toNat * sides.toNat / wordCount < sides.toNat := by
  rw [Nat.div_lt_iff_lt_mul (by decide), Nat.mul_comm]
  exact Nat.mul_lt_mul_of_pos_left w.toNat_lt hs

theorem toNat_upperHalf {sides : UInt32} (hs : 0 < sides.toNat) (w : UInt32) :
    (UInt32.ofNat (1 + w.toNat * sides.toNat / wordCount)).toNat =
      1 + w.toNat * sides.toNat / wordCount := by
  have hlt := upperHalf_lt hs w
  have hsides := sides.toNat_lt
  rw [UInt32.toNat_ofNat', Nat.mod_eq_of_lt (by omega)]

theorem face?_isFace {sides w f : UInt32} (hs : 0 < sides.toNat) (h : face? sides w = some f) :
    IsFace sides f := by
  simp only [face?, Option.ite_none_right_eq_some, Option.some.injEq] at h
  obtain ⟨-, rfl⟩ := h
  unfold IsFace
  rw [toNat_upperHalf hs]
  exact ⟨Nat.le_add_right 1 _, by have := upperHalf_lt hs w; omega⟩

theorem faceWithin_isFace {σ : Type} [WordSource σ] {sides f : UInt32} (hs : 0 < sides.toNat) :
    ∀ (n : Nat) {g g' : σ}, faceWithin sides n g = some (f, g') → IsFace sides f
  | 0, _, _, h => by cases h
  | n + 1, g, g', h => by
    rw [faceWithin] at h
    cases hw : face? sides (WordSource.next g).1 with
    | some d =>
      simp only [hw, Option.some.injEq, Prod.mk.injEq] at h
      rw [← h.1]
      exact face?_isFace hs hw
    | none =>
      simp only [hw] at h
      exact faceWithin_isFace hs n h

/-- **Dice fall on faces**, and as many fall as are rolled. -/
theorem mapM_die {σ : Type} [WordSource σ] {sides : UInt32} (hs : 0 < sides.toNat) :
    ∀ (n : Nat) {g g' : σ} {ds : List UInt32},
      (List.replicate n sides).mapM (die : UInt32 → StateT σ Option UInt32) g = some (ds, g') →
        ds.length = n ∧ ∀ d ∈ ds, IsFace sides d
  | 0, g, g', ds, h => by
    cases (show some (([] : List UInt32), g) = some (ds, g') from h)
    exact ⟨rfl, fun d hd => absurd hd List.not_mem_nil⟩
  | n + 1, g, g', ds, h => by
    rw [List.replicate_succ, List.mapM_cons] at h
    obtain ⟨⟨d, g₁⟩, hd, h⟩ := Option.bind_eq_some_iff.mp h
    obtain ⟨⟨ds', g₂⟩, hds, h⟩ := Option.bind_eq_some_iff.mp h
    have hcons : d :: ds' = ds := (Prod.mk.inj (Option.some.inj h)).1
    obtain ⟨hlen, hall⟩ := mapM_die hs n hds
    subst hcons
    refine ⟨by rw [List.length_cons, hlen], fun x hx => ?_⟩
    rcases List.mem_cons.mp hx with rfl | hx
    · exact faceWithin_isFace hs _ hd
    · exact hall x hx

/-! ### Dice terms -/

namespace DiceTerm

/-- What the recorded dice of a term stand for: their sum, the highest or the lowest of them. -/
def combine (t : DiceTerm) (results : List UInt32) : Int :=
  match t.modifier with
  | .none => diceSum results
  | .highest => ((results.map UInt32.toNat).max?.getD 0 : Nat)
  | .lowest => ((results.map UInt32.toNat).min?.getD 0 : Nat)

/-- The sum of the dice counts, and it is beyond the range of values. -/
def Overflows (t : DiceTerm) (results : List UInt32) : Prop :=
  t.modifier = .none ∧ maxValue < diceSum results

section Totals

variable {t : DiceTerm} {results : List UInt32}

theorem total_of_overflows (h : t.Overflows results) : t.total results = .error .overflow := by
  obtain ⟨hm, hsum⟩ := h
  have htotal : t.total results = checked (diceSum results) := by rw [total, hm]
  rw [htotal, checked_eq_error_iff]
  exact ⟨fun hvalue => absurd hvalue.2 (Int.not_le.mpr hsum), rfl⟩

theorem total_of_not_overflows (h : ¬t.Overflows results) :
    t.total results = .ok (t.combine results) := by
  unfold total combine
  cases hm : t.modifier with
  | none =>
    have hsum : (diceSum results : Int) ≤ maxValue := Int.not_lt.mp fun hlt => h ⟨hm, hlt⟩
    have hmin : minValue ≤ (diceSum results : Int) :=
      Int.le_trans (by decide) (Int.natCast_nonneg (diceSum results))
    exact checked_eq_ok_iff.mpr ⟨⟨hmin, hsum⟩, rfl⟩
  | highest => rfl
  | lowest => rfl

/-- Dice have a total unless they overflow. -/
theorem total_eq_ok_iff {v : Int} :
    t.total results = .ok v ↔ ¬t.Overflows results ∧ t.combine results = v := by
  by_cases h : t.Overflows results
  · simp [total_of_overflows h, h]
  · simp [total_of_not_overflows h, h]

theorem total_eq_error_iff {e : EvalError} :
    t.total results = .error e ↔ t.Overflows results ∧ e = .overflow := by
  by_cases h : t.Overflows results
  · simp [total_of_overflows h, h, eq_comm]
  · simp [total_of_not_overflows h, h]

end Totals

/-- The term has no dice, or dice without sides. -/
def IsEmpty (t : DiceTerm) : Prop := t.repeats = 0 ∨ t.sides = 0

theorem pos_of_not_isEmpty {t : DiceTerm} (ht : ¬t.IsEmpty) :
    0 < t.repeats.toNat ∧ 0 < t.sides.toNat := by
  have hpos : ∀ {n : UInt32}, n ≠ 0 → 0 < n.toNat := fun hn =>
    Nat.pos_of_ne_zero fun h => hn (UInt32.toNat_inj.mp h)
  obtain ⟨hr, hs⟩ := not_or.mp ht
  exact ⟨hpos hr, hpos hs⟩

theorem not_isEmpty {t : DiceTerm} (hr : 0 < t.repeats.toNat) (hs : 0 < t.sides.toNat) :
    ¬t.IsEmpty := by
  rintro (h | h)
  · rw [h] at hr
    exact absurd hr (by decide)
  · rw [h] at hs
    exact absurd hs (by decide)

section Rolls

variable {σ : Type} [WordSource σ] {t : DiceTerm} {results : List UInt32} {g g' : σ} {v : Int}

theorem roll_of_isEmpty (ht : t.IsEmpty) :
    (t.roll : Rolling σ (Int × List UInt32)) = throw (.invalidToken t.display) :=
  if_pos ht

/-- A term with dice and sides rolls its dice and adds them up. -/
theorem run_roll (hr : 0 < t.repeats.toNat) (hs : 0 < t.sides.toNat) (g : σ) : t.roll.run g =
    (t.dice g).map fun p => ((t.total p.1).map fun v => (v, p.1), p.2) := by
  have hroll : t.roll = (do
      let results ← ExceptT.lift t.dice
      let value ← Rolling.ofExcept (t.total results)
      pure (value, results) : Rolling σ (Int × List UInt32)) :=
    if_neg (not_isEmpty hr hs)
  rw [hroll]
  cases hdice : t.dice g with
  | none =>
    have hlift : (ExceptT.lift t.dice : Rolling σ (List UInt32)).run g = none := by
      show (t.dice g).bind _ = none
      rw [hdice]
      rfl
    rw [Rolling.run_bind, hlift]
    rfl
  | some p =>
    rw [(Rolling.yields_lift_iff.mpr hdice).run_bind, Option.map_some]
    cases t.total p.1 <;> rfl

/-- A roll yields its dice and their total. -/
theorem yields_roll_iff (hr : 0 < t.repeats.toNat) (hs : 0 < t.sides.toNat) :
    t.roll.Yields g (v, results) g' ↔ t.dice g = some (results, g') ∧ t.total results = .ok v := by
  unfold Rolling.Yields
  rw [run_roll hr hs, Option.map_eq_some_iff]
  constructor
  · rintro ⟨⟨rs, g₁⟩, hdice, h⟩
    obtain ⟨hmap, rfl⟩ := Prod.mk.inj h
    obtain ⟨w, hw, hpair⟩ := map_eq_ok_iff.mp hmap
    obtain ⟨rfl, rfl⟩ := Prod.mk.inj hpair
    exact ⟨hdice, hw⟩
  · rintro ⟨hdice, hv⟩
    exact ⟨(results, g'), hdice, by rw [hv]; rfl⟩

/-- **A roll of a term** yields as many dice as the term says, each of them on one of its faces, and
their combination. -/
theorem roll_yields (h : t.roll.Yields g (v, results) g') :
    results.length = t.repeats.toNat ∧ (∀ d ∈ results, IsFace t.sides d) ∧
      t.combine results = v := by
  have ht : ¬t.IsEmpty := fun ht => by
    rw [roll_of_isEmpty ht] at h
    exact Rolling.not_yields_throw h
  obtain ⟨hr, hs⟩ := pos_of_not_isEmpty ht
  obtain ⟨hdice, htotal⟩ := (yields_roll_iff hr hs).mp h
  obtain ⟨hlen, hall⟩ := mapM_die hs _ hdice
  exact ⟨hlen, hall, (total_eq_ok_iff.mp htotal).2⟩

end Rolls

end DiceTerm

end DiceBot
