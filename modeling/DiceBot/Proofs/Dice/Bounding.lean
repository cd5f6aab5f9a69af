import DiceBot.Proofs.Dice.Drawing

/-! # The bounds of a roll

A term that is rolled has as many dice as it says, each on one of its faces. All of them count, or one of
them (`counting`): if they lie between `lo` and `hi`, they come to a number between `counting * lo` and
`counting * hi` (`combine_between`). So a roll fails only where the sum of its dice is no value, and what it
comes to lies between the least and the greatest total of the term (`combine_bounds`), and some words lead
to either of them (`roll_bounded`). -/

namespace DiceBot.DiceTerm

variable {t : DiceTerm} {ds : List UInt32} {lo hi : Nat}

/-! ### Sums -/

theorem mul_le_diceSum : ∀ {ds : List UInt32}, (∀ d ∈ ds, lo ≤ d.toNat) →
    ds.length * lo ≤ diceSum ds
  | [], _ => Nat.le_of_eq (Nat.zero_mul lo)
  | d :: ds, h => by
    obtain ⟨hd, hds⟩ := List.forall_mem_cons.mp h
    rw [List.length_cons, Nat.succ_mul, Nat.add_comm]
    exact Nat.add_le_add hd (mul_le_diceSum hds)

theorem diceSum_le_mul : ∀ {ds : List UInt32}, (∀ d ∈ ds, d.toNat ≤ hi) →
    diceSum ds ≤ ds.length * hi
  | [], _ => Nat.zero_le _
  | d :: ds, h => by
    obtain ⟨hd, hds⟩ := List.forall_mem_cons.mp h
    rw [List.length_cons, Nat.succ_mul, Nat.add_comm]
    exact Nat.add_le_add hd (diceSum_le_mul hds)

/-! ### What counts -/

/-- How many dice of the term count. -/
def counting (t : DiceTerm) : Nat :=
  match t.modifier with
  | .none => t.repeats.toNat
  | .highest | .lowest => 1

theorem counting_eq_one (hm : t.modifier ≠ .none) : t.counting = 1 := by
  unfold counting
  cases h : t.modifier with
  | none => exact absurd h hm
  | highest => rfl
  | lowest => rfl

theorem counting_le (hr : 0 < t.repeats.toNat) : t.counting ≤ t.repeats.toNat := by
  unfold counting
  cases t.modifier with
  | none => exact Nat.le_refl _
  | highest => exact hr
  | lowest => exact hr

theorem least_eq (t : DiceTerm) : t.least = t.counting := by
  unfold least counting
  cases t.modifier <;> rfl

theorem toNat_le_maxValue (n : UInt32) : (n.toNat : Int) ≤ maxValue := by
  have hn := n.toNat_lt
  have hmax : maxValue = 9223372036854775807 := rfl
  omega

theorem greatest_eq (t : DiceTerm) :
    t.greatest = min ((t.counting * t.sides.toNat : Nat) : Int) maxValue := by
  have hsides := toNat_le_maxValue t.sides
  unfold greatest counting
  cases t.modifier with
  | none => rw [Int.natCast_mul]
  | highest => rw [Nat.one_mul, min_eq_left hsides]
  | lowest => rw [Nat.one_mul, min_eq_left hsides]

/-- **What dice come to** lies between what it would be if all of them were the lowest, and if all of them
were the highest. -/
theorem combine_between (hlen : ds.length = t.repeats.toNat) (hr : 0 < t.repeats.toNat)
    (h : ∀ d ∈ ds, lo ≤ d.toNat ∧ d.toNat ≤ hi) :
    ((t.counting * lo : Nat) : Int) ≤ t.combine ds ∧ t.combine ds ≤ (t.counting * hi : Nat) := by
  have hne : ds ≠ [] := List.ne_nil_of_length_pos (hlen ▸ hr)
  have hmem : ∀ {m : Nat}, m ∈ ds.map UInt32.toNat →
      ((1 * lo : Nat) : Int) ≤ m ∧ (m : Int) ≤ (1 * hi : Nat) := by
    intro m hm
    obtain ⟨d, hd, rfl⟩ := List.mem_map.mp hm
    have := h d hd
    omega
  unfold combine counting
  cases t.modifier with
  | none =>
    rw [← hlen]
    exact ⟨Int.ofNat_le.mpr (mul_le_diceSum fun d hd => (h d hd).1),
      Int.ofNat_le.mpr (diceSum_le_mul fun d hd => (h d hd).2)⟩
  | highest =>
    cases hmax : (ds.map UInt32.toNat).max? with
    | none => exact absurd (List.map_eq_nil_iff.mp (List.max?_eq_none_iff.mp hmax)) hne
    | some m => exact hmem (List.max?_mem hmax)
  | lowest =>
    cases hmin : (ds.map UInt32.toNat).min? with
    | none => exact absurd (List.map_eq_nil_iff.mp (List.min?_eq_none_iff.mp hmin)) hne
    | some m => exact hmem (List.min?_mem hmin)

/-- Equal dice. -/
theorem combine_replicate (hr : 0 < t.repeats.toNat) (d : UInt32) :
    t.combine (List.replicate t.repeats.toNat d) = (t.counting * d.toNat : Nat) := by
  have hall : ∀ x ∈ List.replicate t.repeats.toNat d, d.toNat ≤ x.toNat ∧ x.toNat ≤ d.toNat := by
    intro x hx
    obtain rfl := List.eq_of_mem_replicate hx
    exact ⟨Nat.le_refl _, Nat.le_refl _⟩
  obtain ⟨hle, hge⟩ := combine_between List.length_replicate hr hall
  exact Int.le_antisymm hge hle

/-! ### Totals -/

/-- Dice on faces do not overflow if the product of the term is a value. -/
theorem not_overflows (hlen : ds.length = t.repeats.toNat) (hfaces : ∀ d ∈ ds, IsFace t.sides d)
    (hfits : (t.repeats.toNat * t.sides.toNat : Int) ≤ maxValue) : ¬t.Overflows ds := by
  rintro ⟨-, hsum⟩
  have hle := diceSum_le_mul fun d hd => (hfaces d hd).2
  rw [hlen] at hle
  have hcast : (diceSum ds : Int) ≤ t.repeats.toNat * t.sides.toNat := by exact_mod_cast hle
  omega

/-- **What a roll comes to** lies between the least and the greatest total of its term. -/
theorem combine_bounds (hlen : ds.length = t.repeats.toNat) (hr : 0 < t.repeats.toNat)
    (hfaces : ∀ d ∈ ds, IsFace t.sides d) (h : ¬t.Overflows ds) :
    t.least ≤ t.combine ds ∧ t.combine ds ≤ t.greatest := by
  obtain ⟨hle, hge⟩ := combine_between hlen hr hfaces
  have hmax : t.combine ds ≤ maxValue := by
    by_cases hm : t.modifier = .none
    · have hcombine : t.combine ds = diceSum ds := by rw [combine, hm]
      exact Int.not_lt.mp fun hlt => h ⟨hm, hcombine ▸ hlt⟩
    · rw [counting_eq_one hm, Nat.one_mul] at hge
      exact Int.le_trans hge (toNat_le_maxValue t.sides)
  rw [least_eq, greatest_eq]
  rw [Nat.mul_one] at hle
  exact ⟨hle, le_min hge hmax⟩

/-! ### Rolls -/

/-- Every face can fall on all dice. -/
theorem exists_dice_replicate {d : UInt32} (hs : 0 < t.sides.toNat) (hd : IsFace t.sides d) :
    ∃ ws : List UInt32, t.dice (⟨ws⟩ : Script) = some (List.replicate t.repeats.toNat d, ⟨[]⟩) := by
  obtain ⟨w, hw⟩ := exists_word hs hd
  have hdraws := Script.draws (List.replicate t.repeats.toNat w) []
  rw [List.append_nil] at hdraws
  have hfaces : (List.replicate t.repeats.toNat w).map (face? t.sides) =
      (List.replicate t.repeats.toNat d).map some := by
    rw [List.map_replicate, List.map_replicate, hw]
  have hdice := mapM_die_of_draws Script.patience_pos hdraws hfaces
  rw [List.length_replicate] at hdice
  exact ⟨_, hdice⟩

/-- Equal dice are rolled by some words, if the product of the term is a value. -/
theorem exists_yields_replicate {d : UInt32} (hr : 0 < t.repeats.toNat) (hs : 0 < t.sides.toNat)
    (hfits : (t.repeats.toNat * t.sides.toNat : Int) ≤ maxValue) (hd : IsFace t.sides d) :
    ∃ (ws ds : List UInt32) (g' : Script),
      t.roll.Yields (⟨ws⟩ : Script) (((t.counting * d.toNat : Nat) : Int), ds) g' := by
  obtain ⟨ws, hdice⟩ := exists_dice_replicate hs hd
  obtain ⟨hlen, hfaces⟩ := mapM_die hs _ hdice
  have htotal := total_of_not_overflows (not_overflows hlen hfaces hfits)
  rw [combine_replicate hr] at htotal
  exact ⟨ws, _, _, (yields_roll_iff hr hs).mpr ⟨hdice, htotal⟩⟩

/-- **Rolls are bounded**: when the dice have fallen, they are as many as the term says, each on one of its
faces, and the roll fails if their sum counts and is no value, and otherwise yields what they come to, between
the least and the greatest total. If the product of the term is a value, no roll fails, and some words
lead to the least total and some to the greatest. -/
theorem roll_bounded (hr : 0 < t.repeats.toNat) (hs : 0 < t.sides.toNat) :
    (∀ {σ : Type} [WordSource σ] {g g' : σ} {ds : List UInt32}, t.dice g = some (ds, g') →
      ds.length = t.repeats.toNat ∧ (∀ d ∈ ds, IsFace t.sides d) ∧
        (t.Overflows ds ∧ t.roll.Fails g .overflow g' ∨
          ¬t.Overflows ds ∧ ∃ v, t.roll.Yields g (v, ds) g' ∧ t.combine ds = v ∧
            t.least ≤ v ∧ v ≤ t.greatest) ∧
        ((t.repeats.toNat * t.sides.toNat : Int) ≤ maxValue → ¬t.Overflows ds)) ∧
    ((t.repeats.toNat * t.sides.toNat : Int) ≤ maxValue →
      (∃ (ws ds : List UInt32) (g' : Script), t.roll.Yields (⟨ws⟩ : Script) (t.least, ds) g') ∧
        ∃ (ws ds : List UInt32) (g' : Script), t.roll.Yields (⟨ws⟩ : Script) (t.greatest, ds) g') := by
  refine ⟨fun {σ _ g g' ds} hdice => ?_, fun hfits => ⟨?_, ?_⟩⟩
  · obtain ⟨hlen, hfaces⟩ := mapM_die hs _ hdice
    refine ⟨hlen, hfaces, ?_, not_overflows hlen hfaces⟩
    by_cases h : t.Overflows ds
    · exact Or.inl ⟨h, (fails_roll_iff hr hs).mpr ⟨ds, hdice, total_of_overflows h⟩⟩
    · exact Or.inr ⟨h, _, (yields_roll_iff hr hs).mpr ⟨hdice, total_of_not_overflows h⟩, rfl,
        combine_bounds hlen hr hfaces h⟩
  · have hleast := exists_yields_replicate hr hs hfits (d := 1) ⟨Nat.le_refl 1, hs⟩
    rwa [show (1 : UInt32).toNat = 1 from rfl, Nat.mul_one, ← least_eq] at hleast
  · have hgreatest := exists_yields_replicate hr hs hfits (d := t.sides) ⟨hs, Nat.le_refl _⟩
    have hle : ((t.counting * t.sides.toNat : Nat) : Int) ≤ maxValue :=
      Int.le_trans (by exact_mod_cast Nat.mul_le_mul_right _ (counting_le hr)) hfits
    rwa [← min_eq_left hle, ← greatest_eq] at hgreatest

/-- A word is refused before the first of three dice falls. They may fall lower, and higher. -/
theorem roll_bounded_threeDice :
    let t : DiceTerm := ⟨3, 6, .none⟩
    let g : Script := ⟨[0xAAAAAAAA, 0, 0xFFFFFFFF, 0x80000000, 9]⟩
    t.dice g = some ([1, 6, 4], ⟨[9]⟩) ∧ t.roll.Yields g (11, [1, 6, 4]) ⟨[9]⟩ ∧
      (t.least ≤ 11 ∧ 11 ≤ t.greatest) ∧
      (∃ (ws ds : List UInt32) (g' : Script), t.roll.Yields (⟨ws⟩ : Script) (3, ds) g') ∧
      ∃ (ws ds : List UInt32) (g' : Script), t.roll.Yields (⟨ws⟩ : Script) (18, ds) g' := by
  intro t g
  have hdice : t.dice g = some ([1, 6, 4], ⟨[9]⟩) := by decide +kernel
  have hfits : (t.repeats.toNat * t.sides.toNat : Int) ≤ maxValue := by decide
  obtain ⟨hrolls, hattained⟩ := roll_bounded (t := t) (by decide) (by decide)
  obtain ⟨-, -, hroll, hnot⟩ := hrolls hdice
  obtain ⟨-, v, hyields, hv, hbounds⟩ := hroll.resolve_left fun h => hnot hfits h.1
  obtain rfl : (11 : Int) = v := hv
  obtain ⟨hleast, hgreatest⟩ := hattained hfits
  rw [show t.least = 3 by decide] at hleast
  rw [show t.greatest = 18 by decide] at hgreatest
  exact ⟨hdice, hyields, hbounds, hleast, hgreatest⟩

end DiceBot.DiceTerm
