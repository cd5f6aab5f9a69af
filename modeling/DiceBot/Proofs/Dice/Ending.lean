import DiceBot.Expr.Operator
import DiceBot.Proofs.Dice.Rolling

/-! # How a computation ends

A computation that draws words ends with a result or with an error. It has no end only if the source
runs out of patience for a die; a `Steady` source never does, whatever it has given before, and a
script of words is such a source (`Script.steady`). `x.EndsIn P g` says that the computation `x`, started
with the source `g`, has a result, or fails with an error of the class `P`, or has no end for that one
reason. A dice term with dice and sides ends in the errors of arithmetic (`DiceTerm.roll_endsIn`); any other
one fails at once (`DiceTerm.fails_of_isEmpty`). -/

namespace DiceBot

/-! ### Steady sources -/

/-- A source that comes to every die. -/
def Steady (σ : Type) [WordSource σ] : Prop :=
  ∀ (sides : UInt32) (g : σ), 0 < sides.toNat → ∃ f g', die sides g = some (f, g')

/-- The word zero is never refused. -/
theorem face?_zero (sides : UInt32) : face? sides 0 = some 1 := by
  have hp : (0 : UInt32).toNat * sides.toNat = 0 := Nat.zero_mul _
  simp only [face?, hp, Nat.zero_mod, Nat.zero_div, Nat.zero_le, if_true]
  rfl

/-- Behind the words of a script come zeros, so one word more than it holds is enough for a die. -/
theorem Script.exists_face (sides : UInt32) : ∀ ws : List UInt32,
    ∃ f g', faceWithin sides (ws.length + 1) (⟨ws⟩ : Script) = some (f, g')
  | [] => by
    refine ⟨1, ⟨[]⟩, ?_⟩
    simp only [faceWithin, WordSource.next, Script.next, face?_zero]
  | w :: ws => by
    rw [faceWithin]
    simp only [WordSource.next, Script.next]
    cases face? sides w with
    | some f => exact ⟨f, ⟨ws⟩, rfl⟩
    | none => exact Script.exists_face sides ws

theorem Script.steady : Steady Script := fun sides g _ => Script.exists_face sides g.words

/-- The dice of a term fall one after another. -/
theorem Steady.exists_dice {σ : Type} [WordSource σ] (hσ : Steady σ) {t : DiceTerm}
    (ht : 0 < t.sides.toNat) (g : σ) : ∃ ds g', t.dice g = some (ds, g') := by
  unfold DiceTerm.dice
  induction t.repeats.toNat generalizing g with
  | zero => exact ⟨[], g, rfl⟩
  | succ n ih =>
    obtain ⟨d, g₁, hd⟩ := hσ t.sides g ht
    obtain ⟨ds, g₂, hds⟩ := ih g₁
    refine ⟨d :: ds, g₂, ?_⟩
    rw [List.replicate_succ, List.mapM_cons]
    exact Option.bind_eq_some_iff.mpr ⟨(d, g₁), hd,
      Option.bind_eq_some_iff.mpr ⟨(ds, g₂), hds, rfl⟩⟩

/-! ### Endings -/

namespace Rolling

variable {σ α β : Type}

/-- The computation ends with the error `e` and leaves the source `g'`. -/
def Fails (x : Rolling σ α) (g : σ) (e : EvalError) (g' : σ) : Prop := x.run g = some (.error e, g')

/-- A sequence fails as its first computation does. -/
theorem Fails.bind {x : Rolling σ α} {g g' : σ} {e : EvalError} (h : x.Fails g e g')
    (f : α → Rolling σ β) : (x >>= f).Fails g e g' := by
  unfold Fails at h ⊢
  rw [run_bind, h]

/-- The errors of a computation that fails are one. -/
theorem Fails.unique {x : Rolling σ α} {g g₁ g₂ : σ} {e₁ e₂ : EvalError} (h₁ : x.Fails g e₁ g₁)
    (h₂ : x.Fails g e₂ g₂) : e₁ = e₂ ∧ g₁ = g₂ := by
  unfold Fails at h₁ h₂
  rw [h₁] at h₂
  simpa using h₂

/-- The computation has a result, or fails with an error of a class; it has neither only if its source
is not steady. -/
inductive EndsIn [WordSource σ] (P : EvalError → Prop) (x : Rolling σ α) (g : σ) : Prop where
  | value {a : α} {g' : σ} : x.Yields g a g' → EndsIn P x g
  | error {e : EvalError} {g' : σ} : x.Fails g e g' → P e → EndsIn P x g
  | stalled : x.run g = none → ¬Steady σ → EndsIn P x g

variable [WordSource σ] {P Q : EvalError → Prop}

theorem endsIn_pure (a : α) (g : σ) : (pure a : Rolling σ α).EndsIn P g :=
  .value (yields_pure_iff.mpr ⟨rfl, rfl⟩)

theorem endsIn_ofExcept {r : Except EvalError α} (hr : ∀ e, r = .error e → P e) (g : σ) :
    (ofExcept r : Rolling σ α).EndsIn P g := by
  cases r with
  | ok a => exact .value (yields_ofExcept_iff.mpr ⟨rfl, rfl⟩)
  | error e => exact .error (show _ = some (Except.error e, g) from rfl) (hr e rfl)

/-- A sequence of two computations ends as the first does if that has no result, and otherwise as the
second does. -/
theorem EndsIn.bind {x : Rolling σ α} {f : α → Rolling σ β} {g : σ} (hx : x.EndsIn P g)
    (hf : ∀ a g', x.Yields g a g' → (f a).EndsIn P g') : (x >>= f).EndsIn P g := by
  cases hx with
  | @value a g' ha =>
    have hrun := ha.run_bind f
    cases hf a g' ha with
    | value hb => exact .value (hrun.trans hb)
    | error he hP => exact .error (hrun.trans he) hP
    | stalled hn hσ => exact .stalled (hrun.trans hn) hσ
  | error he hP => exact .error (he.bind f) hP
  | stalled hn hσ =>
    have hrun : (x >>= f).run g = none := by rw [run_bind, hn]
    exact .stalled hrun hσ

theorem EndsIn.mono {x : Rolling σ α} {g : σ} (h : x.EndsIn P g) (hPQ : ∀ e, P e → Q e) :
    x.EndsIn Q g := by
  cases h with
  | value h => exact .value h
  | error h he => exact .error h (hPQ _ he)
  | stalled h hσ => exact .stalled h hσ

/-- A computation that fails does so in its class of errors. -/
theorem EndsIn.of_fails {x : Rolling σ α} {g g' : σ} {e : EvalError} (h : x.EndsIn P g)
    (he : x.Fails g e g') : P e := by
  cases h with
  | value h =>
    unfold Fails at he
    rw [h] at he
    cases he
  | error h hP =>
    obtain ⟨rfl, rfl⟩ := he.unique h
    exact hP
  | stalled h _ =>
    unfold Fails at he
    rw [h] at he
    cases he

theorem EndsIn.exists_run {x : Rolling σ α} {g : σ} (h : x.EndsIn P g) (hσ : Steady σ) :
    ∃ r g', x.run g = some (r, g') := by
  cases h with
  | value h => exact ⟨_, _, h⟩
  | error h _ => exact ⟨_, _, h⟩
  | stalled _ hn => exact absurd hσ hn

end Rolling

/-! ### Errors of arithmetic -/

/-- An error that depends on the values: a division by zero, or a result outside of the range. -/
def EvalError.IsArithmetic (e : EvalError) : Prop := e = .divisionByZero ∨ e = .overflow

theorem isArithmetic_of_checked {n : Int} {e : EvalError} (h : checked n = .error e) :
    e.IsArithmetic := Or.inr (checked_eq_error_iff.mp h).2

theorem Operator.isArithmetic_of_apply {op : Operator} {a b : Int} {e : EvalError}
    (h : op.apply a b = .error e) : e.IsArithmetic := by
  cases op with
  | add => exact isArithmetic_of_checked h
  | sub => exact isArithmetic_of_checked h
  | mul => exact isArithmetic_of_checked h
  | div =>
    rw [apply] at h
    split at h
    · cases h
      exact Or.inl rfl
    · exact isArithmetic_of_checked h

namespace DiceTerm

variable {σ : Type} [WordSource σ] {t : DiceTerm} {g g' : σ} {e : EvalError}

/-- An empty term fails with its own text, and nothing is drawn for it. -/
theorem fails_of_isEmpty (ht : t.IsEmpty) (g : σ) :
    t.roll.Fails g (.invalidToken t.display) g := by
  rw [roll_of_isEmpty ht]
  rfl

/-- A roll fails where the dice have fallen, but have no total. -/
theorem fails_roll_iff (hr : 0 < t.repeats.toNat) (hs : 0 < t.sides.toNat) :
    t.roll.Fails g e g' ↔ ∃ ds, t.dice g = some (ds, g') ∧ t.total ds = .error e := by
  unfold Rolling.Fails
  rw [run_roll hr hs, Option.map_eq_some_iff]
  constructor
  · rintro ⟨⟨ds, g₁⟩, hdice, h⟩
    obtain ⟨hmap, rfl⟩ := Prod.mk.inj h
    exact ⟨ds, hdice, map_eq_error_iff.mp hmap⟩
  · rintro ⟨ds, hdice, he⟩
    exact ⟨(ds, g'), hdice, by rw [he]; rfl⟩

/-- **A dice term ends well**: rolling it can only leave the range of values. -/
theorem roll_endsIn (hr : 0 < t.repeats.toNat) (hs : 0 < t.sides.toNat) (g : σ) :
    t.roll.EndsIn EvalError.IsArithmetic g := by
  cases hdice : t.dice g with
  | none =>
    have hstalled : t.roll.run g = none := by rw [run_roll hr hs, hdice, Option.map_none]
    refine .stalled hstalled fun hσ => ?_
    obtain ⟨ds, g', hds⟩ := hσ.exists_dice hs g
    cases hdice.symm.trans hds
  | some p =>
    cases htotal : t.total p.1 with
    | ok v => exact .value ((yields_roll_iff hr hs).mpr ⟨hdice, htotal⟩)
    | error e =>
      exact .error ((fails_roll_iff hr hs).mpr ⟨p.1, hdice, htotal⟩)
        (Or.inr (total_eq_error_iff.mp htotal).2)

end DiceTerm

end DiceBot
