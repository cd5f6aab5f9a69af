import DiceBot.Dice.Roll

/-! # Results of computations

A computation that may fail is taken apart at its steps: it has a result behind a check if the check is
passed (`check_bind_eq_ok_iff`). `x.Yields g a g'` says that the computation `x`, started with the
source `g`, ends with the result `a` and leaves the source `g'`; a sequence yields a result if each of
its steps yields one (`Rolling.yields_bind_iff`). -/

namespace DiceBot

/-! ### Results or errors -/

section Except

variable {α β ε : Type}

theorem map_eq_ok_iff {f : α → β} {r : Except ε α} {b : β} :
    r.map f = .ok b ↔ ∃ a, r = .ok a ∧ f a = b := by
  cases r <;> simp [Except.map]

/-- A check before a computation must be passed. -/
theorem check_bind_eq_ok_iff {r : Except ε Unit} {f : Unit → Except ε β} {b : β} :
    (r >>= f) = .ok b ↔ r = .ok () ∧ f () = .ok b := by
  cases r <;> simp [bind, Except.bind]

theorem map_eq_error_iff {f : α → β} {r : Except ε α} {e : ε} :
    r.map f = .error e ↔ r = .error e := by
  cases r <;> simp [Except.map]

/-- A sequence fails where its first part fails, or behind a result of that. -/
theorem bind_eq_error_iff {r : Except ε α} {f : α → Except ε β} {e : ε} :
    (r >>= f) = .error e ↔ r = .error e ∨ ∃ a, r = .ok a ∧ f a = .error e := by
  cases r <;> simp [bind, Except.bind]

end Except

/-! ### Computations that draw words -/

namespace Rolling

variable {σ α β : Type}

/-- The computation ends with the result `a` and leaves the source `g'`. -/
def Yields (x : Rolling σ α) (g : σ) (a : α) (g' : σ) : Prop := x.run g = some (.ok a, g')

theorem ofExcept_ok (a : α) : (ofExcept (.ok a) : Rolling σ α) = pure a := rfl

theorem yields_pure_iff {a b : α} {g g' : σ} :
    (pure a : Rolling σ α).Yields g b g' ↔ a = b ∧ g = g' := by
  show some (Except.ok a, g) = some (Except.ok b, g') ↔ _
  simp

theorem yields_ofExcept_iff {r : Except EvalError α} {a : α} {g g' : σ} :
    (ofExcept r : Rolling σ α).Yields g a g' ↔ r = .ok a ∧ g = g' := by
  show some (r, g) = some (Except.ok a, g') ↔ _
  simp

theorem not_yields_throw {e : EvalError} {a : α} {g g' : σ} :
    ¬ (throw e : Rolling σ α).Yields g a g' := by
  intro h
  cases (show some (Except.error e, g) = some (Except.ok a, g') from h)

/-- The second computation of a sequence goes on where the first ends, unless that fails. -/
theorem run_bind (x : Rolling σ α) (f : α → Rolling σ β) (g : σ) :
    (x >>= f).run g = match x.run g with
      | none => none
      | some (.error e, g') => some (.error e, g')
      | some (.ok a, g') => (f a).run g' := by
  show (x.run g).bind _ = _
  rcases x.run g with _ | ⟨_ | a, g'⟩ <;> rfl

/-- Behind a result the second computation of a sequence is all that is left. -/
theorem Yields.run_bind {x : Rolling σ α} {g g' : σ} {a : α} (h : x.Yields g a g')
    (f : α → Rolling σ β) : (x >>= f).run g = (f a).run g' := by
  rw [Rolling.run_bind, h]

/-- A sequence of two computations yields what the second yields after the first. -/
theorem yields_bind_iff {x : Rolling σ α} {f : α → Rolling σ β} {g g'' : σ} {b : β} :
    (x >>= f).Yields g b g'' ↔ ∃ a g', x.Yields g a g' ∧ (f a).Yields g' b g'' := by
  unfold Yields
  rw [run_bind]
  rcases x.run g with _ | ⟨_ | a, g'⟩
  · simp
  · simp
  · exact ⟨fun h => ⟨a, g', rfl, h⟩, fun ⟨_, _, h1, h2⟩ => by cases h1; exact h2⟩

theorem yields_lift_iff {x : StateT σ Option α} {g g' : σ} {a : α} :
    Yields (ExceptT.lift x) g a g' ↔ x g = some (a, g') := by
  show (x g).bind (fun r => some (Except.ok r.1, r.2)) = some (Except.ok a, g') ↔ _
  rcases x g with _ | ⟨b, g''⟩ <;> simp

end Rolling

end DiceBot
