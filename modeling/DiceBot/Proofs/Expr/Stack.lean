import DiceBot.Proofs.Dice.Rolling
import DiceBot.Proofs.Expr.Postorder

/-! # The machine and expression trees

The machine run on the postorder of a tree leaves the value of the tree on its stack and the records of
its dice at the end of its trail (`run_postorder`); so it evaluates the tree (`evaluate_postorder`).
`Runs m g ts m' g'` describes the runs that come to an end without an error, token by token. In such a
run the stack always has as many values as the tokens read so far make trees (`Runs.exists_assemble`),
so a list of tokens that the machine gives a value is a postorder (`exists_postorder_of_yields`). -/

namespace DiceBot.Machine

variable {σ : Type} [WordSource σ]

/-! ### Trees on the machine -/

theorem run_cons (m : Machine) (t : Token) (ts : List Token) :
    (m.run (t :: ts) : Rolling σ Machine) = (do let m' ← m.step t; m'.run ts) := by
  unfold run
  rw [List.foldlM_cons]

theorem run_append (m : Machine) (ts us : List Token) :
    (m.run (ts ++ us) : Rolling σ Machine) = (do let m' ← m.run ts; m'.run us) := by
  unfold run
  rw [List.foldlM_append]

theorem run_singleton (m : Machine) (t : Token) :
    (m.run [t] : Rolling σ Machine) = m.step t := by
  rw [run_cons]
  exact bind_pure _

/-- An operator replaces the values of its operands. -/
theorem step_operator (op : Operator) (x : Text) (a b : Int) (S : List Int)
    (tr : List RollRecord) :
    ((Machine.mk (b :: a :: S) tr).step ⟨.operator op, x⟩ : Rolling σ Machine) =
      (do let v ← Rolling.ofExcept (op.apply a b); pure ⟨v :: S, tr⟩) := by
  simp only [step, applyOperator]
  cases op.apply a b <;> rfl

/-- **A tree on the machine**: its value comes on top of the stack and its records at the end of the
trail. -/
theorem run_postorder (e : ExprTree) : ∀ m : Machine, (m.run e.postorder : Rolling σ Machine) =
    (do let o ← e.eval; pure ⟨o.value :: m.stack, m.trail ++ o.rolls⟩) := by
  induction e with
  | leaf o x =>
    intro m
    rw [ExprTree.postorder, run_singleton]
    cases o with
    | integer n => simp [step, push, ExprTree.eval]
    | dice t => simp [step, ExprTree.eval]
  | node op x l r ihl ihr =>
    intro m
    rw [ExprTree.postorder, run_append, run_append, ihl]
    simp only [bind_assoc, pure_bind, ihr, run_singleton, step_operator, ExprTree.eval,
      List.append_assoc]

/-- **The machine evaluates the tree** of which it is given the postorder. -/
theorem evaluate_postorder (e : ExprTree) :
    (evaluate e.postorder : Rolling σ Outcome) = e.eval := by
  unfold evaluate
  rw [run_postorder]
  simp only [bind_assoc, pure_bind, empty, List.nil_append, outcome, Rolling.ofExcept_ok]
  exact bind_pure _

/-! ### Runs without an error -/

/-- The run from one state to another, with the source before and after. -/
inductive Runs : Machine → σ → List Token → Machine → σ → Prop where
  | done {m : Machine} {g : σ} : Runs m g [] m g
  | integer {S : List Int} {tr : List RollRecord} {n : Int} {x : Text} {ts : List Token}
      {m : Machine} {g g' : σ} : Runs ⟨n :: S, tr⟩ g ts m g' →
      Runs ⟨S, tr⟩ g (⟨.operand (.integer n), x⟩ :: ts) m g'
  | dice {S : List Int} {tr : List RollRecord} {t : DiceTerm} {v : Int} {ds : List UInt32} {x : Text}
      {ts : List Token} {m : Machine} {g g₁ g' : σ} : t.roll.Yields g (v, ds) g₁ →
      Runs ⟨v :: S, tr ++ [⟨x, ds⟩]⟩ g₁ ts m g' →
      Runs ⟨S, tr⟩ g (⟨.operand (.dice t), x⟩ :: ts) m g'
  | operator {S : List Int} {tr : List RollRecord} {op : Operator} {a b v : Int} {x : Text}
      {ts : List Token} {m : Machine} {g g' : σ} : op.apply a b = .ok v →
      Runs ⟨v :: S, tr⟩ g ts m g' → Runs ⟨b :: a :: S, tr⟩ g (⟨.operator op, x⟩ :: ts) m g'

theorem Runs.yields {ts : List Token} {m m' : Machine} {g g' : σ} (h : Runs m g ts m' g') :
    (m.run ts).Yields g m' g' := by
  induction h with
  | done => exact Rolling.yields_pure_iff.mpr ⟨rfl, rfl⟩
  | integer _ ih =>
    rw [run_cons]
    exact Rolling.yields_bind_iff.mpr ⟨_, _, Rolling.yields_pure_iff.mpr ⟨rfl, rfl⟩, ih⟩
  | dice hroll _ ih =>
    rw [run_cons]
    exact Rolling.yields_bind_iff.mpr ⟨_, _, Rolling.yields_bind_iff.mpr
      ⟨_, _, hroll, Rolling.yields_pure_iff.mpr ⟨rfl, rfl⟩⟩, ih⟩
  | operator happ _ ih =>
    rw [run_cons, step_operator, happ]
    exact Rolling.yields_bind_iff.mpr ⟨_, _, Rolling.yields_pure_iff.mpr ⟨rfl, rfl⟩, ih⟩

theorem runs_of_yields : ∀ {ts : List Token} {m m' : Machine} {g g' : σ},
    (m.run ts).Yields g m' g' → Runs m g ts m' g'
  | [], m, m', g, g', h => by
    obtain ⟨rfl, rfl⟩ := Rolling.yields_pure_iff.mp h
    exact .done
  | ⟨k, x⟩ :: ts, ⟨S, tr⟩, m', g, g', h => by
    rw [run_cons] at h
    obtain ⟨m₁, g₁, hstep, hrun⟩ := Rolling.yields_bind_iff.mp h
    have hrun := runs_of_yields hrun
    match k with
    | .operand (.integer n) =>
      obtain ⟨rfl, rfl⟩ := Rolling.yields_pure_iff.mp hstep
      exact .integer hrun
    | .operand (.dice t) =>
      obtain ⟨⟨v, ds⟩, g₂, hroll, hpure⟩ := Rolling.yields_bind_iff.mp hstep
      obtain ⟨rfl, rfl⟩ := Rolling.yields_pure_iff.mp hpure
      exact .dice hroll hrun
    | .operator op =>
      match S with
      | [] => cases (Rolling.yields_ofExcept_iff.mp hstep).1
      | [b] => cases (Rolling.yields_ofExcept_iff.mp hstep).1
      | b :: a :: S =>
        rw [step_operator] at hstep
        obtain ⟨v, g₂, hv, hpure⟩ := Rolling.yields_bind_iff.mp hstep
        obtain ⟨happ, rfl⟩ := Rolling.yields_ofExcept_iff.mp hv
        obtain ⟨rfl, rfl⟩ := Rolling.yields_pure_iff.mp hpure
        exact .operator happ hrun
    | .leftParen => exact absurd hstep Rolling.not_yields_throw
    | .rightParen => exact absurd hstep Rolling.not_yields_throw

/-- **The rules** describe the runs that yield a state. -/
theorem yields_run_iff {ts : List Token} {m m' : Machine} {g g' : σ} :
    (m.run ts).Yields g m' g' ↔ Runs m g ts m' g' :=
  ⟨runs_of_yields, Runs.yields⟩

/-- The machine gives tokens a value if they run to a single value on the stack. -/
theorem yields_evaluate_iff {ts : List Token} {out : Outcome} {g g' : σ} :
    (evaluate ts).Yields g out g' ↔ Runs empty g ts ⟨[out.value], out.rolls⟩ g' := by
  unfold evaluate
  rw [Rolling.yields_bind_iff]
  constructor
  · rintro ⟨⟨S, tr⟩, g₁, hrun, hout⟩
    obtain ⟨hout, rfl⟩ := Rolling.yields_ofExcept_iff.mp hout
    match S with
    | [] => cases hout
    | [v] =>
      cases hout
      exact yields_run_iff.mp hrun
    | _ :: _ :: _ => cases hout
  · intro h
    exact ⟨_, _, yields_run_iff.mpr h, Rolling.yields_ofExcept_iff.mpr ⟨rfl, rfl⟩⟩

/-! ### Trees from runs -/

/-- **The stack holds the values of trees**: if `F` are as many trees as there are values, the tokens
that are read make of them as many trees as there are values in the end. -/
theorem Runs.exists_assemble {ts : List Token} {m m' : Machine} {g g' : σ} (h : Runs m g ts m' g') :
    ∀ F : List ExprTree, F.length = m.stack.length →
      ∃ F', ExprTree.assemble F ts = some F' ∧ F'.length = m'.stack.length := by
  induction h with
  | done => exact fun F hF => ⟨F, rfl, hF⟩
  | @integer S tr n x ts m g g' _ ih =>
    intro F hF
    exact ih (.leaf (.integer n) x :: F) (by simpa using hF)
  | @dice S tr t v ds x ts m g g₁ g' _ _ ih =>
    intro F hF
    exact ih (.leaf (.dice t) x :: F) (by simpa using hF)
  | @operator S tr op a b v x ts m g g' _ _ ih =>
    intro F hF
    obtain ⟨r, F, rfl⟩ := List.exists_cons_of_length_eq_add_one hF
    obtain ⟨l, F, rfl⟩ := List.exists_cons_of_length_eq_add_one (Nat.succ.inj hF)
    exact ih (.node op x l r :: F) (by simpa using hF)

/-- **What has a value is a postorder**. -/
theorem exists_postorder_of_yields {ts : List Token} {out : Outcome} {g g' : σ}
    (h : (evaluate ts).Yields g out g') : ∃ e : ExprTree, ts = e.postorder := by
  obtain ⟨F, hF, hlen⟩ := (yields_evaluate_iff.mp h).exists_assemble [] rfl
  obtain ⟨e, rfl⟩ := List.length_eq_one_iff.mp hlen
  have hfound : ExprTree.ofPostorder? ts = some e := by rw [ExprTree.ofPostorder?, hF]
  exact ⟨e, ExprTree.ofPostorder?_eq_some_iff.mp hfound⟩

end DiceBot.Machine
