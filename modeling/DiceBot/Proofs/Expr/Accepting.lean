import DiceBot.Proofs.Dice.Ending
import DiceBot.Proofs.Expr.Stack

/-! # What the machine accepts

The machine gives a value to postorders and to nothing else, whatever the tokens are: parentheses, negative
integers or dice terms without dice among them. A postorder is evaluated as its tree is, so it never fails
for its shape, but only as the tree can fail (`ExprTree.eval_endsIn`): for its arithmetic, or for a dice
term without dice or without sides. -/

namespace DiceBot

namespace ExprTree

/-- The errors of a tree: those of arithmetic, and the texts of its dice terms that are empty. -/
def CanFailWith (e : ExprTree) (err : EvalError) : Prop :=
  err.IsArithmetic ∨
    ∃ t x, (.dice t, x) ∈ e.operands ∧ t.IsEmpty ∧ err = .invalidToken t.display

variable {op : Operator} {x : Text} {l r : ExprTree} {err : EvalError}

theorem CanFailWith.left (h : l.CanFailWith err) : (node op x l r).CanFailWith err :=
  h.imp_right fun ⟨t, y, hy, hrest⟩ => ⟨t, y, List.mem_append_left _ hy, hrest⟩

theorem CanFailWith.right (h : r.CanFailWith err) : (node op x l r).CanFailWith err :=
  h.imp_right fun ⟨t, y, hy, hrest⟩ => ⟨t, y, List.mem_append_right _ hy, hrest⟩

theorem not_canFailWith_malformed (e : ExprTree) : ¬e.CanFailWith .malformedExpression := by
  rintro ((h | h) | ⟨t, x, -, -, h⟩) <;> cases h

variable {σ : Type} [WordSource σ]

/-- An empty term fails with its own text, and nothing is drawn. -/
theorem leaf_fails {t : DiceTerm} (ht : t.IsEmpty) (x : Text) (g : σ) :
    ((leaf (.dice t) x).eval).Fails g (.invalidToken t.display) g := by
  rw [eval]
  exact (DiceTerm.fails_of_isEmpty ht g).bind _

/-- **How a tree ends**: with a value, or with one of its errors. -/
theorem eval_endsIn : ∀ (e : ExprTree) (g : σ), e.eval.EndsIn e.CanFailWith g
  | leaf (.integer n) x, g => Rolling.endsIn_pure _ g
  | leaf (.dice t) x, g => by
    by_cases ht : t.IsEmpty
    · have herr : (leaf (.dice t) x).CanFailWith (.invalidToken t.display) :=
        Or.inr ⟨t, x, List.mem_cons_self, ht, rfl⟩
      exact .error (leaf_fails ht x g) herr
    · obtain ⟨hr, hs⟩ := DiceTerm.pos_of_not_isEmpty ht
      have hroll : t.roll.EndsIn (leaf (.dice t) x).CanFailWith g :=
        (DiceTerm.roll_endsIn hr hs g).mono fun err herr => Or.inl herr
      exact hroll.bind fun results g' _ => Rolling.endsIn_pure _ g'
  | node op x l r, g => by
    have hleft : l.eval.EndsIn (node op x l r).CanFailWith g :=
      (l.eval_endsIn g).mono fun err herr => herr.left
    refine hleft.bind fun a g₁ _ => ?_
    have hright : r.eval.EndsIn (node op x l r).CanFailWith g₁ :=
      (r.eval_endsIn g₁).mono fun err herr => herr.right
    refine hright.bind fun b g₂ _ => ?_
    have happly : ∀ err, op.apply a.value b.value = .error err → (node op x l r).CanFailWith err :=
      fun err herr => Or.inl (Operator.isArithmetic_of_apply herr)
    exact (Rolling.endsIn_ofExcept happly g₂).bind fun v g₃ _ => Rolling.endsIn_pure _ g₃

end ExprTree

/-- **The machine evaluates postorders and nothing else.** A postorder is that of one tree, and is evaluated
as the tree is, where a dice term without dice or without sides fails with its own text; so it is never
malformed. Other tokens have a value with no source. -/
theorem evaluates_postorders {σ : Type} [WordSource σ] (p : List Token) :
    (∀ e : ExprTree, p = e.postorder →
      (∀ e' : ExprTree, p = e'.postorder → e' = e) ∧
      (Machine.evaluate p : Rolling σ Outcome) = e.eval ∧
      ∀ g : σ, (Machine.evaluate p).EndsIn e.CanFailWith g ∧
        ∀ g', ¬(Machine.evaluate p).Fails g .malformedExpression g') ∧
    (∀ (t : DiceTerm) (x : Text) (g : σ), t.IsEmpty →
      ((ExprTree.leaf (.dice t) x).eval).Fails g (.invalidToken t.display) g) ∧
    ((¬∃ e : ExprTree, p = e.postorder) →
      ∀ (g : σ) (out : Outcome) (g' : σ), ¬(Machine.evaluate p).Yields g out g') := by
  refine ⟨?_, fun t x g ht => ExprTree.leaf_fails ht x g, fun hno g out g' h => ?_⟩
  · rintro e rfl
    have heval : (Machine.evaluate e.postorder : Rolling σ Outcome) = e.eval :=
      Machine.evaluate_postorder e
    refine ⟨fun e' he' => ExprTree.postorder_inj he'.symm, heval, fun g => ?_⟩
    rw [heval]
    have hends := e.eval_endsIn g
    exact ⟨hends, fun g' hfails => e.not_canFailWith_malformed (hends.of_fails hfails)⟩
  · exact hno (Machine.exists_postorder_of_yields h)

/-- A product with an empty dice term, and two integers without an operator. -/
theorem evaluates_postorders_emptyTerm :
    let empty : DiceTerm := ⟨0, 6, .highest⟩
    let product : ExprTree :=
      .node .mul ['*'] (.leaf (.integer (-2)) "-2".toList) (.leaf (.dice empty) "dice".toList)
    let pair : List Token := [⟨.operand (.integer 1), ['1']⟩, ⟨.operand (.integer 2), ['2']⟩]
    (empty.IsEmpty ∧ ¬∃ e : ExprTree, pair = e.postorder) ∧
      (Machine.evaluate product.postorder : Rolling Script Outcome) = product.eval ∧
      (Machine.evaluate product.postorder).Fails (⟨[7]⟩ : Script) (.invalidToken "0d6!".toList) ⟨[7]⟩ ∧
      ∀ (g : Script) (out : Outcome) (g' : Script), ¬(Machine.evaluate pair).Yields g out g' := by
  intro empty product pair
  have hempty : empty.IsEmpty := Or.inl rfl
  have hpair : ¬∃ e : ExprTree, pair = e.postorder := by decide
  obtain ⟨htree, -, -⟩ := evaluates_postorders (σ := Script) product.postorder
  obtain ⟨-, heval, -⟩ := htree product rfl
  obtain ⟨-, hleaf, hno⟩ := evaluates_postorders (σ := Script) pair
  have hdisplay : empty.display = "0d6!".toList := by decide
  have hfails := hleaf empty "dice".toList ⟨[7]⟩ hempty
  refine ⟨⟨hempty, hpair⟩, heval, ?_, hno hpair⟩
  rw [heval, ← hdisplay]
  -- the left operand draws nothing, so the term meets the same source
  rw [ExprTree.eval, ExprTree.eval, pure_bind]
  exact hfails.bind _

end DiceBot
