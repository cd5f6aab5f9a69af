import DiceBot.Expr.Machine

/-! # Expression trees

The tree of an expression has operands at its leaves and an operator at every other node, each with the
text it was written as. A tree is evaluated from left to right; its postorder is the sequence of tokens
that does the same on the stack machine. -/

namespace DiceBot

/-- An expression tree. -/
inductive ExprTree where
  | leaf (operand : Operand) (text : Text)
  | node (operator : Operator) (text : Text) (left right : ExprTree)
deriving Repr, DecidableEq

namespace ExprTree

/-- The tokens of a tree, every operator behind its operands. -/
def postorder : ExprTree → List Token
  | leaf o x => [⟨.operand o, x⟩]
  | node op x l r => l.postorder ++ r.postorder ++ [⟨.operator op, x⟩]

/-- Evaluates the left operand, then the right one, then the operator. -/
def eval {σ : Type} [WordSource σ] : ExprTree → Rolling σ Outcome
  | leaf (.integer n) _ => pure ⟨n, []⟩
  | leaf (.dice t) x => do
    let (value, results) ← t.roll
    pure ⟨value, [⟨x, results⟩]⟩
  | node op _ l r => do
    let a ← l.eval
    let b ← r.eval
    let value ← Rolling.ofExcept (op.apply a.value b.value)
    pure ⟨value, a.rolls ++ b.rolls⟩

/-- The operands of a tree from left to right. -/
def operands : ExprTree → List (Operand × Text)
  | leaf o x => [(o, x)]
  | node _ _ l r => l.operands ++ r.operands

/-- The postorder has no parentheses. -/
theorem kind_of_mem_postorder {e : ExprTree} {t : Token} (h : t ∈ e.postorder) :
    (∃ o, t.kind = .operand o) ∨ ∃ op, t.kind = .operator op := by
  induction e with
  | leaf o x =>
    rw [postorder, List.mem_singleton] at h
    exact Or.inl ⟨o, by rw [h]⟩
  | node op x l r ihl ihr =>
    simp only [postorder, List.mem_append, List.mem_singleton] at h
    rcases h with (h | h) | h
    · exact ihl h
    · exact ihr h
    · exact Or.inr ⟨op, by rw [h]⟩

end ExprTree

end DiceBot
