import DiceBot.Expr.Tree

/-! # Infix expressions

The grammar of infix expressions: sums of products of factors, where a factor is an operand or an
expression in parentheses. Operators of the same precedence group to the left.

`Infix p ts e` says that the tokens `ts` are an infix expression with the tree `e`, in which no operator
outside of parentheses binds less tightly than `p`: sums are the expressions for `p = 1`, products those
for `p = 2`, and factors those for `p = 3`. -/

namespace DiceBot

/-- The tokens form an infix expression with this tree and operators of at least this precedence. -/
inductive Infix : Nat → List Token → ExprTree → Prop where
  | operand (o : Operand) (x : Text) : Infix 3 [⟨.operand o, x⟩] (.leaf o x)
  | parens {ts : List Token} {e : ExprTree} (x y : Text) :
      Infix 1 ts e → Infix 3 (⟨.leftParen, x⟩ :: ts ++ [⟨.rightParen, y⟩]) e
  | binary {ts us : List Token} {l r : ExprTree} (op : Operator) (x : Text) :
      Infix op.precedence ts l → Infix (op.precedence + 1) us r →
      Infix op.precedence (ts ++ ⟨.operator op, x⟩ :: us) (.node op x l r)
  | looser {p : Nat} {ts : List Token} {e : ExprTree} : Infix (p + 1) ts e → Infix p ts e

/-- The tokens form an expression with this tree. -/
def IsExpression (ts : List Token) (e : ExprTree) : Prop := Infix 1 ts e

namespace Infix

/-- The operands of an expression stand in its tree in the order they are written. -/
theorem filterMap_operand {p : Nat} {ts : List Token} {e : ExprTree} (h : Infix p ts e) :
    (ts.filterMap fun t =>
      match t.kind with
      | .operand o => some (o, t.text)
      | _ => none) = e.operands := by
  induction h with
  | operand o x => rfl
  | parens x y _ ih => simpa using ih
  | binary op x _ _ ihl ihr => simp [ExprTree.operands, ihl, ihr]
  | looser _ ih => exact ih

end Infix

end DiceBot
