import DiceBot.Expr.Token

/-! # Postfix order

`arrange` puts the tokens of an infix expression into postfix order: every operator behind its
operands, and no parentheses. Operators wait on a stack until one that binds less tightly, a closing
parenthesis or the end comes. The shape of the expression is not checked here. -/

namespace DiceBot.Postfix

/-- Whether a waiting token comes before an operator of this precedence. -/
def yields (precedence : Nat) (waiting : Token) : Bool :=
  match waiting.kind with
  | .operator op => precedence ≤ op.precedence
  | _ => false

/-- The waiting tokens that come before an operator of this precedence. -/
def released (precedence : Nat) (stack : List Token) : List Token :=
  stack.takeWhile (yields precedence)

/-- The waiting tokens that stay behind. -/
def kept (precedence : Nat) (stack : List Token) : List Token :=
  stack.dropWhile (yields precedence)

/-- Whether a token opens a parenthesis. -/
def isOpening (t : Token) : Bool := t.kind = .leftParen

/-- The postfix order of the tokens, while the tokens of `stack` wait, the latest first. -/
def arrange : (tokens stack : List Token) → Except EvalError (List Token)
  | [], stack => if stack.any isOpening then .error .mismatchedParen else .ok stack
  | t :: ts, stack =>
    match t.kind with
    | .operand _ => do return t :: (← arrange ts stack)
    | .operator op => do
      return released op.precedence stack ++ (← arrange ts (t :: kept op.precedence stack))
    | .leftParen => arrange ts (t :: stack)
    | .rightParen =>
      match stack.dropWhile (fun w => !isOpening w) with
      | [] => .error .mismatchedParen
      | _ :: rest => do
        return stack.takeWhile (fun w => !isOpening w) ++ (← arrange ts rest)

/-- The tokens of an infix expression in postfix order. -/
def ofInfix (tokens : List Token) : Except EvalError (List Token) := arrange tokens []

end DiceBot.Postfix
