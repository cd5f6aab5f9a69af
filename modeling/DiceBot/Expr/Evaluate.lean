import DiceBot.Expr.Lexer
import DiceBot.Expr.Limits
import DiceBot.Expr.Machine
import DiceBot.Expr.Postfix

/-! # Evaluating an expression

The text of an expression is read into tokens, which are validated, checked against the limits and
put into postfix order, all before the first die is rolled. -/

namespace DiceBot

/-- The tokens of an expression in postfix order. -/
def parse (limits : Limits) (expression : Text) : Except EvalError (List Token) := do
  let tokens := Lexer.tokens expression
  Lexer.validate expression tokens
  limits.checkAll tokens
  Postfix.ofInfix tokens

/-- The outcome of an expression. -/
def evaluate {σ : Type} [WordSource σ] (limits : Limits) (expression : Text) :
    Rolling σ Outcome := do
  let postfixTokens ← Rolling.ofExcept (parse limits expression)
  Machine.evaluate postfixTokens

end DiceBot
