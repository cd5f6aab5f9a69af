import DiceBot.Dice.Term
import DiceBot.Expr.Operator

/-! # Tokens

An expression is made of operands (integers and dice terms), operators and parentheses. A token keeps
the text it was read from, since a dice term is reported as it was typed. -/

namespace DiceBot

/-- What an operator works on. -/
inductive Operand where
  | integer (value : Int)
  | dice (term : DiceTerm)
deriving Repr, DecidableEq

/-- The kinds of tokens. -/
inductive TokenKind where
  | operand (operand : Operand)
  | operator (operator : Operator)
  | leftParen
  | rightParen
deriving Repr, DecidableEq

/-- A token: its kind and its text. -/
structure Token where
  kind : TokenKind
  text : Text
deriving Repr, DecidableEq

/-- The operand as it is written. -/
def Operand.display : Operand → Text
  | .integer n => Text.ofInt n
  | .dice t => t.display

/-- The token as it is written, in its shortest form. -/
def TokenKind.display : TokenKind → Text
  | .operand o => o.display
  | .operator op => [op.symbol]
  | .leftParen => ['(']
  | .rightParen => [')']

end DiceBot
