import DiceBot.Text.Quoted

/-! # What can go wrong with an expression

An expression is refused for the characters in it, for its parentheses, for its shape, for a dice term
beyond the limits, or for its arithmetic. `EvalError.message` is the text shown to users. -/

namespace DiceBot

/-- The part of a dice term that a limit bounds. -/
inductive Bound where
  | repeats
  | sides
deriving Repr, DecidableEq

/-- The word for what a bound counts. -/
def Bound.noun : Bound → Text
  | .repeats => "dice".toList
  | .sides => "sides".toList

/-- The reasons for which an expression has no value. -/
inductive EvalError where
  /-- The text holds characters that belong to no token. -/
  | invalidToken (input : Text)
  /-- A parenthesis has no partner. -/
  | mismatchedParen
  /-- Operands and operators do not fit together. -/
  | malformedExpression
  | divisionByZero
  /-- A value leaves the range of values. -/
  | overflow
  /-- A dice term, as it was typed, is beyond a limit. -/
  | rangeExceeded (term : Text) (bound : Bound) (limit found : UInt32)
deriving Repr, DecidableEq

/-- The error in words. -/
def EvalError.message : EvalError → Text
  | .invalidToken input => "Invalid tokens found in ".toList ++ Text.quote input
  | .mismatchedParen => "Unable to parse: mismatched parens".toList
  | .malformedExpression => "Unable to parse malformed input".toList
  | .divisionByZero => "Unable to evaluate: division by zero".toList
  | .overflow => "Unable to evaluate: integer overflow".toList
  | .rangeExceeded term bound limit _ =>
    term ++ " is out of range: at most ".toList ++ Text.ofNat limit.toNat ++ [' '] ++ bound.noun ++
      " allowed".toList

end DiceBot
