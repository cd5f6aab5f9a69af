import DiceBot.Dice.Value

/-! # Operators

The four operators on values. Multiplication and division bind tighter than addition and subtraction;
division truncates toward zero. -/

namespace DiceBot

/-- An operator between two values. -/
inductive Operator where
  | add
  | sub
  | mul
  | div
deriving Repr, DecidableEq

namespace Operator

/-- The character of an operator. -/
def symbol : Operator → Char
  | .add => '+'
  | .sub => '-'
  | .mul => '*'
  | .div => '/'

/-- How tightly an operator binds. -/
def precedence : Operator → Nat
  | .add | .sub => 1
  | .mul | .div => 2

/-- The value of `a op b`. -/
def apply (op : Operator) (a b : Int) : Except EvalError Int :=
  match op with
  | .add => checked (a + b)
  | .sub => checked (a - b)
  | .mul => checked (a * b)
  | .div => if b = 0 then .error .divisionByZero else checked (a.tdiv b)

end Operator

end DiceBot
