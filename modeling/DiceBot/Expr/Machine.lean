import DiceBot.Expr.Token
import DiceBot.Dice.Roll

/-! # The stack machine

Tokens in postfix order are evaluated on a stack of values. Dice are rolled as they come up, and every
roll is recorded in a trail. -/

namespace DiceBot

/-- The record of one dice term: the term as typed and every die in the order they fell. -/
structure RollRecord where
  expression : Text
  results : List UInt32
deriving Repr, DecidableEq

/-- The value of an expression and the record of its dice. -/
structure Outcome where
  value : Int
  rolls : List RollRecord
deriving Repr, DecidableEq

/-- The state of the machine: the values on the stack, the topmost first, and the trail so far. -/
structure Machine where
  stack : List Int
  trail : List RollRecord
deriving Repr, DecidableEq

namespace Machine

/-- Nothing on the stack and nothing rolled. -/
def empty : Machine := ⟨[], []⟩

/-- The machine with one more value on its stack. -/
def push (m : Machine) (v : Int) : Machine := { m with stack := v :: m.stack }

/-- Replaces the two topmost values by the result of an operator. -/
def applyOperator (m : Machine) (op : Operator) : Except EvalError Machine :=
  match m.stack with
  | b :: a :: stack => do return { m with stack := (← op.apply a b) :: stack }
  | _ => .error .malformedExpression

/-- Evaluates one token. -/
def step {σ : Type} [WordSource σ] (m : Machine) (t : Token) : Rolling σ Machine :=
  match t.kind with
  | .operand (.integer n) => pure (m.push n)
  | .operand (.dice term) => do
    let (value, results) ← term.roll
    pure ⟨value :: m.stack, m.trail ++ [⟨t.text, results⟩]⟩
  | .operator op => Rolling.ofExcept (m.applyOperator op)
  | .leftParen | .rightParen => throw .malformedExpression

/-- Evaluates tokens one after another. -/
def run {σ : Type} [WordSource σ] (m : Machine) (tokens : List Token) : Rolling σ Machine :=
  tokens.foldlM step m

/-- The outcome: there must be exactly one value left. -/
def outcome (m : Machine) : Except EvalError Outcome :=
  match m.stack with
  | [value] => .ok ⟨value, m.trail⟩
  | _ => .error .malformedExpression

/-- Evaluates tokens in postfix order. -/
def evaluate {σ : Type} [WordSource σ] (tokens : List Token) : Rolling σ Outcome := do
  let m ← empty.run tokens
  Rolling.ofExcept m.outcome

end Machine

end DiceBot
