import DiceBot.Expr.Token

/-! # Roll limits

Bounds on the number of dice and of sides in a dice term, checked before anything is rolled. Where a
term is beyond both bounds, the number of dice is reported. -/

namespace DiceBot

/-- The greatest number of dice and of sides in a term; `none` leaves that part unchecked. -/
structure Limits where
  maxRepeats : Option UInt32
  maxSides : Option UInt32
deriving Repr, DecidableEq

namespace Limits

/-- No bounds at all. -/
def unlimited : Limits := ⟨none, none⟩

/-- The greatest total of a single dice term within these limits, if both bounds are set. -/
def maxTotal (l : Limits) : Option Int :=
  match l.maxRepeats, l.maxSides with
  | some repeats, some sides => some (DiceTerm.greatest ⟨repeats, sides, .none⟩)
  | _, _ => none

/-- Checks one part of the term typed as `text`. -/
def checkBound (text : Text) (bound : Bound) (limit : Option UInt32) (found : UInt32) :
    Except EvalError Unit :=
  match limit with
  | some limit =>
    if limit < found then .error (.rangeExceeded text bound limit found) else .ok ()
  | none => .ok ()

/-- Checks the term typed as `text`. -/
def check (l : Limits) (term : DiceTerm) (text : Text) : Except EvalError Unit := do
  checkBound text .repeats l.maxRepeats term.repeats
  checkBound text .sides l.maxSides term.sides

/-- Checks a token; only dice terms are limited. -/
def checkToken (l : Limits) (t : Token) : Except EvalError Unit :=
  match t.kind with
  | .operand (.dice term) => l.check term t.text
  | _ => .ok ()

/-- Checks the tokens in order: the first failure counts. -/
def checkAll (l : Limits) : List Token → Except EvalError Unit
  | [] => .ok ()
  | t :: ts => do
    l.checkToken t
    l.checkAll ts

end Limits

end DiceBot
