import DiceBot.Store.Macro
import DiceBot.Template

/-! # The roll executor

The executor evaluates expressions and tries out templates, all within the same limits, each with a
generator of its own. Once it is stopped it answers nothing any more. -/

namespace DiceBot

/-- Who evaluates, within which limits. -/
structure Executor where
  limits : Limits
  /-- Whether it still hands out generators. -/
  running : Bool
deriving Repr, DecidableEq

namespace Executor

/-- Carries out a roll with the generator `g`. -/
def execute {σ α : Type} (ex : Executor) (g : σ) (x : Rolling σ α) : Except ServiceError α :=
  if ex.running then
    match x.run g with
    | none => .error .stalled
    | some (.error e, _) => .error (.eval e)
    | some (.ok a, _) => .ok a
  else .error .workerClosed

/-- The outcome of an expression. -/
def roll {σ : Type} [WordSource σ] (ex : Executor) (g : σ) (expression : Text) :
    Except ServiceError Outcome :=
  ex.execute g (evaluate ex.limits expression)

/-- Tries out a template. -/
def validate {σ : Type} [WordSource σ] (ex : Executor) (g : σ) (template : Text) :
    Except ServiceError Unit :=
  ex.execute g (Template.validate ex.limits template)

end Executor

end DiceBot
