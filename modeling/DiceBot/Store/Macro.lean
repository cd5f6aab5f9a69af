import DiceBot.Error
import DiceBot.Text.Basic

/-! # Macros and stores of macros

A macro is a template that a group keeps under a name. `Store` is what the bot needs of a store;
a call may fail, and its caller sees only the answer. -/

namespace DiceBot

/-- The reasons for which a service of the bot gives no answer. -/
inductive ServiceError where
  /-- The expression has no value. -/
  | eval (error : EvalError)
  /-- The worker that should answer has stopped. -/
  | workerClosed
  /-- The random source ran out of patience. -/
  | stalled
  /-- The database refuses a statement. -/
  | database
  /-- A file cannot be read. -/
  | io
  /-- A file is not JSON of the expected form. -/
  | json
deriving Repr, DecidableEq

/-- A stored macro, as a store answers it. Its id has 32 bits, with a sign. -/
structure Macro where
  id : Int32
  group : Text
  name : Text
  expression : Text
deriving Repr, DecidableEq

/-- The greatest length of the name of a macro. -/
def maxNameLength : Nat := 128

/-- Whether a name has a length that the bot accepts. -/
def nameFits (name : Text) : Bool := 1 ≤ name.length && name.length ≤ maxNameLength

/-- What the bot asks of a store. `create` answers `false` if the name is taken, `update` and `delete`
if there is no such macro. -/
class Store (σ : Type) where
  find : σ → (group name : Text) → Except ServiceError (Option Macro) × σ
  create : σ → (group name expression : Text) → Except ServiceError Bool × σ
  update : σ → (group name expression : Text) → Except ServiceError Bool × σ
  delete : σ → (group name : Text) → Except ServiceError Bool × σ
  /-- The macros of a group in the order of their names. -/
  list : σ → (group : Text) → Except ServiceError (List Macro) × σ

end DiceBot
