import DiceBot.Expr.Machine

/-! # Answers

What a command did, which is left to `reply` to put into words. -/

namespace DiceBot

/-- The answer to a command. -/
inductive Answer where
  | help
  | rolled (expression : Text) (outcome : Except EvalError Outcome)
  | created (name expression : Text)
  | nameTaken (name : Text)
  | nameRefused (name : Text)
  | templateRefused (reason : EvalError)
  | unknownName (name : Text)
  /-- The macros of the group, each with its name and expression. -/
  | listed (macros : List (Text × Text))
  | viewed (name expression : Text)
  | deleted (name : Text)
  | updated (name expression : Text)
  /-- The group may not use the bot. -/
  | accessDenied
  /-- Whether the group may use the bot cannot be found out. -/
  | accessUnknown
  /-- A service of the bot did not answer. -/
  | failure

end DiceBot
