import DiceBot.Bot.Answer
import DiceBot.Expr.Limits
import DiceBot.Store.Macro

/-! # Answers in words

The chat message for the answer to a command. -/

namespace DiceBot.Reply

/-! ### Help -/

/-- A limit and what it counts. -/
def limitText (limit : Option UInt32) (unit : String) : String :=
  match limit with
  | some n => s!"up to {n} {unit}"
  | none => s!"any number of {unit}"

/-- The greatest total of a dice term, if there is one. -/
def totalText (l : Limits) : String :=
  match l.maxTotal with
  | some total => s!" A single dice term totals at most {total}."
  | none => ""

/-- The lines of the help message. -/
def helpLines (p : String) (l : Limits) : List String :=
  let sides := limitText l.maxSides "sides"
  let rolls := limitText l.maxRepeats "rolls"
  let total := totalText l
  ["**DiceMancer Bot Available Commands**",
    "",
    "🎲 Basic Usage  🎲",
    s!"**{p}roll** <expression>",
    s!"- Example usage: `{p}roll 4d10 + 5`",
    "- You can give it any arithmetic expression with both numbers and dice notation.",
    "- Dice notation must be in the form XdY, where X and Y are integers.",
    "- For advantage and disadvantage, you can write ! or ? after your dice notation to " ++
      "get the highest and lowest roll respectively. For example, 4d10! will get the " ++
      "highest of the four rolls, while 4d10? will get the lowest.",
    s!"- You can roll dice with {sides} and {rolls} at once.{total}",
    "",
    "🎲 Macros  🎲",
    "A macro is an expression you can re-use again and again. Macros can have inputs, " ++
      "which must be written as uppercase letters starting from A. If the macro only has " ++
      "one input, it must be named A; two, must be named A and B, and so on.",
    "",
    "For example, you can have a macro: `4 * (A + B)`",
    "You will be able to roll this macro substituting anything you'd like for the " ++
      "variables A and B.",
    "",
    s!"**{p}make-macro** <name> <expression>",
    s!"- This is used to create a macro. For example: `{p}make-macro my-macro 4 * (A + B)`",
    s!"- Macro names cannot contain whitespace and have a maximum of {maxNameLength} " ++
      "characters.",
    "",
    s!"**{p}roll-macro** <name> <inputs separated by spaces>",
    "- This is how you roll a macro once it's created. Specify the name of the macro, " ++
      "following by what you want the A, B, C, etc to be separated by spaces. (They can be " ++
      "either numbers or dice notation.)",
    s!"- For example: `{p}roll-macro my-macro 10 4d6`",
    "",
    "There are several other commands to help you view, edit, and delete macros:",
    s!"**{p}list-macros** | Lists all macros available.",
    s!"**{p}view-macro** <name> | Displays the macro with the given name.",
    s!"**{p}delete-macro** <name> | Deletes the macro with the given name.",
    s!"**{p}edit-macro** <name> <expression> | Updates the existing macro.",
    "",
    "Macros are tied to the server and macros created by this server can only be used in " ++
      "this server."]

/-- How to use the bot. -/
def help (commandPrefix : Text) (l : Limits) : Text :=
  (helpLines (String.ofList commandPrefix) l).flatMap fun line => line.toList ++ ['\n']

/-! ### Rolls -/

/-- The record of one dice term. -/
def rollLine (r : RollRecord) : Text :=
  "> 🎲 **".toList ++ r.expression ++ "** [".toList ++
    Text.join [' '] (r.results.map fun d => Text.ofNat d.toNat) ++ "]\n".toList

/-- The outcome of an expression. -/
def rolled (expression : Text) (o : Outcome) : Text :=
  "You asked me to roll: ".toList ++ expression ++ "\nYou rolled a **".toList ++
    Text.ofInt o.value ++ "**!\n> *ROLL RESULTS*\n".toList ++ o.rolls.flatMap rollLine

/-- The reason for which an expression has no value. -/
def notRolled (expression : Text) (e : EvalError) : Text :=
  "**Uh-oh!** Error occurred parsing: ".toList ++ expression ++ " \n".toList ++ e.message

/-! ### Macros -/

/-- A name between single quotation marks. -/
def named (name : Text) : Text := '\'' :: name ++ ['\'']

/-- One macro of a list. -/
def macroLine (m : Text × Text) : Text :=
  "**".toList ++ m.1 ++ "**: ".toList ++ m.2 ++ ['\n']

/-- The macros of a group. -/
def macroList (commandPrefix : Text) (macros : List (Text × Text)) : Text :=
  match macros with
  | [] =>
    "No macros found. Create some with the ".toList ++ commandPrefix ++
      "make-macro command.".toList
  | ms => "Macros found: \n".toList ++ ms.flatMap macroLine

end DiceBot.Reply

namespace DiceBot

/-- The message for an answer. -/
def reply (commandPrefix : Text) (l : Limits) : Answer → Text
  | .help => Reply.help commandPrefix l
  | .rolled expression (.ok o) => Reply.rolled expression o
  | .rolled expression (.error e) => Reply.notRolled expression e
  | .created name expression =>
    "Macro ".toList ++ Reply.named name ++ " created!\nMacro expression: ".toList ++ expression
  | .nameTaken name =>
    "A macro with the name ".toList ++ Reply.named name ++ " already exists.".toList
  | .templateRefused e => "Invalid macro expression: ".toList ++ e.message
  | .nameRefused _ =>
    "Macro names must be between 1 and ".toList ++ Text.ofNat maxNameLength ++
      " characters long.".toList
  | .unknownName name =>
    "No macro with the name ".toList ++ Reply.named name ++ " was found.".toList
  | .listed macros => Reply.macroList commandPrefix macros
  | .viewed name expression =>
    "Macro ".toList ++ Reply.named name ++ " found: ".toList ++ expression
  | .deleted name => "Macro ".toList ++ Reply.named name ++ " was deleted.".toList
  | .updated name expression =>
    "Macro ".toList ++ Reply.named name ++ " was updated: ".toList ++ expression
  | .accessDenied => "Your server does not have access to use the bot.".toList
  | .accessUnknown =>
    "Error loading list of allowed servers. Please contact bot admin for support.".toList
  | .failure => "Something went wrong. Please try again later.".toList

end DiceBot
