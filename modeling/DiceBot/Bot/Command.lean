import DiceBot.Text.Blank
import DiceBot.Text.NameChar

/-! # Commands

A message is a command if it starts with the prefix of the bot. Then comes one of eight command words,
in capitals or small letters, and what the command needs; a message with the prefix that is none of
these asks for help. Gaps around the parts of a command do not matter. -/

namespace DiceBot

/-- What a user can ask of the bot. -/
inductive Command where
  | help
  | roll (expression : Text)
  | make (name expression : Text)
  | edit (name expression : Text)
  | rollMacro (name : Text) (inputs : List Text)
  | list
  | view (name : Text)
  | delete (name : Text)
deriving Repr, DecidableEq

namespace Command

/-! ### The parts of a command -/

/-- What follows the command word `word`, if the text starts with it. -/
def afterWord? (word : String) (s : Text) : Option Text := Text.dropLeadAnyCase? word.toList s

/-- What follows the command word and the gap behind it. -/
def operands? (word : String) (s : Text) : Option Text := (afterWord? word s).bind Text.needGap?

/-- The longest name that the text begins with. -/
def nameOf (s : Text) : Text := s.takeWhile Text.isNameChar

/-- What follows the longest name that the text begins with. -/
def afterName (s : Text) : Text := s.dropWhile Text.isNameChar

/-- A name of at least one character, and what follows it. -/
def readName (s : Text) : Option (Text × Text) :=
  if nameOf s = [] then none else some (nameOf s, afterName s)

/-- An expression: all of the text without the blanks around it, which must leave something. -/
def readExpression (s : Text) : Option Text :=
  if Text.trim s = [] then none else some (Text.trim s)

/-- A name, a gap and an expression. -/
def readNamedExpression (s : Text) : Option (Text × Text) := do
  let (name, s) ← readName s
  let expression ← readExpression (← Text.needGap? s)
  return (name, expression)

/-- A name with nothing but a gap behind it. -/
def readLoneName (s : Text) : Option Text := do
  let (name, s) ← readName s
  if Text.skipGap s = [] then some name else none

/-! ### The commands -/

/-- The command word `roll` and an expression. -/
def readRoll (s : Text) : Option Command :=
  ((operands? "roll" s).bind readExpression).map roll

/-- The command word `make-macro`, a name and an expression. -/
def readMake (s : Text) : Option Command :=
  ((operands? "make-macro" s).bind readNamedExpression).map fun (name, e) => make name e

/-- The command word `edit-macro`, a name and an expression. -/
def readEdit (s : Text) : Option Command :=
  ((operands? "edit-macro" s).bind readNamedExpression).map fun (name, e) => edit name e

/-- The command word `roll-macro`, a name and the inputs behind it, one to a word. -/
def readRollMacro (s : Text) : Option Command :=
  ((operands? "roll-macro" s).bind readName).map fun (name, s) => rollMacro name (Text.words s)

/-- The command word `list-macros` alone. -/
def readList (s : Text) : Option Command :=
  (afterWord? "list-macros" s).bind fun s => if Text.skipGap s = [] then some list else none

/-- The command word `view-macro` and a name. -/
def readView (s : Text) : Option Command :=
  ((operands? "view-macro" s).bind readLoneName).map view

/-- The command word `delete-macro` and a name. -/
def readDelete (s : Text) : Option Command :=
  ((operands? "delete-macro" s).bind readLoneName).map delete

/-- The command that a text behind the prefix gives. Each begins with another word, so at most one
reader answers. -/
def ofBody (s : Text) : Command :=
  (readMake s <|> readEdit s <|> readRollMacro s <|> readList s <|> readView s <|> readDelete s <|>
    readRoll s).getD help

/-- What follows the prefix of the bot in a message, without the gap before it. -/
def body? (commandPrefix message : Text) : Option Text :=
  (Text.dropLead? commandPrefix (Text.skipGap message)).map Text.skipGap

/-- The command that a message gives, if it has the prefix of the bot. -/
def parse (commandPrefix message : Text) : Option Command := (body? commandPrefix message).map ofBody

end Command

end DiceBot
