import DiceBot.Store.Macro
import DiceBot.Text.Order

/-! # The table of macros

The rows of the database in the order they were created. A row is addressed by its group and name,
and no two rows share both. Ids count from 1 and are never used again, so they may come to an end; a
macro is then refused. An answer has room for the low half of an id only. -/

namespace DiceBot

/-- A row of the table. -/
structure Row where
  id : Nat
  group : Text
  name : Text
  expression : Text
deriving Repr, DecidableEq

namespace Row

/-- Whether a row is the one of this group and name. -/
def isAt (group name : Text) (r : Row) : Bool := r.group = group && r.name = name

/-- The row as it is answered, with the low 32 bits of its id. -/
def toMacro (r : Row) : Macro := ⟨Int32.ofNat r.id, r.group, r.name, r.expression⟩

end Row

/-- The greatest id that a database gives to a row: ids are integers of 64 bits. -/
def maxRowId : Nat := 0x7fffffffffffffff

/-- The rows and the id that the next one gets. -/
structure MacroTable where
  rows : List Row
  nextId : Nat
  /-- The greatest id that a row can have, if ids come to an end. -/
  maxId : Option Nat
deriving Repr, DecidableEq

namespace MacroTable

/-- A table without rows, with ids up to `maxId`. -/
def empty (maxId : Option Nat) : MacroTable := ⟨[], 1, maxId⟩

/-- Whether there is an id for one more row. -/
def hasId (t : MacroTable) : Bool := t.maxId.all fun n => t.nextId ≤ n

/-- The row of this group and name. -/
def find? (t : MacroTable) (group name : Text) : Option Row := t.rows.find? (Row.isAt group name)

/-- The table with one more row, which gets the next id. -/
def add (t : MacroTable) (group name expression : Text) : MacroTable :=
  { t with rows := t.rows ++ [⟨t.nextId, group, name, expression⟩], nextId := t.nextId + 1 }

/-- Adds a row, unless the group has a macro of that name. Without an id for it the row is refused. -/
def create (t : MacroTable) (group name expression : Text) : Except ServiceError Bool × MacroTable :=
  if (t.find? group name).isSome then (.ok false, t)
  else if t.hasId then (.ok true, t.add group name expression)
  else (.error .database, t)

/-- Gives a macro another expression. -/
def update (t : MacroTable) (group name expression : Text) : Bool × MacroTable :=
  (t.rows.any (Row.isAt group name),
    { t with rows := t.rows.map fun r => if r.isAt group name then { r with expression } else r })

/-- Removes a macro. -/
def delete (t : MacroTable) (group name : Text) : Bool × MacroTable :=
  (t.rows.any (Row.isAt group name),
    { t with rows := t.rows.filter fun r => !r.isAt group name })

/-- The rows of a group in the order of the code points of their names. -/
def list (t : MacroTable) (group : Text) : List Row :=
  (t.rows.filter fun r => r.group = group).mergeSort fun a b => !Text.isBefore b.name a.name

end MacroTable

end DiceBot
