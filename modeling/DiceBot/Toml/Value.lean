import DiceBot.Decimal.Binary64
import DiceBot.Text.Order
import DiceBot.Toml.Datetime

/-! # TOML values

The values of a configuration file. The entries of a table are kept in the order of their keys, each
key once; `Toml.insert` and `Toml.lookup` are the operations on such entries. -/

namespace DiceBot

/-- A TOML value. -/
inductive Toml where
  | string (value : Text)
  | integer (value : Int)
  | float (value : Binary64)
  | boolean (value : Bool)
  | datetime (value : Datetime)
  | array (items : List Toml)
  | table (entries : List (Text × Toml))
deriving Repr

namespace Toml

/-- The entries of a table. -/
abbrev Entries := List (Text × Toml)

/-- Puts a value under a key, in place of the value that was there. -/
def insert {α : Type} (key : Text) (value : α) : List (Text × α) → List (Text × α)
  | [] => [(key, value)]
  | (k, v) :: rest =>
    if k = key then (key, value) :: rest
    else if Text.isBefore key k then (key, value) :: (k, v) :: rest
    else (k, v) :: insert key value rest

/-- The value under a key. -/
def lookup? {α : Type} (key : Text) : List (Text × α) → Option α
  | [] => none
  | (k, v) :: rest => if k = key then some v else lookup? key rest

/-- The integer that a value is. -/
def integer? : Toml → Option Int
  | .integer n => some n
  | _ => none

/-- The string that a value is. -/
def string? : Toml → Option Text
  | .string s => some s
  | _ => none

/-- Whether the value is a table. -/
def isTable : Toml → Bool
  | .table _ => true
  | _ => false

/-- Whether the value is an array that holds a table. -/
def isTableArray : Toml → Bool
  | .array items => items.any isTable
  | _ => false

end Toml

end DiceBot
