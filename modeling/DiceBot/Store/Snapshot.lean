import DiceBot.Store.Table
import DiceBot.Toml.Document
import DiceBot.Toml.Writer

/-! # Snapshots of the table of macros

A table of macros is kept in a file as a TOML document: the greatest id that was given so far, and the
rows in the order they were created. -/

namespace DiceBot.MacroTable

/-- The id that was given last. -/
def lastIdKey : Text := "last_id".toList

/-- The rows. -/
def rowsKey : Text := "macros".toList

/-- A row as a TOML table. -/
def rowEntries (r : Row) : Toml.Entries :=
  [("expression".toList, .string r.expression), ("group".toList, .string r.group),
    ("id".toList, .integer r.id), ("name".toList, .string r.name)]

/-- A table as the entries of a document. -/
def toEntries (t : MacroTable) : Toml.Entries :=
  [(lastIdKey, .integer (t.nextId - 1 : Nat)),
    (rowsKey, .array (t.rows.map fun r => .table (rowEntries r)))]

/-- A natural number under a key. -/
def natUnder? (key : Text) (es : Toml.Entries) : Option Nat :=
  ((Toml.lookup? key es).bind Toml.integer?).bind Int.toNat?

/-- A string under a key. -/
def textUnder? (key : String) (es : Toml.Entries) : Option Text :=
  (Toml.lookup? key.toList es).bind Toml.string?

/-- A row from a TOML table. -/
def rowOf? : Toml → Option Row
  | .table es => do
    return ⟨← natUnder? "id".toList es, ← textUnder? "group" es, ← textUnder? "name" es,
      ← textUnder? "expression" es⟩
  | _ => none

/-- A table from the entries of a document. -/
def ofEntries? (es : Toml.Entries) : Option MacroTable := do
  let lastId ← natUnder? lastIdKey es
  match ← Toml.lookup? rowsKey es with
  | .array items => return ⟨← items.mapM rowOf?, lastId + 1, some maxRowId⟩
  | _ => none

/-- The bytes of the file for a table. -/
def toBytes? (t : MacroTable) : Option (List UInt8) :=
  (Toml.documentText? t.toEntries).map Text.toUtf8

/-- The table in the bytes of a file; an empty file holds an empty table. -/
def ofBytes? (content : List UInt8) : Option MacroTable :=
  if content = [] then some (.empty (some maxRowId)) else (Toml.ofBytes? content).bind ofEntries?

end DiceBot.MacroTable
