import DiceBot.Decimal.Shortest
import DiceBot.Toml.Value

/-! # Writing documents

The entries of the document are written in the order of their keys, each value on a line of its own; a
table gets a section with a header, and so does every table in an array. Within a table, plain values
come before arrays of tables and these before tables. The document itself is not put into that order: a
plain value that would have to follow a section cannot be written, and then nothing is.

A section is separated by an empty line from what its parent has written so far. The header of a table
with nothing but tables in it is left out; only that of an array element is always there, in front of
the first section below it. -/

namespace DiceBot.Toml

/-! ### Values on a line -/

/-- A hexadecimal number of four digits, in capitals. -/
def fourHexDigits (n : Nat) : Text :=
  let ds := (Nat.toDigits 16 n).map Char.toUpper
  List.replicate (4 - ds.length) '0' ++ ds

/-- One character of a string. -/
def escapeChar (c : Char) : Text :=
  match c with
  | '\x08' => ['\\', 'b']
  | '\t' => ['\\', 't']
  | '\n' => ['\\', 'n']
  | '\x0c' => ['\\', 'f']
  | '\r' => ['\\', 'r']
  | '"' => ['\\', '"']
  | '\\' => ['\\', '\\']
  | c => if c.toNat < 0x20 ∨ c.toNat = 0x7f then '\\' :: 'u' :: fourHexDigits c.toNat else [c]

/-- A string between double quotes. -/
def stringText (s : Text) : Text := '"' :: s.flatMap escapeChar ++ ['"']

/-- A character of a key that needs no quotes: an ASCII letter, a digit, a minus sign or an
underscore. -/
def isBareKeyChar (c : Char) : Bool := c.isAlphanum || c = '-' || c = '_'

/-- A key, between quotes if it needs them. -/
def keyText (k : Text) : Text :=
  if k ≠ [] ∧ k.all isBareKeyChar then k else stringText k

/-- The path of a section. -/
def pathText (path : List Text) : Text := Text.join ['.'] (path.map keyText)

/-- A floating-point number, with a decimal point in any case. -/
def floatText (x : Binary64) : Text :=
  let sign := if x.isNegative then ['-'] else []
  if x.isNaN then sign ++ "nan".toList
  else if x.isInfinite then sign ++ "inf".toList
  else if x.isZero then sign ++ "0.0".toList
  else
    let d := x.shortest
    sign ++ d.positional ++ if d.isWhole then ".0".toList else []

/-- A value that holds no other values; nothing for an array or a table. -/
def scalarText : Toml → Text
  | .string s => stringText s
  | .integer n => Text.ofInt n
  | .float x => floatText x
  | .boolean b => if b then "true".toList else "false".toList
  | .datetime d => d.display
  | .array _ | .table _ => []

/-! ### Sections -/

/-- Where a table is written. -/
structure Place where
  path : List Text
  /-- The header of the table, with the empty line before it if there is one. -/
  header : Text
  /-- What comes before the first section below the table, if that is the first thing in it. -/
  lead : Text

/-- The place of the whole document, which has no header. -/
def topPlace : Place := ⟨[], [], []⟩

/-- The header of a table. -/
def tableHeader (path : List Text) : Text := '[' :: pathText path ++ "]\n".toList

/-- The header of an element of an array of tables. -/
def elementHeader (path : List Text) : Text := "[[".toList ++ pathText path ++ "]]\n".toList

/-- What separates a section below the table from what the table has written. -/
def Place.separator (p : Place) (started : Bool) : Text := if started then ['\n'] else p.lead

/-- The place of a table under a key. -/
def Place.table (p : Place) (started : Bool) (key : Text) : Place :=
  let path := p.path ++ [key]
  ⟨path, p.separator started ++ tableHeader path, if started then [] else p.lead⟩

/-- The place of an element of the array under a key. Only the elements of an array that is itself the
value of the key announce themselves before the sections below them. -/
def Place.element (p : Place) (started : Bool) (key : Text) (direct isFirst : Bool) : Place :=
  let path := p.path ++ [key]
  let separator := if !isFirst then ['\n'] else if direct then p.separator started else []
  let header := separator ++ elementHeader path
  ⟨path, header, if direct then header else []⟩

mutual

/-- Whether a table stands anywhere in the value. -/
def holdsTable : Toml → Bool
  | .table _ => true
  | .array items => anyHoldsTable items
  | _ => false

/-- Whether a table stands anywhere in the values. -/
def anyHoldsTable : List Toml → Bool
  | [] => false
  | v :: vs => holdsTable v || anyHoldsTable vs

end

/-- The order of the entries of a table: values, arrays of tables, tables. -/
def writingOrder (es : Entries) : Entries :=
  es.filter (fun e => !e.2.isTable && !e.2.isTableArray) ++ es.filter (fun e => e.2.isTableArray) ++
    es.filter (fun e => e.2.isTable)

/-- The bracket that closes an array, unless it began with a table. -/
def closing : List Toml → Text
  | .table _ :: _ => []
  | _ => [']']

/-- The end of the line of an array, unless it began with a table. -/
def lineEnd : List Toml → Text
  | .table _ :: _ => []
  | _ => ['\n']

/-- What opens the line of an entry: the header of the table if nothing is written yet, and the key. No
line can follow a section of the same table. -/
def opening? (p : Place) (started sectioned : Bool) (key : Text) : Option Text :=
  if sectioned then none
  else some ((if started then [] else p.header) ++ keyText key ++ " = ".toList)

/-- What comes before an item that is no table: the start of the array before the first item, a comma
before the others. -/
def itemLead? (before : Option Text) (isFirst : Bool) : Option Text :=
  if isFirst then before.map (· ++ ['[']) else some ", ".toList

mutual

/-- The entries of a table. `started` says whether the table has written anything, `sectioned` whether
that holds a section. The number bounds the depth of the recursion. -/
def writeEntries : Nat → Place → (started sectioned : Bool) → Entries → Option Text
  | 0, _, _, _, _ => none
  | _ + 1, p, started, _, [] => some (if started then [] else p.header)
  | n + 1, p, started, sectioned, (key, v) :: rest => do
    let text ← writeEntry n p started sectioned key v
    let others ← writeEntries n p true (sectioned || holdsTable v) rest
    return text ++ others

/-- One entry of a table. -/
def writeEntry : Nat → Place → (started sectioned : Bool) → (key : Text) → Toml → Option Text
  | 0, _, _, _, _, _ => none
  | n + 1, p, started, _, key, .table es =>
    writeEntries n (p.table started key) false false (writingOrder es)
  | n + 1, p, started, sectioned, key, .array items => do
    let text ← writeItems n p started key true (opening? p started sectioned key) true items
    return text ++ lineEnd items
  | _ + 1, p, started, sectioned, key, v => do
    return (← opening? p started sectioned key) ++ scalarText v ++ ['\n']

/-- The items of an array and its closing bracket. `direct` says whether the array is itself the value
of the key, `before` is what precedes its opening bracket. -/
def writeItems : Nat → Place → (started : Bool) → (key : Text) → (direct : Bool) →
    (before : Option Text) → (isFirst : Bool) → List Toml → Option Text
  | 0, _, _, _, _, _, _, _ => none
  | _ + 1, _, _, _, _, before, true, [] => before.map (· ++ "[]".toList)
  | _ + 1, _, _, _, _, _, false, [] => some []
  | n + 1, p, started, key, direct, before, isFirst, v :: rest => do
    let text ← writeItem n p started key direct before isFirst v
    let others ← writeItems n p started key direct before false rest
    return text ++ others ++ if isFirst then closing (v :: rest) else []

/-- One item of an array. -/
def writeItem : Nat → Place → (started : Bool) → (key : Text) → (direct : Bool) →
    (before : Option Text) → (isFirst : Bool) → Toml → Option Text
  | 0, _, _, _, _, _, _, _ => none
  | n + 1, p, started, key, direct, _, isFirst, .table es =>
    writeEntries n (p.element started key direct isFirst) false false (writingOrder es)
  | n + 1, p, started, key, _, before, isFirst, .array items =>
    writeItems n p started key false (itemLead? before isFirst) true items
  | _ + 1, _, _, _, _, before, isFirst, v => (itemLead? before isFirst).map (· ++ scalarText v)

end

mutual

/-- A number of steps that is enough to write a value. -/
def writingSteps : Toml → Nat
  | .table es => entriesSteps es + 2
  | .array items => itemsSteps items + 2
  | _ => 2

/-- A number of steps that is enough to write entries. -/
def entriesSteps : List (Text × Toml) → Nat
  | [] => 1
  | (_, v) :: rest => writingSteps v + entriesSteps rest + 1

/-- A number of steps that is enough to write the items of an array. -/
def itemsSteps : List Toml → Nat
  | [] => 1
  | v :: rest => writingSteps v + itemsSteps rest + 1

end

/-- The text of a document, if it can be written. -/
def documentText? (es : Entries) : Option Text :=
  writeEntries (entriesSteps es) topPlace false false es

end DiceBot.Toml
