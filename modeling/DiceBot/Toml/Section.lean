import DiceBot.Toml.Scalar

/-! # Sections

A TOML document is a list of sections: first the entries without a header, then a section for every
header. A header names a table, `[a.b]`, or one more element of an array of tables, `[[a.b]]`. A key may
be dotted: `a.b = 1` is an entry of the table that the dotted keys beginning with `a` make up. -/

namespace DiceBot.Toml

/-- A value as it is written, before its keys are looked at. A table between braces and the table of
dotted keys with the same beginning are told apart, for only the second takes further dotted keys. -/
inductive Draft where
  | value (value : Toml)
  | array (items : List Draft)
  | inline (entries : List (Text × Draft))
  | dotted (entries : List (Text × Draft))

/-- A section: the path of its header, whether the header adds an element to an array, and the entries
in the order they are written. -/
structure Section where
  path : List Text
  isElement : Bool
  entries : List (Text × Draft)

/-! ### Entries -/

/-- The table for the keys `k`, …, that is to hold a value. -/
def dottedDraft : List Text → Draft → Draft
  | [], d => d
  | k :: ks, d => .dotted [(k, dottedDraft ks d)]

/-- Replaces the first entry of a key. -/
def replaceFirst (key : Text) (d : Draft) : List (Text × Draft) → List (Text × Draft)
  | [] => []
  | (k, x) :: rest => if k = key then (k, d) :: rest else (k, x) :: replaceFirst key d rest

/-- Adds an entry with a dotted key. The first entry of the key's beginning must be a table of dotted
keys, if there is one; an entry with a plain key is added in any case. -/
def addEntry : (key : List Text) → Draft → List (Text × Draft) → Option (List (Text × Draft))
  | [], _, es => some es
  | [k], d, es => some (es ++ [(k, d)])
  | k :: ks, d, es =>
    match lookup? k es with
    | some (.dotted inner) => (addEntry ks d inner).map fun inner => replaceFirst k (.dotted inner) es
    | some _ => none
    | none => some (es ++ [(k, dottedDraft ks d)])

/-! ### Dates and times as tables -/

/-- A table below the top level that begins with this key stands for a date and time, which the key's
string spells. Its other entries do not count. -/
def dateKey : Text := "$__toml_private_datetime".toList

/-- Whether entries stand for a date and time. -/
def spellsDate (es : List (Text × Draft)) : Bool := es.head?.map Prod.fst = some dateKey

/-- The date and time that a string spells. -/
def Draft.date? : Draft → Option Toml
  | .value (.string s) => (Datetime.ofText? s).map .datetime
  | _ => none

/-- The date and time that the first of the entries spells. -/
def spelledDate? (es : List (Text × Draft)) : Option Toml := es.head?.bind fun e => e.2.date?

/-! ### Values -/

mutual

/-- The value of a draft. In a table no key may be there twice. -/
def Draft.finish : Draft → Option Toml
  | .value v => some v
  | .array items => (finishItems items).map Toml.array
  | .inline es => if spellsDate es then spelledDate? es else (finishEntries es).map Toml.table
  | .dotted es => if spellsDate es then spelledDate? es else (finishEntries es).map Toml.table

/-- The values of the items of an array. -/
def finishItems : List Draft → Option (List Toml)
  | [] => some []
  | d :: rest =>
    match Draft.finish d, finishItems rest with
    | some v, some vs => some (v :: vs)
    | _, _ => none

/-- The values of drafts, in the order of their keys. -/
def finishEntries : List (Text × Draft) → Option Entries
  | [] => some []
  | (k, d) :: rest =>
    match Draft.finish d, finishEntries rest with
    | some v, some es => if (lookup? k es).isSome then none else some (insert k v es)
    | _, _ => none

end

/-! ### Keys -/

/-- A plain word or a string on one line. -/
def readKey (s : Text) : Option (Text × Text) :=
  match readString s with
  | some ((k, false), s) => some (k, s)
  | some ((_, true), _) => none
  | none => readWord s

/-- A key with its parts. The number bounds the length of the text. -/
def readDottedKey : Nat → Text → Option (List Text × Text)
  | 0, _ => none
  | n + 1, s => do
    let (k, s) ← readKey s
    match skipSpaces s with
    | '.' :: s =>
      let (ks, s) ← readDottedKey n (skipSpaces s)
      return (k :: ks, s)
    | s => return ([k], s)

/-! ### Reading values -/

/-- The text after the characters of a comment, which ends before the first control character. -/
def skipComment (s : Text) : Text := s.dropWhile fun c => c = '\t' || 0x20 ≤ c.toNat

/-- The text after the line feed at its front, which may be missing at the end of the text. -/
def endLine? : Text → Option Text
  | [] => some []
  | '\n' :: s => some s
  | _ => none

/-- The text after spaces, a comment and the end of the line. -/
def finishLine? (s : Text) : Option Text :=
  match skipSpaces s with
  | '#' :: s => endLine? (skipComment s)
  | s => endLine? s

/-- The text after spaces, comments and line feeds, which may stand between the items of an array. -/
def skipFiller : Nat → Text → Option Text
  | 0, _ => none
  | n + 1, s =>
    match skipSpaces s with
    | '\n' :: s => skipFiller n s
    | '#' :: s => do skipFiller n (← endLine? (skipComment s))
    | s => some s

mutual

/-- A value. The number bounds the depth of the recursion. -/
def readValue : Nat → Text → Option (Draft × Text)
  | 0, _ => none
  | n + 1, s =>
    match s with
    | '[' :: s => (readItems n s).map fun (items, s) => (.array items, s)
    | '\x7b' :: s => (readInline n (skipSpaces s)).map fun (es, s) => (.inline es, s)
    | s => (readScalar s).map fun (v, s) => (.value v, s)

/-- The items of an array up to its closing bracket; a comma may stand behind the last. -/
def readItems : Nat → Text → Option (List Draft × Text)
  | 0, _ => none
  | n + 1, s => do
    match ← skipFiller (s.length + 1) s with
    | ']' :: s => return ([], s)
    | s =>
      let (d, s) ← readValue n s
      match ← skipFiller (s.length + 1) s with
      | ',' :: s =>
        let (ds, s) ← readItems n s
        return (d :: ds, s)
      | ']' :: s => return ([d], s)
      | _ => none

/-- The entries of an inline table up to its closing brace. -/
def readInline : Nat → Text → Option (List (Text × Draft) × Text)
  | 0, _ => none
  | n + 1, s =>
    match s with
    | '\x7d' :: s => some ([], s)
    | s => readInlineEntries n [] s

/-- The entries of an inline table, at least one, after those already read. -/
def readInlineEntries :
    Nat → List (Text × Draft) → Text → Option (List (Text × Draft) × Text)
  | 0, _, _ => none
  | n + 1, es, s => do
    let (key, s) ← readDottedKey (s.length + 1) s
    match s with
    | '=' :: s =>
      let (d, s) ← readValue n (skipSpaces s)
      let es ← addEntry key d es
      match skipSpaces s with
      | '\x7d' :: s => return (es, s)
      | ',' :: s => readInlineEntries n es (skipSpaces s)
      | _ => none
    | _ => none

end

/-! ### Lines -/

/-- A header up to the end of its line, from behind its opening brackets on: its path. -/
def readHeader (isElement : Bool) (s : Text) : Option (List Text × Text) := do
  let (path, s) ← readDottedKey (s.length + 1) (skipSpaces s)
  let s ← Text.dropLead? (if isElement then [']', ']'] else [']']) s
  return (path, ← finishLine? s)

/-- An entry up to the end of its line: the parts of its key and the value. -/
def readEntry (s : Text) : Option ((List Text × Draft) × Text) := do
  let (key, s) ← readDottedKey (s.length + 1) s
  match s with
  | '=' :: s =>
    let (d, s) ← readValue (2 * s.length + 2) (skipSpaces s)
    return ((key, d), ← finishLine? s)
  | _ => none

/-- The sections of a text whose first lines belong to the section `current`. The number bounds the
length of the text. -/
def readSections : Nat → (current : Section) → Text → Option (List Section)
  | 0, _, _ => none
  | n + 1, current, s =>
    match skipSpaces s with
    | [] => some [current]
    | '\n' :: s => readSections n current s
    | '#' :: s => do readSections n current (← endLine? (skipComment s))
    | '[' :: '[' :: s => do
      let (path, s) ← readHeader true s
      return current :: (← readSections n ⟨path, true, []⟩ s)
    | '[' :: s => do
      let (path, s) ← readHeader false s
      return current :: (← readSections n ⟨path, false, []⟩ s)
    | s => do
      let ((key, d), s) ← readEntry s
      readSections n { current with entries := ← addEntry key d current.entries } s

/-- The text with a line feed in place of each carriage return and line feed. -/
def foldLines : Text → Text
  | '\r' :: '\n' :: s => '\n' :: foldLines s
  | c :: s => c :: foldLines s
  | [] => []

/-- The text without a byte order mark at its front. -/
def dropMark : Text → Text
  | '\ufeff' :: s => s
  | s => s

/-- The sections of a document, the first of which has no header. -/
def sections? (s : Text) : Option (List Section) :=
  let s := foldLines (dropMark s)
  readSections (s.length + 1) ⟨[], false, []⟩ s

end DiceBot.Toml
