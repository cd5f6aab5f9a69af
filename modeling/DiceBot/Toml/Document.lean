import DiceBot.Toml.Section
import DiceBot.Text.Utf8

/-! # Documents

The table that the sections of a document make up. The sections are put in one after another. A header
may go through tables that have no section of their own yet and through the last element of an array of
tables, but it cannot name a table a second time or reach into a value. At the top level alone a later
entry replaces an earlier one of the same key. A table whose first key is `dateKey` is a date and time,
and so a value. -/

namespace DiceBot.Toml

/-- A part of the document: a finished value, a table made by headers, or an array of such tables, the
last element in front. -/
inductive Node where
  | plain (value : Toml)
  | table (named : Bool) (entries : List (Text × Node))
  | elements (last : Node) (earlier : List Node)

/-! ### Sections -/

/-- The entries of a section by themselves. -/
def plainNodes (es : Entries) : List (Text × Node) := es.map fun (k, v) => (k, .plain v)

/-- The table of a section that begins it. -/
def sectionNode? (body : List (Text × Draft)) : Option Node :=
  if spellsDate body then (spelledDate? body).map .plain
  else (finishEntries body).map fun es => .table true (plainNodes es)

/-- Adds entries of a section; no key may be there already. -/
def addPlain : (new : Entries) → List (Text × Node) → Option (List (Text × Node))
  | [], es => some es
  | (k, v) :: rest, es =>
    if (lookup? k es).isSome then none else addPlain rest (insert k (.plain v) es)

/-- Adds the section of a header to what is under the last part of its path. -/
def addSection (isElement : Bool) (body : List (Text × Draft)) : Option Node → Option Node
  | none =>
    if isElement then (sectionNode? body).map fun node => .elements node [] else sectionNode? body
  | some (.table false es) =>
    if isElement then none
    else (finishEntries body).bind fun new => (addPlain new es).map (Node.table true)
  | some (.elements last earlier) =>
    if isElement then (sectionNode? body).map fun node => .elements node (last :: earlier) else none
  | some _ => none

/-- Puts a section into the part of the document that the path leads from. The key for dates and times
cannot be the first of a table then, for it would have a table and not a string. -/
def insertAt (isElement : Bool) (body : List (Text × Draft)) :
    (path : List Text) → Option Node → Option Node
  | [], node => addSection isElement body node
  | k :: ks, none =>
    if k = dateKey then none
    else (insertAt isElement body ks none).map fun node => .table false [(k, node)]
  | k :: ks, some (.table named es) =>
    if es.isEmpty && k = dateKey then none
    else (insertAt isElement body ks (lookup? k es)).map fun node => .table named (insert k node es)
  | k :: ks, some (.elements (.table named es) earlier) =>
    if es.isEmpty && k = dateKey then none
    else (insertAt isElement body ks (lookup? k es)).map fun node =>
      .elements (.table named (insert k node es)) earlier
  | _ :: _, some _ => none

/-- Whether a section takes the place of what is under the first key of its path: of a value, or of an
array of tables of which the last is a date and time, if the section is not the next of them. -/
def replaces (s : Section) : Option Node → Bool
  | some (.plain _) => true
  | some (.elements (.plain _) _) => !s.isElement || 1 < s.path.length
  | _ => false

/-- The header that no later one may take the place of: the first with a single key, in a document that
has no entries of its own. -/
def fixedPath? (top : Section) (rest : List Section) : Option (List Text) :=
  if top.entries.isEmpty then (rest.find? fun s => s.path.length = 1).map Section.path else none

/-- Puts a section into the whole document. -/
def addTopSection (fixed : Option (List Text)) (es : List (Text × Node)) (s : Section) :
    Option (List (Text × Node)) :=
  match s.path with
  | [] => none
  | k :: ks =>
    let old := lookup? k es
    if replaces s old && fixed = some s.path then none
    else (insertAt s.isElement s.entries ks (if replaces s old then none else old)).map fun node =>
      insert k node es

/-! ### Values -/

/-- The entries at the top of a document, a later one in place of an earlier one. -/
def topEntries : List (Text × Draft) → Entries → Option Entries
  | [], es => some es
  | (k, d) :: rest, es =>
    match d.finish with
    | some v => topEntries rest (insert k v es)
    | none => none

mutual

/-- The value of a part of the document. -/
def Node.value : Node → Toml
  | .plain v => v
  | .table _ es => .table (nodeValues es)
  | .elements last earlier => .array (elementValues earlier ++ [Node.value last])

/-- The values of entries. -/
def nodeValues : List (Text × Node) → Entries
  | [] => []
  | (k, node) :: rest => (k, Node.value node) :: nodeValues rest

/-- The elements of an array, of which the last comes first. -/
def elementValues : List Node → List Toml
  | [] => []
  | node :: rest => elementValues rest ++ [Node.value node]

end

/-- The table that sections make up. -/
def ofSections? : List Section → Option Entries
  | [] => some []
  | top :: rest => do
    let es ← topEntries top.entries []
    let nodes ← rest.foldlM (addTopSection (fixedPath? top rest)) (plainNodes es)
    return nodeValues nodes

/-- The table that a text holds. -/
def ofText? (s : Text) : Option Entries := (sections? s).bind ofSections?

/-- The table that the bytes of a file hold. -/
def ofBytes? (content : List UInt8) : Option Entries := (Text.ofUtf8? content).bind ofText?

end DiceBot.Toml
