import DiceBot.Console.Address
import DiceBot.Console.Directory

/-! # The place of the database

The path of the database in the configuration is a path or an address. It may ask for a database that
is gone when the program ends, or for one in a file. The bot makes a table in the database at once, so
a database that can only be read does not open. A file opens if it is empty or can be made: the bot has
no other databases. Opening it clears away what an earlier program may have left beside it. -/

namespace DiceBot

/-- What may be done with a database, from the least to the most. A database in memory has no file. -/
inductive OpenMode where
  | readOnly
  | readWrite
  | create
  | memory
deriving Repr, DecidableEq

namespace OpenMode

/-- The place of a mode in their order. -/
def rank : OpenMode → Nat
  | .readOnly => 0
  | .readWrite => 1
  | .create => 2
  | .memory => 3

/-- The mode that an option asks for. -/
def ofValue? (value : List UInt8) : Option OpenMode :=
  if value = Text.toUtf8 "ro".toList then some .readOnly
  else if value = Text.toUtf8 "rw".toList then some .readWrite
  else if value = Text.toUtf8 "rwc".toList then some .create
  else if value = Text.toUtf8 "memory".toList then some .memory
  else none

/-- The mode after an option. The option can ask for memory or for no more than was allowed before it. -/
def apply (mode : OpenMode) (option : List UInt8 × List UInt8) : Option OpenMode :=
  if option.1 = Text.toUtf8 "mode".toList then
    (ofValue? option.2).bind fun asked =>
      if asked = .memory ∨ asked.rank ≤ mode.rank then some asked else none
  else if option.1 = Text.toUtf8 "cache".toList then
    if option.2 = Text.toUtf8 "shared".toList ∨ option.2 = Text.toUtf8 "private".toList then some mode
    else none
  else some mode

end OpenMode

/-- Where a database is that can be opened for writing. -/
inductive DatabasePlace where
  /-- Nowhere: it is gone when the program ends. -/
  | transient
  /-- In a file, which must be there or may be made. -/
  | file (path : List UInt8) (mayCreate : Bool)
deriving Repr, DecidableEq

namespace DatabasePlace

/-- The ways to reach files that an address may name. -/
def accessNames : List String := ["unix", "unix-none", "unix-dotfile", "unix-excl"]

/-- Whether the address names a known way to reach files, or none. -/
def accessKnown (a : Address) : Bool :=
  match a.last? "vfs" with
  | some value => accessNames.any fun name => value = Text.toUtf8 name.toList
  | none => true

/-- A text in small ASCII letters. -/
def lowered (value : List UInt8) : Text :=
  value.map fun b => (Char.ofNat b.toNat).toLower

/-- Whether a value switches an option on: a number that is not a multiple of 256, or a word. Numbers
are those of 32 bits. -/
def switchesOn (value : List UInt8) : Bool :=
  let s := lowered value
  let digits := s.takeWhile Char.isDigit
  if digits = [] then s = "on".toList || s = "yes".toList || s = "true".toList
  else Text.digitsValue digits ≤ 0x7fffffff && Text.digitsValue digits % 256 ≠ 0

/-- Whether the address says that nobody will write to the file. -/
def isImmutable (a : Address) : Bool := (a.first? "immutable").any switchesOn

/-- The place of a database with an address and a mode. -/
def ofAddress? (a : Address) (mode : OpenMode) : Option DatabasePlace :=
  if mode = .readOnly then none
  else if mode = .memory ∨ a.path = [] ∨ a.path = Text.toUtf8 ":memory:".toList then some .transient
  else if isImmutable a then none
  else some (.file a.path (mode = .create))

/-- The place that the path of a database leads to. -/
def ofText? (s : Text) : Option DatabasePlace := do
  let a ← Address.ofText? s
  let mode ← a.options.foldlM OpenMode.apply .create
  if accessKnown a then ofAddress? a mode else none

end DatabasePlace

namespace Directory

/-- What the names of the files end in that a database keeps beside its own. -/
def companionEnds : List String := ["-journal", "-wal"]

/-- The greatest length of the path of a database, which leaves room for that of the directory. -/
def maxDatabasePath : Nat := 480

/-- The name of the file for a database at a path. The names of the files beside it must fit, too. -/
def databaseName? (path : List UInt8) : Option (List UInt8) :=
  (localName? path).bind fun name =>
    if name.length + "-journal".length ≤ maxName ∧ path.length ≤ maxDatabasePath then some name
    else none

/-- The directory without the files beside a database. -/
def eraseCompanions (d : Directory) (name : List UInt8) : Directory :=
  companionEnds.foldl (fun d ending => d.erase (name ++ Text.toUtf8 ending.toList)) d

/-- Opens a database; answers whether it can be used, and the directory after that. -/
def openDatabase (d : Directory) : DatabasePlace → Bool × Directory
  | .transient => (true, d)
  | .file path mayCreate =>
    match databaseName? path with
    | some name =>
      if mayCreate || (d.content? name).isSome then
        (((d.content? name).getD []).isEmpty, d.eraseCompanions name)
      else (false, d)
    | none => (false, d)

end Directory

end DiceBot
