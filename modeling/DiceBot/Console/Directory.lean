import DiceBot.Text.Basic

/-! # The directory of a run

The console reads and writes files by their paths. Here they are in a directory without directories in
it, so that a path leads to a file only if it is the file's name with nothing before it but steps on the
spot. Paths and names are bytes. -/

namespace DiceBot

/-- The files of a directory: names and contents. -/
structure Directory where
  files : List (List UInt8 × List UInt8)
deriving Repr, DecidableEq

namespace Directory

/-! ### Paths -/

/-- What divides the parts of a path. -/
abbrev slash : UInt8 := 0x2f

/-- The part of a path that stays where it is. -/
abbrev here : List UInt8 := [0x2e]

/-- The part of a path that leads out of a directory. -/
abbrev parent : List UInt8 := [0x2e, 0x2e]

/-- The greatest length of a name. -/
def maxName : Nat := 255

/-- The greatest length of a path. -/
def maxPath : Nat := 4095

/-- Whether a part of a path can be the name of a file. -/
def isName (part : List UInt8) : Bool :=
  part ≠ [] && part ≠ here && part ≠ parent && !part.contains 0 && part.length ≤ maxName

/-- Whether the parts before the last leave a path where it started. An empty part stays where it is,
but a path that begins with one starts somewhere else. -/
def staysHere (parts : List (List UInt8)) : Bool :=
  parts.head? ≠ some [] && parts.all fun part => part = [] || part = here

/-- The name of the file in the directory that a path leads to. -/
def localName? (path : List UInt8) : Option (List UInt8) :=
  let parts := Text.pieces slash path
  let name := parts.getLastD []
  if staysHere parts.dropLast && isName name && path.length ≤ maxPath then some name else none

/-! ### Files -/

/-- The content of the file with a name. -/
def content? (d : Directory) (name : List UInt8) : Option (List UInt8) := d.files.lookup name

/-- The directory without the file of a name. -/
def erase (d : Directory) (name : List UInt8) : Directory := ⟨d.files.filter fun f => f.1 ≠ name⟩

/-- The content of the file that a path leads to. -/
def read (d : Directory) (path : List UInt8) : Option (List UInt8) :=
  (localName? path).bind d.content?

/-- The directory with another content in a file. A path that leads nowhere is not written to. -/
def write (d : Directory) (path content : List UInt8) : Directory :=
  match localName? path with
  | some name => ⟨(name, content) :: (d.erase name).files⟩
  | none => d

/-- The directory without the file that a path leads to. -/
def remove (d : Directory) (path : List UInt8) : Directory :=
  match localName? path with
  | some name => d.erase name
  | none => d

end Directory

end DiceBot
