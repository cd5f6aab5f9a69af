import DiceBot.Text.Utf8

/-! # Addresses of files

A file can be named by its path or by an address: `file:`, a path and, behind a question mark, options
`name=value` with `&` between them. What follows a `#` does not count. In an address a percent sign and
two hexadecimal digits stand for a byte. -/

namespace DiceBot

/-- A path and the options of an address, of which a plain path has none. -/
structure Address where
  path : List UInt8
  options : List (List UInt8 × List UInt8)
deriving Repr, DecidableEq

namespace Address

/-- The bytes of a part of an address. The byte zero ends the part. -/
def decode : Text → List UInt8
  | '%' :: a :: b :: s =>
    match Text.hexValue? a, Text.hexValue? b with
    | some x, some y => if 16 * x + y = 0 then [] else UInt8.ofNat (16 * x + y) :: decode s
    | _, _ => 0x25 :: decode (a :: b :: s)
  | c :: s => String.utf8EncodeChar c ++ decode s
  | [] => []

/-- The part of a text before a mark. -/
def before (mark : Char) (s : Text) : Text := s.takeWhile (· ≠ mark)

/-- The part of a text behind a mark. -/
def behind (mark : Char) (s : Text) : Text := (s.dropWhile (· ≠ mark)).drop 1

/-- An option. One without a name does not count. -/
def option? (s : Text) : Option (List UInt8 × List UInt8) :=
  if decode (before '=' s) = [] then none
  else some (decode (before '=' s), decode (behind '=' s))

/-- What follows the host of an address. The host can be left out, and must be this computer. -/
def skipHost? (s : Text) : Option Text :=
  match Text.dropLead? "//".toList s with
  | some s =>
    if before '/' s = [] ∨ before '/' s = "localhost".toList then some (s.dropWhile (· ≠ '/'))
    else none
  | none => some s

/-- The address whose text follows `file:`. -/
def ofBody (s : Text) : Address :=
  let s := before '#' s
  ⟨decode (before '?' s), (Text.pieces '&' (behind '?' s)).filterMap option?⟩

/-- An address or a plain path, neither of which can hold a NUL. -/
def ofText? (s : Text) : Option Address :=
  if s.contains '\x00' then none
  else
    match Text.dropLead? "file:".toList s with
    | some body => (skipHost? body).map ofBody
    | none => some ⟨Text.toUtf8 s, []⟩

/-- The value of the first option with a name. -/
def first? (a : Address) (name : String) : Option (List UInt8) :=
  a.options.lookup (Text.toUtf8 name.toList)

/-- The value of the last option with a name. -/
def last? (a : Address) (name : String) : Option (List UInt8) :=
  a.options.reverse.lookup (Text.toUtf8 name.toList)

end Address

end DiceBot
