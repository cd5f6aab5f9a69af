import DiceBot.Text.Utf8

/-! # JSON values

A JSON document as it is written. Strings are kept as the units they are written with, because a string
that nobody looks at need not make sense: its bytes need not be UTF-8 and its escapes need not form
characters. `JsonString.decode?` gives the text of a string that does make sense. -/

namespace DiceBot

/-- A piece of a JSON string: a byte, or a 16-bit unit that is written by its number. -/
inductive JsonUnit where
  | byte (value : UInt8)
  | code (value : Nat)
deriving Repr, DecidableEq

/-- A JSON string as it is written. -/
abbrev JsonString := List JsonUnit

/-- A JSON value as it is written. -/
inductive Json where
  | null
  | bool (value : Bool)
  /-- A number, by the bytes of its literal. -/
  | number (literal : List UInt8)
  | string (units : JsonString)
  | array (items : List Json)
  | object (members : List (JsonString × Json))
deriving Repr

/-! ### Strings -/

/-- The first half of a pair of units. -/
def isHighSurrogate (n : Nat) : Bool := 0xd800 ≤ n && n ≤ 0xdbff

/-- The second half of a pair of units. -/
def isLowSurrogate (n : Nat) : Bool := 0xdc00 ≤ n && n ≤ 0xdfff

/-- The character that a pair of units stands for. -/
def pairedChar (high low : Nat) : Char :=
  Char.ofNat (0x10000 + (high - 0xd800) * 0x400 + (low - 0xdc00))

namespace JsonString

/-- The bytes of a string in which all units are paired. -/
def bytes? : JsonString → Option (List UInt8)
  | [] => some []
  | .byte b :: us => (bytes? us).map (b :: ·)
  | .code a :: .code b :: us =>
    if isHighSurrogate a then
      if isLowSurrogate b then (bytes? us).map (Text.toUtf8 [pairedChar a b] ++ ·) else none
    else if isLowSurrogate a then none
    else (bytes? (.code b :: us)).map (Text.toUtf8 [Char.ofNat a] ++ ·)
  | .code a :: us =>
    if isHighSurrogate a || isLowSurrogate a then none
    else (bytes? us).map (Text.toUtf8 [Char.ofNat a] ++ ·)

/-- The text of a string, if its units are paired and its bytes are UTF-8. -/
def decode? (s : JsonString) : Option Text := s.bytes?.bind Text.ofUtf8?

end JsonString

end DiceBot
