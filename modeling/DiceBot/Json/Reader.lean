import DiceBot.Json.Value

/-! # Reading JSON

The grammar of JSON over the bytes of a document: one value with blanks around it. Each reader takes
bytes off the front and answers what it read together with the rest. -/

namespace DiceBot.Json

/-! ### Marks -/

@[match_pattern] abbrev quoteMark : UInt8 := 0x22
@[match_pattern] abbrev comma : UInt8 := 0x2c
@[match_pattern] abbrev minus : UInt8 := 0x2d
@[match_pattern] abbrev point : UInt8 := 0x2e
@[match_pattern] abbrev zero : UInt8 := 0x30
@[match_pattern] abbrev colon : UInt8 := 0x3a
@[match_pattern] abbrev leftBracket : UInt8 := 0x5b
@[match_pattern] abbrev backslash : UInt8 := 0x5c
@[match_pattern] abbrev rightBracket : UInt8 := 0x5d
@[match_pattern] abbrev letterU : UInt8 := 0x75
@[match_pattern] abbrev leftBrace : UInt8 := 0x7b
@[match_pattern] abbrev rightBrace : UInt8 := 0x7d

/-! ### Blanks -/

/-- A space, tab, line feed or carriage return. -/
def isBlank (b : UInt8) : Bool := b = 0x20 || b = 0x09 || b = 0x0a || b = 0x0d

/-- The bytes without the blanks they begin with. -/
def skipBlanks (s : List UInt8) : List UInt8 := s.dropWhile isBlank

/-! ### Strings -/

/-- The value of a hexadecimal digit. -/
def hexDigit? (b : UInt8) : Option Nat :=
  if 0x30 ≤ b && b ≤ 0x39 then some (b.toNat - 0x30)
  else if 0x41 ≤ b && b ≤ 0x46 then some (b.toNat - 0x37)
  else if 0x61 ≤ b && b ≤ 0x66 then some (b.toNat - 0x57)
  else none

/-- The value of four hexadecimal digits. -/
def hexCode? (a b c d : UInt8) : Option Nat := do
  return (((← hexDigit? a) * 16 + (← hexDigit? b)) * 16 + (← hexDigit? c)) * 16 + (← hexDigit? d)

/-- The byte for which a letter stands behind a backslash. -/
def shortEscape? (b : UInt8) : Option UInt8 :=
  match b with
  | 0x22 => some 0x22
  | 0x5c => some 0x5c
  | 0x2f => some 0x2f
  | 0x62 => some 0x08
  | 0x66 => some 0x0c
  | 0x6e => some 0x0a
  | 0x72 => some 0x0d
  | 0x74 => some 0x09
  | _ => none

/-- The units of a string up to its closing quote. -/
def readString : List UInt8 → Option (JsonString × List UInt8)
  | [] => none
  | quoteMark :: s => some ([], s)
  | backslash :: letterU :: a :: b :: c :: d :: s => do
    let n ← hexCode? a b c d
    let (units, rest) ← readString s
    return (.code n :: units, rest)
  | backslash :: e :: s => do
    let b ← shortEscape? e
    let (units, rest) ← readString s
    return (.byte b :: units, rest)
  | b :: s =>
    if b < 0x20 || b = backslash then none
    else do
      let (units, rest) ← readString s
      return (.byte b :: units, rest)

/-! ### Numbers -/

/-- A decimal digit. -/
def isDigit (b : UInt8) : Bool := 0x30 ≤ b && b ≤ 0x39

/-- At least one digit. -/
def readDigits (s : List UInt8) : Option (List UInt8 × List UInt8) :=
  if s.takeWhile isDigit = [] then none else some (s.takeWhile isDigit, s.dropWhile isDigit)

/-- A single zero, or digits that do not begin with one. -/
def readWhole : List UInt8 → Option (List UInt8 × List UInt8)
  | zero :: s => some ([zero], s)
  | s => readDigits s

/-- A point and digits, or nothing. -/
def readFraction : List UInt8 → Option (List UInt8 × List UInt8)
  | point :: s => do
    let (ds, s) ← readDigits s
    return (point :: ds, s)
  | s => some ([], s)

/-- A sign, or nothing. -/
def readSign : List UInt8 → List UInt8 × List UInt8
  | b :: s => if b = 0x2b || b = minus then ([b], s) else ([], b :: s)
  | [] => ([], [])

/-- An exponent, or nothing. -/
def readExponent : List UInt8 → Option (List UInt8 × List UInt8)
  | [] => some ([], [])
  | b :: s =>
    if b = 0x65 || b = 0x45 then do
      let (sign, s) := readSign s
      let (ds, s) ← readDigits s
      return (b :: sign ++ ds, s)
    else some ([], b :: s)

/-- A minus sign, or nothing. -/
def readMinus : List UInt8 → List UInt8 × List UInt8
  | minus :: s => ([minus], s)
  | s => ([], s)

/-- A number. -/
def readNumber (s : List UInt8) : Option (Json × List UInt8) := do
  let (sign, s) := readMinus s
  let (whole, s) ← readWhole s
  let (fraction, s) ← readFraction s
  let (exponent, s) ← readExponent s
  return (.number (sign ++ whole ++ fraction ++ exponent), s)

/-! ### Values -/

/-- The rest of `s` after the bytes of a word. -/
def dropWord? : (word s : List UInt8) → Option (List UInt8)
  | [], s => some s
  | _ :: _, [] => none
  | w :: word, b :: s => if w = b then dropWord? word s else none

/-- A word that stands for a value. -/
def readWord (word : String) (value : Json) (s : List UInt8) : Option (Json × List UInt8) :=
  (dropWord? (Text.toUtf8 word.toList) s).map fun rest => (value, rest)

/-- A value without parts. -/
def readScalar (s : List UInt8) : Option (Json × List UInt8) :=
  readWord "null" .null s <|> readWord "true" (.bool true) s <|> readWord "false" (.bool false) s <|>
    readNumber s

/-- A key and the colon after it. -/
def readKey : List UInt8 → Option (JsonString × List UInt8)
  | quoteMark :: s => do
    let (key, s) ← readString s
    match skipBlanks s with
    | colon :: s => return (key, s)
    | _ => none
  | _ => none

mutual

/-- A value, after blanks. The first argument bounds the depth of the recursion. -/
def readValue : Nat → List UInt8 → Option (Json × List UInt8)
  | 0, _ => none
  | n + 1, s =>
    match skipBlanks s with
    | quoteMark :: s => (readString s).map fun (units, rest) => (.string units, rest)
    | leftBracket :: s =>
      match skipBlanks s with
      | rightBracket :: s => some (.array [], s)
      | _ => (readItems n s).map fun (items, rest) => (.array items, rest)
    | leftBrace :: s =>
      match skipBlanks s with
      | rightBrace :: s => some (.object [], s)
      | _ => (readMembers n s).map fun (members, rest) => (.object members, rest)
    | s => readScalar s

/-- The items of an array, at least one, up to its closing bracket. -/
def readItems : Nat → List UInt8 → Option (List Json × List UInt8)
  | 0, _ => none
  | n + 1, s => do
    let (v, s) ← readValue n s
    match skipBlanks s with
    | comma :: s =>
      let (vs, s) ← readItems n s
      return (v :: vs, s)
    | rightBracket :: s => return ([v], s)
    | _ => none

/-- The members of an object, at least one, up to its closing brace. -/
def readMembers : Nat → List UInt8 → Option (List (JsonString × Json) × List UInt8)
  | 0, _ => none
  | n + 1, s => do
    let (key, s) ← readKey (skipBlanks s)
    let (v, s) ← readValue n s
    match skipBlanks s with
    | comma :: s =>
      let (ms, s) ← readMembers n s
      return ((key, v) :: ms, s)
    | rightBrace :: s => return ([(key, v)], s)
    | _ => none

end

/-- How deep the recursion can go: two steps for every byte that is read. -/
def depthBound (s : List UInt8) : Nat := 2 * s.length + 2

/-- The value of a whole document. -/
def ofDocument? (s : List UInt8) : Option Json :=
  match readValue (depthBound s) s with
  | some (v, rest) => if skipBlanks rest = [] then some v else none
  | none => none

end DiceBot.Json
