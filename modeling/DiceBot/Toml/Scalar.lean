import DiceBot.Toml.Value

/-! # Reading strings, numbers and dates

The values of TOML that hold no other values. A reader answers what it read together with the rest of
the text. Numbers and dates are made of *plain words*: runs of ASCII letters, digits, underscores and
minus signs, joined by points, colons and plus signs. -/

namespace DiceBot.Toml

/-! ### Characters -/

/-- A space or a tab. -/
def isSpace (c : Char) : Bool := c = ' ' || c = '\t'

/-- The text without the spaces and tabs it begins with. -/
def skipSpaces (s : Text) : Text := s.dropWhile isSpace

/-- A character of a plain word. -/
def isWordChar (c : Char) : Bool := c.isAlphanum || c = '-' || c = '_'

/-- A character that may stand in a string as it is: no control character but the tab. -/
def isStringChar (c : Char) : Bool := c = '\t' || (0x20 ≤ c.toNat && c.toNat ≠ 0x7f)

/-- A plain word of at least one character. -/
def readWord (s : Text) : Option (Text × Text) :=
  if s.takeWhile isWordChar = [] then none
  else some (s.takeWhile isWordChar, s.dropWhile isWordChar)

/-! ### Strings -/

/-- The character whose code point has these hexadecimal digits. -/
def codeChar? (ds : List Char) : Option Char := do
  let values ← ds.mapM Text.hexValue?
  let n := values.foldl (fun n d => 16 * n + d) 0
  if n.isValidChar then some (Char.ofNat n) else none

/-- The character for which a letter stands behind a backslash. -/
def shortEscape? : Char → Option Char
  | '"' => some '"'
  | '\\' => some '\\'
  | 'b' => some '\x08'
  | 'f' => some '\x0c'
  | 'n' => some '\n'
  | 'r' => some '\r'
  | 't' => some '\t'
  | _ => none

/-- The character of an escape, behind its backslash. -/
def readEscape : Text → Option (Char × Text)
  | 'u' :: a :: b :: c :: d :: s => (codeChar? [a, b, c, d]).map fun ch => (ch, s)
  | 'U' :: a :: b :: c :: d :: e :: f :: g :: h :: s =>
    (codeChar? [a, b, c, d, e, f, g, h]).map fun ch => (ch, s)
  | e :: s => (shortEscape? e).map fun ch => (ch, s)
  | [] => none

/-- A space, tab or line feed. -/
def isSpaceOrNewline (c : Char) : Bool := isSpace c || c = '\n'

/-- The text after a backslash that ends a line, without the white space before the next word. Between
the backslash and the end of the line only spaces may stand. -/
def readLineEnd (s : Text) : Option Text :=
  match skipSpaces s with
  | '\n' :: s => some (s.dropWhile isSpaceOrNewline)
  | [] => some []
  | _ => none

/-- The rest of a string between double quotes on one line. The number bounds the length of the text. -/
def readBasic : Nat → Text → Option (Text × Text)
  | 0, _ => none
  | _ + 1, [] => none
  | _ + 1, '"' :: s => some ([], s)
  | n + 1, '\\' :: s => do
    let (c, s) ← readEscape s
    let (cs, s) ← readBasic n s
    return (c :: cs, s)
  | n + 1, c :: s =>
    if isStringChar c then do
      let (cs, s) ← readBasic n s
      return (c :: cs, s)
    else none

/-- The end of a string over several lines: three quotes, before which up to two more belong to the
string. -/
def readClose (q : Char) (s : Text) : Option (Text × Text) :=
  let quotes := (s.takeWhile (· = q)).length
  if quotes < 3 then none
  else some (List.replicate (min quotes 5 - 3) q, s.drop (min quotes 5))

/-- The rest of a string between triple double quotes. -/
def readMultiBasic : Nat → Text → Option (Text × Text)
  | 0, _ => none
  | n + 1, s =>
    match readClose '"' s with
    | some close => some close
    | none =>
      match s with
      | [] => none
      | '\\' :: c :: s =>
        if isSpaceOrNewline c then do
          readMultiBasic n (← readLineEnd (c :: s))
        else do
          let (c, s) ← readEscape (c :: s)
          let (cs, s) ← readMultiBasic n s
          return (c :: cs, s)
      | c :: s =>
        if (isStringChar c && c ≠ '\\') || c = '\n' then do
          let (cs, s) ← readMultiBasic n s
          return (c :: cs, s)
        else none

/-- The rest of a string between single quotes on one line. -/
def readLiteral : Text → Option (Text × Text)
  | [] => none
  | '\'' :: s => some ([], s)
  | c :: s =>
    if isStringChar c then do
      let (cs, s) ← readLiteral s
      return (c :: cs, s)
    else none

/-- The rest of a string between triple single quotes. -/
def readMultiLiteral (s : Text) : Option (Text × Text) :=
  match readClose '\'' s with
  | some close => some close
  | none =>
    match s with
    | [] => none
    | c :: s =>
      if isStringChar c || c = '\n' then do
        let (cs, s) ← readMultiLiteral s
        return (c :: cs, s)
      else none

/-- The text without the line feed it begins with. -/
def dropNewline : Text → Text
  | '\n' :: s => s
  | s => s

/-- A string, and whether it is one over several lines. -/
def readString : Text → Option ((Text × Bool) × Text)
  | '"' :: '"' :: '"' :: s =>
    (readMultiBasic (s.length + 1) (dropNewline s)).map fun (v, s) => ((v, true), s)
  | '"' :: s => (readBasic (s.length + 1) s).map fun (v, s) => ((v, false), s)
  | '\'' :: '\'' :: '\'' :: s =>
    (readMultiLiteral (dropNewline s)).map fun (v, s) => ((v, true), s)
  | '\'' :: s => (readLiteral s).map fun (v, s) => ((v, false), s)
  | _ => none

/-! ### Digits -/

/-- Whether a character is a digit of the radix. -/
def isRadixDigit (radix : Nat) (c : Char) : Bool :=
  match Text.hexValue? c with
  | some d => d < radix
  | none => false

/-- The longest run of digits of the radix and underscores that a word begins with. -/
def digitRun (radix : Nat) (s : Text) : Text :=
  s.takeWhile fun c => isRadixDigit radix c || c = '_'

/-- Whether underscores stand only between digits. -/
def separated : Text → Bool
  | [] => false
  | ['_'] => false
  | [_] => true
  | '_' :: _ => false
  | _ :: '_' :: s => separated s
  | _ :: s => separated s

/-- The digits of a run, without its underscores. -/
def runDigits (run : Text) : Text := run.filter (· ≠ '_')

/-- A run of digits at the front of a word, without its underscores, and the rest of the word. -/
def readRun (radix : Nat) (leadingZeros : Bool) (s : Text) : Option (Text × Text) :=
  let run := digitRun radix s
  if separated run && (leadingZeros || run.length = 1 || run.head? ≠ some '0') then
    some (runDigits run, s.drop run.length)
  else none

/-- The value of digits of a radix. -/
def radixValue (radix : Nat) (ds : Text) : Nat :=
  ds.foldl (fun n c => radix * n + (Text.hexValue? c).getD 0) 0

/-! ### Numbers -/

/-- The greatest integer, `2^63 - 1`. -/
def maxInteger : Int := 0x7fffffffffffffff

/-- An integer of 64 bits, if it is one. -/
def integerOf? (n : Int) : Option Toml :=
  if -maxInteger - 1 ≤ n ∧ n ≤ maxInteger then some (.integer n) else none

/-- A word without its minus sign, and whether it had one. -/
def splitSign : Text → Bool × Text
  | '-' :: s => (true, s)
  | s => (false, s)

/-- A number with its sign. -/
def signed (negative : Bool) (n : Nat) : Int := if negative then -(n : Int) else n

/-- All of a word as an integer of a radix without a sign. -/
def radixInteger? (radix : Nat) (s : Text) : Option Toml :=
  match readRun radix true s with
  | some (ds, []) => integerOf? (radixValue radix ds)
  | _ => none

/-- All of a word as a decimal integer. -/
def decimalInteger? (s : Text) : Option Toml :=
  match readRun 10 false (splitSign s).2 with
  | some (ds, []) => integerOf? (signed (splitSign s).1 (Text.digitsValue ds))
  | _ => none

/-- The finite floating-point number of a whole part, decimal places and an exponent. -/
def floatOf? (negative : Bool) (whole places : Text) (exponent : Int) : Option Toml :=
  let digits := Text.digitsValue (whole ++ places)
  let x := Binary64.ofDecimal negative digits (exponent - places.length)
  if x.isFinite then some (.float x) else none

/-- An exponent: the rest of the word behind its `e`, or, where the word ends there, the word after a
plus sign. -/
def readExponent (word s : Text) : Option (Int × Text) :=
  match word with
  | [] =>
    match s with
    | '+' :: s => do
      let (word, s) ← readWord s
      match ← readRun 10 true word with
      | (ds, []) => return (Text.digitsValue ds, s)
      | _ => none
    | _ => none
  | word =>
    match readRun 10 true (splitSign word).2 with
    | some (ds, []) => some (signed (splitSign word).1 (Text.digitsValue ds), s)
    | _ => none

/-- A floating-point number from its whole part on: `word` is the word that the whole part began,
`places` the decimal places, `s` the text after the word. -/
def finishFloat (negative : Bool) (whole places word s : Text) : Option (Toml × Text) :=
  match word with
  | [] => (floatOf? negative whole places 0).map fun v => (v, s)
  | c :: word =>
    if c = 'e' ∨ c = 'E' then do
      let (exponent, s) ← readExponent word s
      return (← floatOf? negative whole places exponent, s)
    else none

/-- A floating-point number whose first word holds its exponent. -/
def readFloat (word s : Text) : Option (Toml × Text) := do
  let (whole, rest) ← readRun 10 false (splitSign word).2
  finishFloat (splitSign word).1 whole [] rest s

/-- A floating-point number whose first word ends at the point; `s` is the text after the point. -/
def readPointFloat (word s : Text) : Option (Toml × Text) := do
  let (after, s) ← readWord s
  match ← readRun 10 false (splitSign word).2 with
  | (whole, []) =>
    let (places, rest) ← readRun 10 true after
    finishFloat (splitSign word).1 whole places rest s
  | _ => none

/-- A number that begins with a plain word. -/
def readNumber (word s : Text) : Option (Toml × Text) :=
  match word with
  | '0' :: 'x' :: ds => (radixInteger? 16 ds).map fun v => (v, s)
  | '0' :: 'o' :: ds => (radixInteger? 8 ds).map fun v => (v, s)
  | '0' :: 'b' :: ds => (radixInteger? 2 ds).map fun v => (v, s)
  | _ =>
    if word.any fun c => c = 'e' || c = 'E' then readFloat word s
    else
      match s with
      | '.' :: s => readPointFloat word s
      | _ =>
        if word = "inf".toList then some (.float (.infinity false), s)
        else if word = "-inf".toList then some (.float (.infinity true), s)
        else if word = "nan".toList then some (.float (.nan false), s)
        else if word = "-nan".toList then some (.float (.nan true), s)
        else (decimalInteger? word).map fun v => (v, s)

/-! ### Dates and times -/

/-- A space and a word, or nothing: the hour may stand apart from the date. -/
def readApart (s : Text) : Text × Text :=
  match s with
  | ' ' :: s' =>
    match readWord s' with
    | some (word, rest) => (' ' :: word, rest)
    | none => ([], s)
  | _ => ([], s)

/-- A mark and a word. -/
def readMarked (mark : Char) (s : Text) : Option (Text × Text) :=
  match s with
  | [] => none
  | c :: s => if c = mark then (readWord s).map fun (word, s) => (mark :: word, s) else none

/-- A mark and a word, or nothing. -/
def readOptional (mark : Char) (s : Text) : Option (Text × Text) :=
  if s.head? = some mark then readMarked mark s else some ([], s)

/-- The words of a time behind its hour, if there are any: minutes, seconds, decimal places and an
offset. -/
def readClock (s : Text) : Option (Text × Text) :=
  if s.head? = some ':' then do
    let (minutes, s) ← readMarked ':' s
    let (seconds, s) ← readMarked ':' s
    let (places, s) ← readOptional '.' s
    let (offset, s) ← readOptional '+' s
    let (offsetMinutes, s) ← readOptional ':' s
    return (minutes ++ seconds ++ places ++ offset ++ offsetMinutes, s)
  else some ([], s)

/-- A date and time that begins with a plain word. -/
def readDatetime (word s : Text) : Option (Toml × Text) := do
  let (hour, s) := readApart s
  let (clock, s) ← readClock s
  let d ← Datetime.ofText? (word ++ hour ++ clock)
  return (.datetime d, s)

/-- Whether `b` stands somewhere right behind `a`. -/
def hasPair (a b : Char) : Text → Bool
  | x :: y :: s => (x = a && y = b) || hasPair a b (y :: s)
  | _ => false

/-- Whether a minus sign stands in a word after its first character, and not in an exponent. -/
def hasDash (word : Text) : Bool :=
  word.tail.contains '-' && !hasPair 'e' '-' word && !hasPair 'E' '-' word

/-- A number or a date and time that begins with a plain word. -/
def readNumberOrDate (word s : Text) : Option (Toml × Text) :=
  if word.contains 'T' || word.contains 't' || hasDash word || s.head? = some ':' then
    readDatetime word s
  else readNumber word s

/-- A number behind a plus sign. -/
def readPlusNumber (s : Text) : Option (Toml × Text) := do
  let (word, s) ← readWord s
  readNumber word s

/-- A value that begins with a plain word. -/
def readWordValue (word s : Text) : Option (Toml × Text) :=
  if word = "true".toList then some (.boolean true, s)
  else if word = "false".toList then some (.boolean false, s)
  else if word = "inf".toList ∨ word = "nan".toList then readNumberOrDate word s
  else
    match word with
    | c :: _ => if c = '-' ∨ c.isDigit then readNumberOrDate word s else none
    | [] => none

/-- A value that holds no other values. -/
def readScalar (s : Text) : Option (Toml × Text) :=
  match s with
  | '+' :: s => readPlusNumber s
  | '"' :: _ | '\'' :: _ => (readString s).map fun ((v, _), s) => (.string v, s)
  | _ =>
    match readWord s with
    | some (word, s) => readWordValue word s
    | none => none

end DiceBot.Toml
