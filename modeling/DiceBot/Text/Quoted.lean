import DiceBot.Text.Basic
import DiceBot.Text.Hidden

/-! # Quoted texts

A text between double quotes, on one line and with every character visible. A quote, a backslash, a
line feed, a tab, a carriage return and a NUL have short escapes; a hidden character becomes
`\u{…}` with its code point in hexadecimal. -/

namespace DiceBot.Text

/-- The escape that spells out a character by its code point. -/
def codeEscape (c : Char) : Text := "\\u\x7b".toList ++ Nat.toDigits 16 c.toNat ++ "\x7d".toList

/-- One character inside the quotes. -/
def quoteChar (c : Char) : Text :=
  match c with
  | '"' => ['\\', '"']
  | '\\' => ['\\', '\\']
  | '\n' => ['\\', 'n']
  | '\t' => ['\\', 't']
  | '\r' => ['\\', 'r']
  | '\x00' => ['\\', '0']
  | c => if isHidden c then codeEscape c else [c]

/-- The text between double quotes. -/
def quote (s : Text) : Text := '"' :: s.flatMap quoteChar ++ ['"']

end DiceBot.Text
