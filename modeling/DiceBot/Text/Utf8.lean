import DiceBot.Text.Basic

/-! # UTF-8

The bytes of a text, and the text of bytes that are valid UTF-8. -/

namespace DiceBot.Text

/-- The UTF-8 bytes of a text. -/
def toUtf8 (s : Text) : List UInt8 := s.flatMap String.utf8EncodeChar

/-- The text of the bytes, if they are valid UTF-8. -/
def ofUtf8? (bytes : List UInt8) : Option Text :=
  (ByteArray.utf8Decode? bytes.toByteArray).map Array.toList

/-- Bytes that come from a text are read back as that text. -/
theorem ofUtf8?_toUtf8 (s : Text) : ofUtf8? (toUtf8 s) = some s := by
  have h : (s.flatMap String.utf8EncodeChar).toByteArray = s.utf8Encode := rfl
  rw [ofUtf8?, toUtf8, h, List.utf8Decode?_utf8Encode]
  simp

end DiceBot.Text
