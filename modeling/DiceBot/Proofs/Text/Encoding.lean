import DiceBot.Proofs.Text.ByteOrder

/-! # Texts in bytes

Bytes that are read as a text are the bytes of that text (`ofUtf8?_eq_some_iff`). The first byte of a
character is told from its other bytes, and no encoding is the beginning of another. -/

namespace DiceBot.Text

/-- **The bytes that are read as a text are its UTF-8 bytes.** -/
theorem ofUtf8?_eq_some_iff {bytes : List UInt8} {s : Text} :
    ofUtf8? bytes = some s ↔ bytes = toUtf8 s := by
  constructor
  · intro h
    obtain ⟨chars, hchars, rfl⟩ := Option.map_eq_some_iff.mp h
    have hread : (bytes.toByteArray.utf8Decode?).isSome := by rw [hchars]; rfl
    have hwritten := ByteArray.utf8Encode_get_utf8Decode? (h := hread)
    simp only [hchars, Option.get_some] at hwritten
    have hbytes : (toUtf8 chars.toList).toByteArray = bytes.toByteArray := hwritten
    simpa using congrArg (·.data.toList) hbytes.symm
  · rintro rfl
    exact ofUtf8?_toUtf8 s

/-! ### Characters one after the other -/

/-- A character is one byte that begins a character, and bytes that do not. -/
theorem utf8EncodeChar_eq_cons (c : Char) : ∃ b x, String.utf8EncodeChar c = b :: x ∧
    b.IsUTF8FirstByte ∧ ∀ d ∈ x, ¬ d.IsUTF8FirstByte := by
  obtain ⟨b, x, hbx⟩ := List.exists_cons_of_ne_nil (String.utf8EncodeChar_ne_nil (c := c))
  have hfirst : ∀ (i : Nat) (hi : i < (b :: x).length), (b :: x)[i].IsUTF8FirstByte ↔ i = 0 := by
    rw [← hbx]
    intro i hi
    exact UInt8.isUTF8FirstByte_getElem_utf8EncodeChar
  refine ⟨b, x, hbx, (hfirst 0 (by simp)).mpr rfl, fun d hd => ?_⟩
  obtain ⟨i, hi, rfl⟩ := List.getElem_of_mem hd
  intro h
  have := (hfirst (i + 1) (by simpa using hi)).mp (by simpa using h)
  omega

/-- No encoding is the beginning of another. -/
theorem utf8EncodeChar_append_inj {a b : Char} {s t : List UInt8}
    (h : String.utf8EncodeChar a ++ s = String.utf8EncodeChar b ++ t) : a = b ∧ s = t := by
  have hab : a = b := by
    rcases Nat.lt_trichotomy a.toNat b.toNat with hlt | heq | hlt
    · exact absurd (h ▸ utf8EncodeChar_append_lt hlt s t) (List.lt_irrefl _)
    · exact Char.toNat_inj.mp heq
    · exact absurd (h ▸ utf8EncodeChar_append_lt hlt t s) (List.lt_irrefl _)
  subst hab
  exact ⟨rfl, List.append_cancel_left h⟩

end DiceBot.Text
