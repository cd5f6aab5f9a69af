import DiceBot.Text.Order
import DiceBot.Text.Utf8
import Mathlib.Order.Defs.Unbundled

/-! # Code points and bytes

Two texts compare by their code points as their UTF-8 bytes compare lexicographically
(`isBefore_iff_toUtf8_lt`): of two characters the one with the smaller code point has the smaller
encoding, and the two already differ within the shorter of the encodings. -/

namespace DiceBot.Text

theorem toUtf8_cons (a : Char) (s : Text) : toUtf8 (a :: s) = String.utf8EncodeChar a ++ toUtf8 s := rfl

/-- Lists that start with different bytes compare by these. -/
theorem cons_lt_cons_of_byte_lt {m n : Nat} (h : m < n) (hn : n < 256) (s t : List UInt8) :
    UInt8.ofNat m :: s < UInt8.ofNat n :: t := by
  refine List.cons_lt_cons_iff.mpr (Or.inl (UInt8.lt_iff_toNat_lt.mpr ?_))
  rw [UInt8.toNat_ofNat', UInt8.toNat_ofNat']
  omega

/-- Lists that start with the same byte compare by what follows. -/
theorem cons_lt_cons_of_byte_le {m n : Nat} (h : m ≤ n) (hn : n < 256) {s t : List UInt8}
    (hst : m = n → s < t) : UInt8.ofNat m :: s < UInt8.ofNat n :: t := by
  rcases Nat.lt_or_eq_of_le h with h | h
  · exact cons_lt_cons_of_byte_lt h hn s t
  · exact List.cons_lt_cons_iff.mpr (Or.inr ⟨by rw [h], hst h⟩)

/-- The encoding of the smaller of two characters is smaller, whatever follows. -/
theorem utf8EncodeChar_append_lt {a b : Char} (h : a.toNat < b.toNat) (s t : List UInt8) :
    String.utf8EncodeChar a ++ s < String.utf8EncodeChar b ++ t := by
  have hb : b.val.toNat < 0x110000 := by
    rcases b.valid with hv | ⟨-, hv⟩
    · exact Nat.lt_trans hv (by decide)
    · exact hv
  change a.val.toNat < b.val.toNat at h
  unfold String.utf8EncodeChar
  generalize a.val.toNat = m at *
  generalize b.val.toNat = n at *
  dsimp only
  repeat' split
  -- encodings of different lengths differ in their first bytes
  all_goals first | omega | exact cons_lt_cons_of_byte_lt (by omega) (by omega) _ _ | skip
  · refine cons_lt_cons_of_byte_le (by omega) (by omega) fun _ => ?_
    exact cons_lt_cons_of_byte_lt (by omega) (by omega) _ _
  · refine cons_lt_cons_of_byte_le (by omega) (by omega) fun _ => ?_
    refine cons_lt_cons_of_byte_le (by omega) (by omega) fun _ => ?_
    exact cons_lt_cons_of_byte_lt (by omega) (by omega) _ _
  · refine cons_lt_cons_of_byte_le (by omega) (by omega) fun _ => ?_
    refine cons_lt_cons_of_byte_le (by omega) (by omega) fun _ => ?_
    refine cons_lt_cons_of_byte_le (by omega) (by omega) fun _ => ?_
    exact cons_lt_cons_of_byte_lt (by omega) (by omega) _ _

theorem utf8EncodeChar_append_lt_iff (a : Char) {s t : List UInt8} :
    String.utf8EncodeChar a ++ s < String.utf8EncodeChar a ++ t ↔ s < t := by
  induction String.utf8EncodeChar a with
  | nil => rfl
  | cons x l ih => simpa [List.cons_lt_cons_iff] using ih

theorem toUtf8_lt_of_isBefore : ∀ {s t : Text}, isBefore s t → toUtf8 s < toUtf8 t
  | _, [], h => by simp [isBefore] at h
  | [], b :: t, _ => by
    obtain ⟨x, l, hx⟩ := List.exists_cons_of_ne_nil (String.utf8EncodeChar_ne_nil (c := b))
    rw [toUtf8_cons, hx]
    exact List.nil_lt_cons x _
  | a :: s, b :: t, h => by
    rw [toUtf8_cons, toUtf8_cons]
    simp only [isBefore, Bool.or_eq_true, Bool.and_eq_true, decide_eq_true_eq] at h
    rcases h with h | ⟨h, hst⟩
    · exact utf8EncodeChar_append_lt h _ _
    · rw [Char.toNat_inj.mp h]
      exact (utf8EncodeChar_append_lt_iff b).mpr (toUtf8_lt_of_isBefore hst)

/-- **Texts are ordered as their UTF-8 bytes.** -/
theorem isBefore_iff_toUtf8_lt {s t : Text} : isBefore s t ↔ toUtf8 s < toUtf8 t := by
  refine ⟨toUtf8_lt_of_isBefore, fun h => ?_⟩
  have hne : s ≠ t := fun e => List.lt_irrefl _ (e ▸ h)
  rcases isBefore_or_isBefore hne with h' | h'
  · exact h'
  · exact absurd (toUtf8_lt_of_isBefore h') (List.lt_asymm h)

theorem isBefore_asymm {s t : Text} (h : isBefore s t) : isBefore t s = false :=
  Bool.eq_false_iff.mpr fun h' =>
    List.lt_asymm (isBefore_iff_toUtf8_lt.mp h) (isBefore_iff_toUtf8_lt.mp h')

/-! ### The byte order -/

theorem toUtf8_injective {s t : Text} (h : toUtf8 s = toUtf8 t) : s = t := by
  refine Option.some.inj ?_
  rw [← ofUtf8?_toUtf8 s, h, ofUtf8?_toUtf8]

/-- `s` is `t` or comes before it in byte order. -/
def ByteLE (s t : Text) : Prop := toUtf8 s ≤ toUtf8 t

instance : DecidableRel ByteLE := fun s t => inferInstanceAs (Decidable (toUtf8 s ≤ toUtf8 t))

instance : IsTrans Text ByteLE := ⟨fun _ _ _ => List.le_trans⟩

instance : Std.Antisymm ByteLE := ⟨fun _ _ h h' => toUtf8_injective (List.le_antisymm h h')⟩

instance : Std.Total ByteLE := ⟨fun s t => List.le_total (toUtf8 s) (toUtf8 t)⟩

theorem byteLE_iff {s t : Text} : ByteLE s t ↔ isBefore t s = false := by
  rw [← Bool.not_eq_true, isBefore_iff_toUtf8_lt]
  exact Iff.rfl

/-- The strict part of the byte order. -/
theorem isBefore_of_byteLE {s t : Text} (h : ByteLE s t) (hne : s ≠ t) : isBefore s t := by
  rcases isBefore_or_isBefore hne with h' | h'
  · exact h'
  · rw [byteLE_iff] at h
    rw [h] at h'
    cases h'

end DiceBot.Text
