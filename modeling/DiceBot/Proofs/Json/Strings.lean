import DiceBot.Json.Reader
import DiceBot.Proofs.Text.Encoding

/-! # Strings in JSON

How the units of a string are written between its quotes (`WrittenUnits`), and which text the units
stand for (`JsonString.Denotes`). -/

namespace DiceBot

namespace Json

/-! ### Units in bytes -/

/-- A byte that stands for itself: no control byte, quote or backslash. -/
def IsPlain (b : UInt8) : Prop := 0x20 ≤ b ∧ b ≠ quoteMark ∧ b ≠ backslash

instance : DecidablePred IsPlain := fun b =>
  inferInstanceAs (Decidable (0x20 ≤ b ∧ b ≠ quoteMark ∧ b ≠ backslash))

/-- The bytes between the quotes of a string. A plain byte stands for itself; behind a backslash stands
a letter, or a `u` with the four digits of a unit. -/
inductive WrittenUnits : JsonString → List UInt8 → Prop
  | nil : WrittenUnits [] []
  | plain {b : UInt8} {us : JsonString} {x : List UInt8} (hb : IsPlain b) (h : WrittenUnits us x) :
      WrittenUnits (.byte b :: us) (b :: x)
  | short {e b : UInt8} {us : JsonString} {x : List UInt8} (he : shortEscape? e = some b)
      (h : WrittenUnits us x) : WrittenUnits (.byte b :: us) (backslash :: e :: x)
  | code {a b c d : UInt8} {n : Nat} {us : JsonString} {x : List UInt8} (hn : hexCode? a b c d = some n)
      (h : WrittenUnits us x) : WrittenUnits (.code n :: us) (backslash :: letterU :: a :: b :: c :: d :: x)

theorem writtenUnits_map_byte {x : List UInt8} (h : ∀ b ∈ x, IsPlain b) :
    WrittenUnits (x.map .byte) x := by
  induction x with
  | nil => exact .nil
  | cons b x ih =>
    obtain ⟨hb, hx⟩ := List.forall_mem_cons.mp h
    exact .plain hb (ih hx)

/-- The letter `u` is no short escape. -/
theorem ne_letterU_of_shortEscape? {e b : UInt8} (h : shortEscape? e = some b) : e ≠ letterU := by
  rintro rfl
  cases h

/-- The units of a string are read back, whatever follows its closing quote. -/
theorem readString_append {us : JsonString} {x : List UInt8} (h : WrittenUnits us x)
    (rest : List UInt8) : readString (x ++ quoteMark :: rest) = some (us, rest) := by
  induction h with
  | nil => rfl
  | @plain b us x hb _ ih =>
    obtain ⟨hcontrol, hquote, hback⟩ := hb
    have hread : ¬ (decide (b < 0x20) || decide (b = backslash)) = true := by
      simpa [hback] using hcontrol
    rw [List.cons_append, readString.eq_5 b _ hquote (fun _ _ _ _ _ h => absurd h hback)
      (fun _ _ h => absurd h hback), if_neg hread, ih]
    rfl
  | @short e b us x he _ ih =>
    have hletter := ne_letterU_of_shortEscape? he
    refine (readString.eq_4 e (x ++ quoteMark :: rest) fun _ _ _ _ _ h _ => hletter h).trans ?_
    rw [he, ih]
    rfl
  | @code a b c d n us x hn _ ih =>
    refine (readString.eq_3 a b c d (x ++ quoteMark :: rest)).trans ?_
    rw [hn, ih]
    rfl

/-- What is read as the units of a string is written so. -/
theorem writtenUnits_of_readString {s : List UInt8} {us : JsonString} {rest : List UInt8}
    (h : readString s = some (us, rest)) : ∃ x, WrittenUnits us x ∧ s = x ++ quoteMark :: rest := by
  fun_induction readString s generalizing us rest with
  | case1 => cases h
  | case2 s =>
    cases h
    exact ⟨[], .nil, rfl⟩
  | case3 a b c d s ih =>
    simp only [Option.bind_eq_bind, Option.bind_eq_some_iff] at h
    obtain ⟨n, hn, ⟨us, t⟩, hs, h⟩ := h
    cases h
    obtain ⟨x, hx, rfl⟩ := ih hs
    exact ⟨_, .code hn hx, rfl⟩
  | case4 e s _ ih =>
    simp only [Option.bind_eq_bind, Option.bind_eq_some_iff] at h
    obtain ⟨b, hb, ⟨us, t⟩, hs, h⟩ := h
    cases h
    obtain ⟨x, hx, rfl⟩ := ih hs
    exact ⟨_, .short hb hx, rfl⟩
  | case5 => cases h
  | case6 b s hquote _ _ hread ih =>
    simp only [Option.bind_eq_bind, Option.bind_eq_some_iff] at h
    obtain ⟨⟨us, t⟩, hs, h⟩ := h
    cases h
    obtain ⟨x, hx, rfl⟩ := ih hs
    simp only [Bool.or_eq_true, decide_eq_true_eq, not_or, UInt8.not_lt] at hread
    exact ⟨_, .plain ⟨hread.1, hquote, hread.2⟩ hx, rfl⟩

theorem hexDigit?_lt {b : UInt8} {n : Nat} (h : hexDigit? b = some n) : n < 16 := by
  simp only [hexDigit?, Bool.and_eq_true, decide_eq_true_eq, UInt8.le_iff_toNat_le,
    UInt8.reduceToNat] at h
  repeat' split at h
  · cases h
    omega
  · cases h
    omega
  · cases h
    omega
  · cases h

/-- Four digits make a 16-bit number. -/
theorem hexCode?_lt {a b c d : UInt8} {n : Nat} (h : hexCode? a b c d = some n) : n < 0x10000 := by
  simp only [hexCode?, Option.bind_eq_bind, Option.bind_eq_some_iff, Option.pure_def,
    Option.some.injEq] at h
  obtain ⟨i, hi, j, hj, k, hk, l, hl, rfl⟩ := h
  have := hexDigit?_lt hi
  have := hexDigit?_lt hj
  have := hexDigit?_lt hk
  have := hexDigit?_lt hl
  omega

end Json

/-! ### Units and characters -/

/-- The 16-bit units of a character: its code point, or the two halves of one that is too great. -/
def utf16 (c : Char) : List Nat :=
  if c.toNat < 0x10000 then [c.toNat]
  else [0xd800 + (c.toNat - 0x10000) / 0x400, 0xdc00 + (c.toNat - 0x10000) % 0x400]

namespace JsonString

/-- The units of a text: each character by its UTF-8 bytes or by its 16-bit units. -/
inductive Denotes : JsonString → Text → Prop
  | nil : Denotes [] []
  | bytes {us : JsonString} {t : Text} (c : Char) (h : Denotes us t) :
      Denotes ((String.utf8EncodeChar c).map .byte ++ us) (c :: t)
  | codes {us : JsonString} {t : Text} (c : Char) (h : Denotes us t) :
      Denotes ((utf16 c).map .code ++ us) (c :: t)

/-- The units that are written by their numbers have 16 bits. -/
def IsNarrow (us : JsonString) : Prop := ∀ n, .code n ∈ us → n < 0x10000

theorem IsNarrow.tail (us : JsonString) {vs : JsonString} (h : IsNarrow (us ++ vs)) : IsNarrow vs :=
  fun n hn => h n (List.mem_append_right us hn)

theorem bytes?_map_byte (x : List UInt8) (us : JsonString) :
    bytes? (x.map .byte ++ us) = (bytes? us).map (x ++ ·) := by
  induction x with
  | nil => simp
  | cons b x ih => simp [bytes?, ih, Function.comp_def]

theorem bytes?_code {n : Nat} (hhigh : isHighSurrogate n = false) (hlow : isLowSurrogate n = false)
    (us : JsonString) :
    bytes? (.code n :: us) = (bytes? us).map (String.utf8EncodeChar (Char.ofNat n) ++ ·) := by
  rcases us with _ | ⟨b | m, us⟩ <;> simp [bytes?, hhigh, hlow, Text.toUtf8]

theorem bytes?_pair {a b : Nat} (hhigh : isHighSurrogate a) (hlow : isLowSurrogate b)
    (us : JsonString) :
    bytes? (.code a :: .code b :: us) =
      (bytes? us).map (String.utf8EncodeChar (pairedChar a b) ++ ·) := by
  simp [bytes?, hhigh, hlow, Text.toUtf8]

/-- The second half of a pair does not stand alone. -/
theorem bytes?_low {n : Nat} (hlow : isLowSurrogate n) (us : JsonString) :
    bytes? (.code n :: us) = none := by
  have hhigh : isHighSurrogate n = false := by
    simp only [isHighSurrogate, isLowSurrogate, Bool.and_eq_true, Bool.and_eq_false_iff,
      decide_eq_true_eq, decide_eq_false_iff_not] at hlow ⊢
    omega
  rcases us with _ | ⟨b | m, us⟩ <;> simp [bytes?, hhigh, hlow]

/-! ### Characters and their units -/

theorem toNat_ofNat {n : Nat} (h : n.isValidChar) : (Char.ofNat n).toNat = n := by
  rw [Char.ofNat, dif_pos h]
  rfl

theorem pairedChar_toNat {a b : Nat} (hhigh : isHighSurrogate a) (hlow : isLowSurrogate b) :
    (pairedChar a b).toNat = 0x10000 + (a - 0xd800) * 0x400 + (b - 0xdc00) := by
  simp only [isHighSurrogate, isLowSurrogate, Bool.and_eq_true, decide_eq_true_eq] at hhigh hlow
  have hvalid : (0x10000 + (a - 0xd800) * 0x400 + (b - 0xdc00)).isValidChar := Or.inr (by omega)
  exact toNat_ofNat hvalid

theorem utf16_pairedChar {a b : Nat} (hhigh : isHighSurrogate a) (hlow : isLowSurrogate b) :
    utf16 (pairedChar a b) = [a, b] := by
  have hchar := pairedChar_toNat hhigh hlow
  simp only [isHighSurrogate, isLowSurrogate, Bool.and_eq_true, decide_eq_true_eq] at hhigh hlow
  have ha : 0xd800 + ((pairedChar a b).toNat - 0x10000) / 0x400 = a := by omega
  have hb : 0xdc00 + ((pairedChar a b).toNat - 0x10000) % 0x400 = b := by omega
  rw [utf16, if_neg (by omega), ha, hb]

theorem utf16_ofNat {n : Nat} (hn : n < 0x10000) (hhigh : isHighSurrogate n = false)
    (hlow : isLowSurrogate n = false) : utf16 (Char.ofNat n) = [n] := by
  simp only [isHighSurrogate, isLowSurrogate, Bool.and_eq_false_iff, decide_eq_false_iff_not] at hhigh hlow
  have hvalid : n.isValidChar := by
    unfold Nat.isValidChar
    omega
  rw [utf16, toNat_ofNat hvalid, if_pos hn]

/-- A character is one unit that is no half of a pair, or a pair. -/
theorem utf16_cases (c : Char) :
    (utf16 c = [c.toNat] ∧ isHighSurrogate c.toNat = false ∧ isLowSurrogate c.toNat = false) ∨
      ∃ a b, utf16 c = [a, b] ∧ isHighSurrogate a ∧ isLowSurrogate b ∧ pairedChar a b = c := by
  have hvalid : c.toNat < 0xd800 ∨ 0xdfff < c.toNat ∧ c.toNat < 0x110000 := c.valid
  by_cases hc : c.toNat < 0x10000
  · left
    refine ⟨by rw [utf16, if_pos hc], ?_, ?_⟩ <;>
      simp only [isHighSurrogate, isLowSurrogate, Bool.and_eq_false_iff, decide_eq_false_iff_not] <;> omega
  · right
    have hhigh : isHighSurrogate (0xd800 + (c.toNat - 0x10000) / 0x400) := by
      simp only [isHighSurrogate, Bool.and_eq_true, decide_eq_true_eq]
      omega
    have hlow : isLowSurrogate (0xdc00 + (c.toNat - 0x10000) % 0x400) := by
      simp only [isLowSurrogate, Bool.and_eq_true, decide_eq_true_eq]
      omega
    refine ⟨_, _, by rw [utf16, if_neg hc], hhigh, hlow, Char.toNat_inj.mp ?_⟩
    rw [pairedChar_toNat hhigh hlow]
    omega

theorem bytes?_utf16 (c : Char) (us : JsonString) :
    bytes? ((utf16 c).map .code ++ us) = (bytes? us).map (String.utf8EncodeChar c ++ ·) := by
  rcases utf16_cases c with ⟨hc, hhigh, hlow⟩ | ⟨a, b, hc, hhigh, hlow, hpair⟩
  · rw [hc, List.map_singleton, List.singleton_append, bytes?_code hhigh hlow, Char.ofNat_toNat]
  · rw [hc, List.map_cons, List.map_singleton, List.cons_append, List.singleton_append,
      bytes?_pair hhigh hlow, hpair]

/-! ### The text of a string -/

/-- The units of a text have its UTF-8 bytes. -/
theorem Denotes.bytes?_eq {us : JsonString} {t : Text} (h : Denotes us t) :
    bytes? us = some (Text.toUtf8 t) := by
  induction h with
  | nil => rfl
  | bytes c _ ih => rw [bytes?_map_byte, ih, Option.map_some, Text.toUtf8_cons]
  | codes c _ ih => rw [bytes?_utf16, ih, Option.map_some, Text.toUtf8_cons]

/-- A string stands for one text. -/
theorem Denotes.unique {us : JsonString} {t t' : Text} (h : Denotes us t) (h' : Denotes us t') :
    t = t' :=
  Text.toUtf8_injective (Option.some.inj (h.bytes?_eq.symm.trans h'.bytes?_eq))

/-- A text may be written in its bytes. -/
theorem denotes_map_byte (t : Text) : Denotes ((Text.toUtf8 t).map .byte) t := by
  induction t with
  | nil => exact .nil
  | cons c t ih =>
    rw [Text.toUtf8_cons, List.map_append]
    exact .bytes c ih

/-- What the units that have bytes begin with: nothing, a byte, or the units of a character. -/
theorem bytes?_cases {us : JsonString} (hus : us.IsNarrow) {bs : List UInt8} (h : bytes? us = some bs) :
    (us = [] ∧ bs = []) ∨
      (∃ b us' bs', us = .byte b :: us' ∧ bs = b :: bs' ∧ bytes? us' = some bs') ∨
      ∃ c us' bs', us = (utf16 c).map .code ++ us' ∧ bs = String.utf8EncodeChar c ++ bs' ∧
        bytes? us' = some bs' := by
  match us, hus, h with
  | [], _, h =>
    cases h
    exact Or.inl ⟨rfl, rfl⟩
  | .byte b :: us, _, h =>
    obtain ⟨bs', hbs', rfl⟩ := Option.map_eq_some_iff.mp h
    exact Or.inr (Or.inl ⟨b, us, bs', rfl, rfl, hbs'⟩)
  | .code n :: us, hus, h =>
    right; right
    by_cases hhigh : isHighSurrogate n
    · match us, h with
      | .code m :: us, h =>
        by_cases hlow : isLowSurrogate m
        · rw [bytes?_pair hhigh hlow] at h
          obtain ⟨bs', hbs', rfl⟩ := Option.map_eq_some_iff.mp h
          exact ⟨pairedChar n m, us, bs', by rw [utf16_pairedChar hhigh hlow]; rfl, rfl, hbs'⟩
        · simp [bytes?, hhigh, hlow] at h
      | [], h | .byte _ :: _, h => simp [bytes?, hhigh] at h
    · by_cases hlow : isLowSurrogate n
      · rw [bytes?_low hlow] at h
        cases h
      · have hn : n < 0x10000 := hus n List.mem_cons_self
        simp only [Bool.not_eq_true] at hhigh hlow
        rw [bytes?_code hhigh hlow] at h
        obtain ⟨bs', hbs', rfl⟩ := Option.map_eq_some_iff.mp h
        exact ⟨Char.ofNat n, us, bs', by rw [utf16_ofNat hn hhigh hlow]; rfl, rfl, hbs'⟩

/-- Bytes that begin no character are written as bytes. -/
theorem map_byte_of_bytes? {x : List UInt8} (hx : ∀ d ∈ x, ¬ d.IsUTF8FirstByte) {us : JsonString}
    (hus : us.IsNarrow) {bs : List UInt8} (h : bytes? us = some (x ++ bs)) :
    ∃ us', us = x.map .byte ++ us' ∧ bytes? us' = some bs := by
  induction x generalizing us with
  | nil => exact ⟨us, rfl, h⟩
  | cons d x ih =>
    rcases bytes?_cases hus h with ⟨-, hnil⟩ | ⟨b, us', bs', rfl, hbs, h'⟩ | ⟨c, us', bs', -, hbs, -⟩
    · cases hnil
    · obtain ⟨rfl, rfl⟩ := List.cons.inj hbs
      obtain ⟨us'', rfl, h''⟩ := ih (fun e he => hx e (List.mem_cons_of_mem _ he))
        (IsNarrow.tail [_] hus) h'
      exact ⟨us'', rfl, h''⟩
    · obtain ⟨b, y, hc, hb, -⟩ := Text.utf8EncodeChar_eq_cons c
      rw [hc] at hbs
      obtain ⟨rfl, -⟩ := List.cons.inj hbs
      exact absurd hb (hx _ List.mem_cons_self)

/-- A string with the bytes of a text has the units of that text. -/
theorem denotes_of_bytes? {us : JsonString} (hus : us.IsNarrow) {t : Text}
    (h : bytes? us = some (Text.toUtf8 t)) : Denotes us t := by
  induction t generalizing us with
  | nil =>
    rcases bytes?_cases hus h with ⟨rfl, -⟩ | ⟨b, us', bs', -, hbs, -⟩ | ⟨c, us', bs', -, hbs, -⟩
    · exact .nil
    · cases hbs
    · exact absurd (List.append_eq_nil_iff.mp hbs.symm).1 String.utf8EncodeChar_ne_nil
  | cons c t ih =>
    rw [Text.toUtf8_cons] at h
    obtain ⟨b, x, hc, -, hx⟩ := Text.utf8EncodeChar_eq_cons c
    rcases bytes?_cases hus h with ⟨-, hnil⟩ | ⟨b', us', bs', rfl, hbs, h'⟩ | ⟨c', us', bs', rfl, hbs, h'⟩
    · exact absurd (List.append_eq_nil_iff.mp hnil).1 String.utf8EncodeChar_ne_nil
    · rw [hc] at hbs
      obtain ⟨rfl, rfl⟩ := List.cons.inj hbs
      obtain ⟨us'', rfl, h''⟩ := map_byte_of_bytes? hx (IsNarrow.tail [_] hus) h'
      have hchar := Denotes.bytes c (ih (IsNarrow.tail (_ :: x.map .byte) hus) h'')
      rwa [hc] at hchar
    · obtain ⟨rfl, rfl⟩ := Text.utf8EncodeChar_append_inj hbs
      exact .codes c (ih (IsNarrow.tail _ hus) h')

/-- **The text of a string is the one its units stand for.** -/
theorem decode?_eq_some_iff {us : JsonString} (hus : us.IsNarrow) {t : Text} :
    us.decode? = some t ↔ us.Denotes t := by
  rw [decode?, Option.bind_eq_some_iff]
  constructor
  · rintro ⟨bs, hbs, ht⟩
    exact denotes_of_bytes? hus (Text.ofUtf8?_eq_some_iff.mp ht ▸ hbs)
  · intro h
    exact ⟨_, h.bytes?_eq, Text.ofUtf8?_toUtf8 t⟩

end JsonString

/-- The units of a written string have 16 bits. -/
theorem Json.WrittenUnits.isNarrow {us : JsonString} {x : List UInt8} (h : WrittenUnits us x) :
    us.IsNarrow := by
  induction h with
  | nil => exact fun n hn => absurd hn List.not_mem_nil
  | plain _ _ ih | short _ _ ih =>
    intro n hn
    rcases List.mem_cons.mp hn with hn | hn
    · cases hn
    · exact ih n hn
  | code hcode _ ih =>
    intro n hn
    rcases List.mem_cons.mp hn with hn | hn
    · cases hn
      exact hexCode?_lt hcode
    · exact ih n hn

end DiceBot
