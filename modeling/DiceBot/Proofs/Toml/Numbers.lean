import DiceBot.Proofs.Decimal.Shortest
import DiceBot.Proofs.Toml.Strings

/-! # Numbers are read back

Integers and floating-point numbers are written as a sign and digits, a floating-point number with a
point between digits. What was written is read back as it was, if what follows ends the value. -/

namespace DiceBot.Toml

variable {neg : Bool} {ds rest : Text}

/-- What may follow a value: the end of the line, or the comma or bracket behind an item. -/
def EndsValue (rest : Text) : Prop := ∀ c ∈ rest.head?, c = '\n' ∨ c = ',' ∨ c = ']'

/-- What may follow a word: no further part of it. -/
def EndsWord (rest : Text) : Prop := ∀ c ∈ rest.head?, isWordChar c = false

theorem EndsValue.endsWord (h : EndsValue rest) : EndsWord rest := fun c hc => by
  rcases h c hc with rfl | rfl | rfl <;> decide

theorem EndsValue.head?_ne {c : Char} (h : EndsValue rest) (hn : c ≠ '\n') (hc : c ≠ ',')
    (hb : c ≠ ']') : rest.head? ≠ some c := fun heq => by
  rcases h c heq with rfl | rfl | rfl
  · exact hn rfl
  · exact hc rfl
  · exact hb rfl

/-! ### Runs of digits -/

theorem isWordChar_of_isDigit {c : Char} (h : c.isDigit) : isWordChar c := by
  simp [isWordChar, Char.isAlphanum, h]

theorem isRadixDigit_of_isDigit {c : Char} (h : c.isDigit) : isRadixDigit 10 c := by
  simp only [Char.isDigit, Bool.and_eq_true, decide_eq_true_eq, ge_iff_le, UInt32.le_iff_toNat_le] at h
  have hlow : '0' ≤ c := UInt32.le_iff_toNat_le.mpr h.1
  have hhigh : c ≤ '9' := UInt32.le_iff_toNat_le.mpr h.2
  have hvalue : c.toNat - 0x30 < 10 := by
    have : c.toNat ≤ 57 := h.2
    omega
  simp [isRadixDigit, Text.hexValue?, hlow, hhigh, hvalue]

theorem ne_of_isDigit {c x : Char} (h : c.isDigit) (hx : x.isDigit = false) : c ≠ x := by
  rintro rfl
  rw [h] at hx
  cases hx

theorem separated_of_isDigit (hne : ds ≠ []) (h : ∀ c ∈ ds, c.isDigit) : separated ds := by
  induction ds with
  | nil => exact absurd rfl hne
  | cons c ds ih =>
    obtain ⟨hc, hds⟩ := List.forall_mem_cons.mp h
    have hc' : c ≠ '_' := ne_of_isDigit hc (by decide)
    cases ds with
    | nil => simp [separated]
    | cons d ds =>
      have hd : d ≠ '_' := ne_of_isDigit (hds d (List.mem_cons_self ..)) (by decide)
      have hrest := ih (by simp) hds
      simpa [separated, hc', hd] using hrest

/-- A run of digits is read as a whole. -/
theorem readRun_of_isDigit {leadingZeros : Bool} (hne : ds ≠ []) (h : ∀ c ∈ ds, c.isDigit)
    (hzero : leadingZeros ∨ ds.length = 1 ∨ ds.head? ≠ some '0') :
    readRun 10 leadingZeros ds = some (ds, []) := by
  have hrun : digitRun 10 ds = ds :=
    List.takeWhile_eq_self_iff.mpr fun c hc => by simp [isRadixDigit_of_isDigit (h c hc)]
  have hdigits : runDigits ds = ds :=
    List.filter_eq_self.mpr fun c hc => decide_eq_true (ne_of_isDigit (h c hc) (by decide))
  simp only [readRun, hrun, hdigits, separated_of_isDigit hne h]
  rw [if_pos]
  · rw [List.drop_length]
  · simpa [or_assoc] using hzero

/-! ### Words of numbers -/

/-- The sign in front of a number. -/
def signText (neg : Bool) : Text := if neg then ['-'] else []

theorem isWordChar_number (h : ∀ c ∈ ds, c.isDigit) : ∀ c ∈ signText neg ++ ds, isWordChar c := by
  intro c hc
  rcases List.mem_append.mp hc with hc | hc
  · cases neg
    · cases hc
    · rw [List.mem_singleton.mp hc]
      decide
  · exact isWordChar_of_isDigit (h c hc)

theorem splitSign_number (hne : ds ≠ []) (h : ∀ c ∈ ds, c.isDigit) :
    splitSign (signText neg ++ ds) = (neg, ds) := by
  cases neg
  · obtain ⟨c, ds, rfl⟩ := List.exists_cons_of_ne_nil hne
    have hc : c ≠ '-' := ne_of_isDigit (h c (List.mem_cons_self ..)) (by decide)
    show splitSign (c :: ds) = _
    rw [splitSign]
    exact fun s hs => hc (List.cons.inj hs).1
  · rfl

/-- No letter stands in the word of a number. -/
theorem not_mem_number {x : Char} (hx : x.isDigit = false) (hm : x ≠ '-') (h : ∀ c ∈ ds, c.isDigit) :
    x ∉ signText neg ++ ds := fun hc => by
  rcases List.mem_append.mp hc with hc | hc
  · cases neg
    · cases hc
    · exact hm (List.mem_singleton.mp hc)
  · rw [h x hc] at hx
    cases hx

theorem hasDash_number (h : ∀ c ∈ ds, c.isDigit) : hasDash (signText neg ++ ds) = false := by
  have hminus : '-' ∉ ds := fun hc => absurd (h _ hc) (by decide)
  have htail : '-' ∉ (signText neg ++ ds).tail := by
    cases neg
    · exact fun hc => hminus (List.mem_of_mem_tail hc)
    · exact hminus
  simp [hasDash, htail]

/-- A value that begins with a word is read by that word. -/
theorem readScalar_of_word {word : Text} (hne : word ≠ []) (h : ∀ c ∈ word, isWordChar c)
    (hend : EndsWord rest) : readScalar (word ++ rest) = readWordValue word rest := by
  have hread := readWord_append hne h hend
  obtain ⟨c, word, rfl⟩ := List.exists_cons_of_ne_nil hne
  have hc := h c (List.mem_cons_self ..)
  rw [List.cons_append] at hread ⊢
  unfold readScalar
  split
  case h_4 => rw [hread]
  all_goals
    rename_i heq
    rw [(List.cons.inj heq).1] at hc
    exact absurd hc (by decide)

/-- A word that begins like a number is read as a number or a date. -/
theorem readWordValue_of_head {word : Text} (h : ∃ c ∈ word.head?, c = '-' ∨ c.isDigit) (s : Text) :
    readWordValue word s = readNumberOrDate word s := by
  obtain ⟨c, hc, hnum⟩ := h
  cases word with
  | nil => cases hc
  | cons x word =>
    obtain rfl := Option.some.inj hc
    have hne : ∀ (y : Char) (t : Text), y.isDigit = false → y ≠ '-' → x :: word ≠ y :: t := by
      intro y t hdigit hminus heq
      obtain ⟨rfl, rfl⟩ := List.cons.inj heq
      rcases hnum with rfl | hnum
      · exact hminus rfl
      · rw [hdigit] at hnum
        cases hnum
    have htrue : x :: word ≠ "true".toList := hne 't' _ rfl (by decide)
    have hfalse : x :: word ≠ "false".toList := hne 'f' _ rfl (by decide)
    have hinf : x :: word ≠ "inf".toList := hne 'i' _ rfl (by decide)
    have hnan : x :: word ≠ "nan".toList := hne 'n' _ rfl (by decide)
    simp only [readWordValue, htrue, hfalse, hinf, hnan, if_false, or_false, hnum, if_true]

/-- **A sign and digits are read as a number.** -/
theorem readScalar_number (hne : ds ≠ []) (h : ∀ c ∈ ds, c.isDigit) (hend : EndsWord rest)
    (hcolon : rest.head? ≠ some ':') :
    readScalar (signText neg ++ ds ++ rest) = readNumber (signText neg ++ ds) rest := by
  have hhead : ∃ c ∈ (signText neg ++ ds).head?, c = '-' ∨ c.isDigit := by
    obtain ⟨c, ds, rfl⟩ := List.exists_cons_of_ne_nil hne
    cases neg
    · exact ⟨c, rfl, Or.inr (h c (List.mem_cons_self ..))⟩
    · exact ⟨'-', rfl, Or.inl rfl⟩
  have hT : 'T' ∉ signText neg ++ ds := not_mem_number (by decide) (by decide) h
  have ht : 't' ∉ signText neg ++ ds := not_mem_number (by decide) (by decide) h
  rw [readScalar_of_word (by simp [hne]) (isWordChar_number h) hend, readWordValue_of_head hhead,
    readNumberOrDate, if_neg]
  simp only [Bool.or_eq_true, List.contains_iff_mem, decide_eq_true_eq, hasDash_number h, hT, ht, hcolon]
  simp

/-- A sign and digits are no word with any other character. -/
theorem number_ne (h : ∀ c ∈ ds, c.isDigit) {t : Text} (ht : ∃ x ∈ t, x.isDigit = false ∧ x ≠ '-') :
    signText neg ++ ds ≠ t := by
  obtain ⟨x, hx, hdigit, hminus⟩ := ht
  rintro rfl
  exact not_mem_number hdigit hminus h hx

theorem not_any_exponent_number (h : ∀ c ∈ ds, c.isDigit) :
    ¬ (signText neg ++ ds).any fun c => c = 'e' || c = 'E' := by
  rw [List.any_eq_true]
  rintro ⟨c, hc, he⟩
  rcases (by simpa using he : c = 'e' ∨ c = 'E') with rfl | rfl
  · exact not_mem_number (by decide) (by decide) h hc
  · exact not_mem_number (by decide) (by decide) h hc

/-- Digits in front of a point are the whole part of a floating-point number. -/
theorem readNumber_point (h : ∀ c ∈ ds, c.isDigit) (s : Text) :
    readNumber (signText neg ++ ds) ('.' :: s) = readPointFloat (signText neg ++ ds) s := by
  unfold readNumber
  split
  · exact absurd ‹_› (number_ne h ⟨'x', by simp, by decide⟩)
  · exact absurd ‹_› (number_ne h ⟨'o', by simp, by decide⟩)
  · exact absurd ‹_› (number_ne h ⟨'b', by simp, by decide⟩)
  · exact if_neg (not_any_exponent_number h)

/-- Digits without a point behind them are an integer. -/
theorem readNumber_whole (h : ∀ c ∈ ds, c.isDigit) {s : Text} (hs : s.head? ≠ some '.') :
    readNumber (signText neg ++ ds) s = (decimalInteger? (signText neg ++ ds)).map fun v => (v, s) := by
  unfold readNumber
  split
  · exact absurd ‹_› (number_ne h ⟨'x', by simp, by decide⟩)
  · exact absurd ‹_› (number_ne h ⟨'o', by simp, by decide⟩)
  · exact absurd ‹_› (number_ne h ⟨'b', by simp, by decide⟩)
  · rw [if_neg (not_any_exponent_number h)]
    split
    · exact absurd rfl hs
    · rw [if_neg (number_ne h ⟨'i', by decide⟩), if_neg (number_ne h ⟨'i', by decide⟩),
        if_neg (number_ne h ⟨'n', by decide⟩), if_neg (number_ne h ⟨'n', by decide⟩)]

/-! ### Integers -/

theorem ofInt_eq (n : Int) : Text.ofInt n = signText (n < 0) ++ Text.ofNat n.natAbs := by
  cases n with
  | ofNat n => simp [Text.ofInt, signText]
  | negSucc n => simp [Text.ofInt, signText, Int.negSucc_lt_zero]

theorem length_or_head?_ofNat (n : Nat) : (Text.ofNat n).length = 1 ∨ (Text.ofNat n).head? ≠ some '0' := by
  rcases Nat.eq_zero_or_pos n with rfl | hn
  · exact Or.inl rfl
  · exact Or.inr (Text.head?_ofNat_ne hn)

/-- **An integer of 64 bits is read back.** -/
theorem readScalar_ofInt {n : Int} (hlow : -maxInteger - 1 ≤ n) (hhigh : n ≤ maxInteger)
    (hend : EndsValue rest) : readScalar (Text.ofInt n ++ rest) = some (.integer n, rest) := by
  have hdigits : ∀ c ∈ Text.ofNat n.natAbs, c.isDigit := fun c hc => Text.isDigit_of_mem_ofNat hc
  have hne : Text.ofNat n.natAbs ≠ [] := Text.ofNat_ne_nil _
  have hsigned : signed (n < 0) n.natAbs = n := by
    unfold signed
    simp only [decide_eq_true_eq]
    split_ifs <;> omega
  have hinteger : decimalInteger? (signText (n < 0) ++ Text.ofNat n.natAbs) = some (.integer n) := by
    rw [decimalInteger?, splitSign_number hne hdigits]
    simp only [readRun_of_isDigit hne hdigits (Or.inr (length_or_head?_ofNat _)),
      Text.digitsValue_ofNat, hsigned]
    rw [integerOf?, if_pos ⟨hlow, hhigh⟩]
  have hcolon : rest.head? ≠ some ':' := hend.head?_ne (by decide) (by decide) (by decide)
  have hpoint : rest.head? ≠ some '.' := hend.head?_ne (by decide) (by decide) (by decide)
  rw [ofInt_eq, readScalar_number hne hdigits hend.endsWord hcolon, readNumber_whole hdigits hpoint,
    hinteger]
  rfl

/-! ### Floating-point numbers -/

/-- A floating-point number as it is read: finite, or an infinity or no number of one kind. -/
inductive IsReadable : Binary64 → Prop
  | finite {x : Binary64} (h : x.isFinite) : IsReadable x
  | infinity (negative : Bool) : IsReadable (.infinity negative)
  | nan (negative : Bool) : IsReadable (.nan negative)

/-- Digits with a point between are read as the nearest number. -/
theorem readScalar_point {whole places : Text} (hwhole : ∀ c ∈ whole, c.isDigit) (hne : whole ≠ [])
    (hzero : whole.length = 1 ∨ whole.head? ≠ some '0') (hplaces : ∀ c ∈ places, c.isDigit)
    (hne' : places ≠ []) (hend : EndsValue rest) :
    readScalar (signText neg ++ whole ++ '.' :: (places ++ rest)) =
      (floatOf? neg whole places 0).map fun v => (v, rest) := by
  have hpoint : EndsWord ('.' :: (places ++ rest)) := fun c hc => by
    obtain rfl := Option.some.inj hc
    decide
  have hword : readWord (places ++ rest) = some (places, rest) :=
    readWord_append hne' (fun c hc => isWordChar_of_isDigit (hplaces c hc)) hend.endsWord
  rw [readScalar_number hne hwhole hpoint (by simp), readNumber_point hwhole]
  simp only [readPointFloat, hword, splitSign_number hne hwhole,
    readRun_of_isDigit hne hwhole (Or.inr hzero), readRun_of_isDigit hne' hplaces (Or.inl rfl),
    Option.bind_eq_bind, Option.bind_some]
  rfl

/-- A finite number is written as digits with a point between that stand for it. -/
theorem exists_floatText {x : Binary64} (hf : x.isFinite) :
    ∃ whole places, floatText x = signText x.isNegative ++ whole ++ '.' :: places ∧
      (∀ c ∈ whole, c.isDigit) ∧ (∀ c ∈ places, c.isDigit) ∧ whole ≠ [] ∧ places ≠ [] ∧
      (whole.length = 1 ∨ whole.head? ≠ some '0') ∧
      Binary64.ofDecimal x.isNegative (Text.digitsValue (whole ++ places)) (-places.length) = x := by
  have hnan : x.isNaN = false := by
    simp only [Binary64.isFinite, Binary64.isNaN, decide_eq_true_eq, decide_eq_false_iff_not] at *
    omega
  have hinf : x.isInfinite = false := by
    simp only [Binary64.isFinite, Binary64.isInfinite, decide_eq_true_eq, decide_eq_false_iff_not] at *
    omega
  have hsign : (if x.isNegative then ['-'] else []) = signText x.isNegative := rfl
  cases hz : x.isZero with
  | true =>
    have hm : x.magnitude = 0 := by simpa [Binary64.isZero] using hz
    have hdigit : ∀ c ∈ ['0'], c.isDigit := List.all_eq_true.mp rfl
    refine ⟨['0'], ['0'], ?_, hdigit, hdigit, by simp, by simp, Or.inl rfl, ?_⟩
    · simp only [floatText, hnan, hinf, hz, hsign]
      simp
    · have hx := Binary64.ofMagnitude_magnitude x
      rw [hm] at hx
      exact hx
  | false =>
    obtain ⟨whole, places, htext, hspells⟩ :=
      Binary64.exists_positional (Binary64.digits_shortest_pos hz hf)
    refine ⟨whole, places, ?_, hspells.isDigit_whole, hspells.isDigit_places, hspells.whole_ne_nil,
      hspells.places_ne_nil, hspells.no_leading_zero, ?_⟩
    · simp only [floatText, hnan, hinf, hz, hsign]
      simp only [Bool.false_eq_true, if_false, List.append_assoc, htext]
    · have hback := Binary64.readsBack_iff.mp (Binary64.readsBack_shortest hz hf)
      rw [hspells.ofDecimal_eq, Binary64.ofDecimal_eq, hback, Binary64.ofMagnitude_magnitude]

theorem readScalar_float_finite {x : Binary64} (hf : x.isFinite) (hend : EndsValue rest) :
    readScalar (floatText x ++ rest) = some (.float x, rest) := by
  obtain ⟨whole, places, htext, hwhole, hplaces, hne, hne', hzero, hvalue⟩ := exists_floatText hf
  rw [htext, List.append_assoc, List.cons_append,
    readScalar_point hwhole hne hzero hplaces hne' hend]
  simp only [floatOf?, zero_sub, hvalue]
  rw [if_pos hf]
  rfl

/-- A word for an infinity or for no number is read as such. -/
theorem readScalar_special {word : Text} {x : Binary64}
    (hword : (word, x) ∈ [("inf".toList, .infinity false), ("-inf".toList, .infinity true),
      ("nan".toList, .nan false), ("-nan".toList, .nan true)]) (hend : EndsValue rest) :
    readScalar (word ++ rest) = some (.float x, rest) := by
  simp only [List.mem_cons, Prod.mk.injEq, List.not_mem_nil, or_false] at hword
  cases rest with
  | nil => rcases hword with ⟨rfl, rfl⟩ | ⟨rfl, rfl⟩ | ⟨rfl, rfl⟩ | ⟨rfl, rfl⟩ <;> rfl
  | cons c rest =>
    rcases hend c rfl with rfl | rfl | rfl <;>
      rcases hword with ⟨rfl, rfl⟩ | ⟨rfl, rfl⟩ | ⟨rfl, rfl⟩ | ⟨rfl, rfl⟩ <;> rfl

/-- **A floating-point number is read back.** -/
theorem readScalar_floatText {x : Binary64} (h : IsReadable x) (hend : EndsValue rest) :
    readScalar (floatText x ++ rest) = some (.float x, rest) := by
  cases h with
  | finite hf => exact readScalar_float_finite hf hend
  | infinity negative => cases negative <;> exact readScalar_special (by decide) hend
  | nan negative => cases negative <;> exact readScalar_special (by decide) hend

end DiceBot.Toml
