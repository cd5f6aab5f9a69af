import DiceBot.Proofs.Toml.Datetimes
import DiceBot.Proofs.Toml.Numbers

/-! # Values without parts are read back

A date and time is written as words with points, colons and plus signs between; they are taken together
again. With strings and numbers these are all values that hold no other values
(`readScalar_scalarText`). -/

namespace DiceBot.Toml

open Datetime (padded padded_spec dateText timeText fractionText offsetText partText)

variable {rest : Text}

/-! ### Words joined by marks -/

/-- A plain word of at least one character. -/
def IsWord (w : Text) : Prop := w ≠ [] ∧ ∀ c ∈ w, isWordChar c

/-- A mark and a word behind it, or nothing. -/
def IsMarked (mark : Char) (t : Text) : Prop := t = [] ∨ ∃ word, IsWord word ∧ t = mark :: word

theorem EndsWord.append {mark : Char} {t : Text} (hmark : isWordChar mark = false)
    (ht : IsMarked mark t) (h : EndsWord rest) : EndsWord (t ++ rest) := by
  rcases ht with rfl | ⟨word, -, rfl⟩
  · exact h
  · intro c hc
    obtain rfl := Option.some.inj hc
    exact hmark

theorem IsMarked.head?_append_ne {mark x : Char} {t : Text} (ht : IsMarked mark t) (hx : mark ≠ x)
    (h : rest.head? ≠ some x) : (t ++ rest).head? ≠ some x := by
  rcases ht with rfl | ⟨word, -, rfl⟩
  · exact h
  · exact fun heq => hx (Option.some.inj heq)

theorem readMarked_append {mark : Char} {word : Text} (h : IsWord word) (hend : EndsWord rest) :
    readMarked mark (mark :: (word ++ rest)) = some (mark :: word, rest) := by
  rw [readMarked, if_pos rfl, readWord_append h.1 h.2 hend]
  rfl

theorem readOptional_append {mark : Char} {t : Text} (ht : IsMarked mark t) (hend : EndsWord rest)
    (hne : rest.head? ≠ some mark) : readOptional mark (t ++ rest) = some (t, rest) := by
  rcases ht with rfl | ⟨word, hword, rfl⟩
  · exact if_neg hne
  · rw [List.cons_append, readOptional, List.head?_cons, if_pos rfl, readMarked_append hword hend]

/-- Minutes, seconds and what follows them behind marks are taken together. -/
theorem readClock_append {minutes seconds places plus colon : Text} (hm : IsWord minutes)
    (hs : IsWord seconds) (hp : IsMarked '.' places) (hplus : IsMarked '+' plus)
    (hcolon : IsMarked ':' colon) (hend : EndsValue rest) :
    readClock (':' :: (minutes ++ ':' :: (seconds ++ (places ++ (plus ++ (colon ++ rest)))))) =
      some (':' :: minutes ++ (':' :: seconds ++ (places ++ (plus ++ colon))), rest) := by
  have hend3 := hend.endsWord
  have hend2 := hend3.append (by decide) hcolon
  have hend1 := hend2.append (by decide) hplus
  have hend0 := hend1.append (by decide) hp
  have hne3 : rest.head? ≠ some ':' := hend.head?_ne (by decide) (by decide) (by decide)
  have hne2 : (colon ++ rest).head? ≠ some '+' :=
    hcolon.head?_append_ne (by decide) (hend.head?_ne (by decide) (by decide) (by decide))
  have hne1 : (plus ++ (colon ++ rest)).head? ≠ some '.' :=
    hplus.head?_append_ne (by decide) (hcolon.head?_append_ne (by decide)
      (hend.head?_ne (by decide) (by decide) (by decide)))
  have hmark : EndsWord (':' :: (seconds ++ (places ++ (plus ++ (colon ++ rest))))) := fun c hc => by
    obtain rfl := Option.some.inj hc
    decide
  rw [readClock, List.head?_cons, if_pos rfl, readMarked_append hm hmark]
  simp only [Option.bind_eq_bind, Option.bind_some, readMarked_append hs hend0,
    readOptional_append hp hend1 hne1, readOptional_append hplus hend2 hne2,
    readOptional_append hcolon hend3 hne3]
  simp

/-! ### The words of a date and time -/

theorem isWord_padded {width n : Nat} (hw : 0 < width) (hn : n < 10 ^ width) : IsWord (padded width n) := by
  obtain ⟨hlen, hdigit, -⟩ := padded_spec hw hn
  refine ⟨List.length_pos_iff.mp (by omega), fun c hc => isWordChar_of_isDigit (hdigit c hc)⟩

theorem isMarked_fractionText {n : Nat} (h : n < 1000000000) : IsMarked '.' (fractionText n) := by
  unfold fractionText
  split_ifs with h0
  · exact Or.inl rfl
  · obtain ⟨-, hdigit, hvalue⟩ := padded_spec (by decide) (show n < 10 ^ 9 from h)
    refine Or.inr ⟨_, ⟨fun hnil => ?_, fun c hc => ?_⟩, rfl⟩
    · have hmul := Text.digitsValue_eq_mul_pow (padded 9 n)
      rw [hnil, Text.digitsValue_nil, Nat.zero_mul, hvalue] at hmul
      exact h0 hmul
    · rw [List.mem_reverse] at hc
      have hmem := (List.dropWhile_suffix _).subset hc
      exact isWordChar_of_isDigit (hdigit c (List.mem_reverse.mp hmem))

/-- What follows the seconds belongs to their word or to that of the decimal places. -/
theorem exists_seconds {seconds places joined : Text} (hs : IsWord seconds) (hp : IsMarked '.' places)
    (hj : ∀ c ∈ joined, isWordChar c) :
    ∃ s p, IsWord s ∧ IsMarked '.' p ∧ seconds ++ (places ++ joined) = s ++ p := by
  have hword : ∀ {w : Text}, IsWord w → IsWord (w ++ joined) := fun {w} hw =>
    ⟨fun hnil => hw.1 (List.append_eq_nil_iff.mp hnil).1,
      fun c hc => (List.mem_append.mp hc).elim (hw.2 c) (hj c)⟩
  rcases hp with rfl | ⟨word, hw, rfl⟩
  · exact ⟨seconds ++ joined, [], hword hs, Or.inl rfl, by simp⟩
  · exact ⟨seconds, '.' :: (word ++ joined), hs, Or.inr ⟨_, hword hw, rfl⟩, by simp⟩

/-- An offset consists of a part that belongs to the word before it, and of words behind marks. -/
theorem exists_offset {o : Option TimeOffset} (h : ∀ x ∈ o, x.IsValid) :
    ∃ joined plus colon, (∀ c ∈ joined, isWordChar c) ∧ IsMarked '+' plus ∧ IsMarked ':' colon ∧
      partText offsetText o = joined ++ (plus ++ colon) := by
  rcases o with _ | _ | ⟨hours, minutes⟩
  · exact ⟨[], [], [], by simp, Or.inl rfl, Or.inl rfl, rfl⟩
  · exact ⟨['Z'], [], [], List.all_eq_true.mp rfl, Or.inl rfl, Or.inl rfl, rfl⟩
  · obtain ⟨hh, hm⟩ := h _ rfl
    have hhours := isWord_padded two_pos (show hours.natAbs < 10 ^ 2 from hh)
    have hminutes := isWord_padded two_pos (show minutes < 10 ^ 2 from hm)
    by_cases hneg : hours < 0
    · refine ⟨'-' :: padded 2 hours.natAbs, [], ':' :: padded 2 minutes, ?_, Or.inl rfl,
        Or.inr ⟨_, hminutes, rfl⟩, ?_⟩
      · exact List.forall_mem_cons.mpr ⟨by decide, hhours.2⟩
      · simp [partText, offsetText, hneg]
    · refine ⟨[], '+' :: padded 2 hours.natAbs, ':' :: padded 2 minutes, by simp,
        Or.inr ⟨_, hhours, rfl⟩, Or.inr ⟨_, hminutes, rfl⟩, ?_⟩
      simp [partText, offsetText, hneg]

/-- A time behind its hour, with its offset. -/
def clockText (t : ClockTime) (o : Option TimeOffset) : Text :=
  ':' :: (padded 2 t.minute ++ ':' :: (padded 2 t.second ++
    (fractionText t.nanosecond ++ partText offsetText o)))

theorem timeText_append_offset (t : ClockTime) (o : Option TimeOffset) :
    timeText t ++ partText offsetText o = padded 2 t.hour ++ clockText t o := by
  simp [timeText, clockText]

/-- A time behind its hour is taken together, with its offset. -/
theorem readClock_clockText {t : ClockTime} (ht : t.IsValid) {o : Option TimeOffset}
    (ho : ∀ x ∈ o, x.IsValid) (hend : EndsValue rest) :
    readClock (clockText t o ++ rest) = some (clockText t o, rest) := by
  obtain ⟨-, hm, hs, hn⟩ := ht
  obtain ⟨joined, plus, colon, hjoined, hplus, hcolon, hoffset⟩ := exists_offset ho
  obtain ⟨s, p, hword, hp, hsum⟩ :=
    exists_seconds (isWord_padded two_pos (show t.second < 10 ^ 2 by omega)) (isMarked_fractionText hn)
      hjoined
  have hclock : padded 2 t.second ++ (fractionText t.nanosecond ++ partText offsetText o) =
      s ++ (p ++ (plus ++ colon)) := by
    rw [hoffset, ← List.append_assoc (fractionText _), ← List.append_assoc (padded 2 _), hsum,
      List.append_assoc]
  have hread := readClock_append (isWord_padded two_pos (show t.minute < 10 ^ 2 by omega)) hword hp hplus
    hcolon hend
  rw [clockText, hclock]
  simpa using hread

/-- A time behind its hour begins with a colon. -/
theorem endsWord_clockText (t : ClockTime) (o : Option TimeOffset) (rest : Text) :
    EndsWord (clockText t o ++ rest) := fun c hc => by
  obtain rfl := Option.some.inj hc
  decide

/-! ### Dates and times -/

/-- A word and the words behind it that make up a date and time are read as that. -/
theorem readWordValue_datetime {word clock s : Text} {d : Datetime}
    (hhead : ∃ c ∈ word.head?, c = '-' ∨ c.isDigit)
    (hdate : 'T' ∈ word ∨ hasDash word ∨ s.head? = some ':') (hspace : s.head? ≠ some ' ')
    (hclock : readClock s = some (clock, rest)) (htext : Datetime.ofText? (word ++ clock) = some d) :
    readWordValue word s = some (.datetime d, rest) := by
  have hapart : readApart s = ([], s) := by
    unfold readApart
    split
    · exact absurd rfl hspace
    · rfl
  rw [readWordValue_of_head hhead, readNumberOrDate, if_pos]
  · simp only [readDatetime, hapart, hclock, List.append_nil, Option.bind_eq_bind, Option.bind_some,
      htext]
    rfl
  · simp only [Bool.or_eq_true, List.contains_iff_mem, decide_eq_true_eq]
    tauto

theorem hasPair_of_not_mem {a b : Char} {s : Text} (h : a ∉ s) : hasPair a b s = false := by
  induction s with
  | nil => rfl
  | cons x s ih =>
    rw [List.mem_cons, not_or] at h
    cases s with
    | nil => rfl
    | cons y s => simp [hasPair, Ne.symm h.1, ih h.2]

/-- The characters of a date. -/
theorem mem_dateText {d : CalendarDate} (h : d.IsValid) {c : Char} (hc : c ∈ dateText d) :
    c.isDigit ∨ c = '-' := by
  obtain ⟨hy, -, hm, -, hd⟩ := h
  have hyear := (padded_spec four_pos (show d.year < 10 ^ 4 from hy)).2.1
  have hmonth := (padded_spec two_pos (show d.month < 10 ^ 2 by omega)).2.1
  have hday := (padded_spec two_pos (show d.day < 10 ^ 2 by omega)).2.1
  simp only [dateText, List.mem_append, List.mem_cons] at hc
  rcases hc with (hc | hc | hc) | hc | hc
  · exact Or.inl (hyear c hc)
  · exact Or.inr hc
  · exact Or.inl (hmonth c hc)
  · exact Or.inr hc
  · exact Or.inl (hday c hc)

theorem isWordChar_dateText {d : CalendarDate} (h : d.IsValid) : ∀ c ∈ dateText d, isWordChar c := by
  intro c hc
  rcases mem_dateText h hc with hc | rfl
  · exact isWordChar_of_isDigit hc
  · decide

/-- A padded number begins with a digit. -/
theorem head?_padded_append {width n : Nat} (hw : 0 < width) (hn : n < 10 ^ width) (s : Text) :
    ∃ c ∈ (padded width n ++ s).head?, c = '-' ∨ c.isDigit := by
  obtain ⟨hlen, hdigit, -⟩ := padded_spec hw hn
  obtain ⟨c, ds, hc⟩ := List.exists_cons_of_ne_nil (List.length_pos_iff.mp (hlen ▸ hw))
  refine ⟨c, ?_, Or.inr (hdigit c (hc ▸ List.mem_cons_self ..))⟩
  rw [hc]
  rfl

theorem head?_dateText {d : CalendarDate} (h : d.IsValid) (s : Text) :
    ∃ c ∈ (dateText d ++ s).head?, c = '-' ∨ c.isDigit := by
  rw [dateText, List.append_assoc, List.append_assoc]
  exact head?_padded_append four_pos h.1 _

theorem hasDash_dateText {d : CalendarDate} (h : d.IsValid) : hasDash (dateText d) := by
  obtain ⟨hlen, -, -⟩ := padded_spec four_pos (show d.year < 10 ^ 4 from h.1)
  obtain ⟨c, ds, hc⟩ := List.exists_cons_of_ne_nil (List.length_pos_iff.mp (hlen ▸ four_pos))
  have hletter : ∀ x : Char, x.isDigit = false → x ≠ '-' → x ∉ dateText d := fun x hx hm hmem =>
    (mem_dateText h hmem).elim (fun hd => by rw [hx] at hd; cases hd) hm
  have htail : '-' ∈ (dateText d).tail := by
    rw [dateText, hc]
    simp
  simp [hasDash, htail, hasPair_of_not_mem (hletter 'e' (by decide) (by decide)),
    hasPair_of_not_mem (hletter 'E' (by decide) (by decide))]

theorem ne_nil_of_head? {word : Text} (h : ∃ c ∈ word.head?, c = '-' ∨ c.isDigit) : word ≠ [] := by
  rintro rfl
  obtain ⟨c, hc, -⟩ := h
  cases hc

/-- **A date and time is read back.** -/
theorem readScalar_display {d : Datetime} (h : d.IsValid) (hend : EndsValue rest) :
    readScalar (d.display ++ rest) = some (.datetime d, rest) := by
  have htext := Datetime.ofText?_display h
  cases h with
  | @date d hd =>
    have hdisplay : Datetime.display ⟨some d, none, none⟩ = dateText d := by
      simp [Datetime.display, partText]
    rw [hdisplay] at htext ⊢
    have hhead := head?_dateText hd []
    rw [List.append_nil] at hhead
    have hclock : readClock rest = some ([], rest) :=
      if_neg (hend.head?_ne (by decide) (by decide) (by decide))
    rw [readScalar_of_word (ne_nil_of_head? hhead) (isWordChar_dateText hd) hend.endsWord]
    exact readWordValue_datetime hhead (Or.inr (Or.inl (hasDash_dateText hd)))
      (hend.head?_ne (by decide) (by decide) (by decide)) hclock (by rw [List.append_nil, htext])
  | @time t ht =>
    have hdisplay : Datetime.display ⟨none, some t, none⟩ = padded 2 t.hour ++ clockText t none := by
      rw [← timeText_append_offset]
      simp [Datetime.display, partText]
    rw [hdisplay] at htext ⊢
    have hhour : t.hour < 10 ^ 2 := Nat.lt_of_le_of_lt ht.1 (by decide)
    have hhead := head?_padded_append two_pos hhour []
    rw [List.append_nil] at hhead
    rw [List.append_assoc, readScalar_of_word (isWord_padded two_pos hhour).1
      (isWord_padded two_pos hhour).2 (endsWord_clockText _ _ _)]
    exact readWordValue_datetime hhead (Or.inr (Or.inr rfl)) (by simp [clockText])
      (readClock_clockText ht (by simp) hend) htext
  | @both d t o hd ht ho =>
    have hdisplay : Datetime.display ⟨some d, some t, o⟩ =
        dateText d ++ 'T' :: padded 2 t.hour ++ clockText t o := by
      rw [List.append_assoc, List.cons_append, ← timeText_append_offset]
      simp [Datetime.display, partText]
    rw [hdisplay] at htext ⊢
    have hhour := isWord_padded two_pos (show t.hour < 10 ^ 2 from Nat.lt_of_le_of_lt ht.1 (by decide))
    have hhead := head?_dateText hd ('T' :: padded 2 t.hour)
    have hword : ∀ c ∈ dateText d ++ 'T' :: padded 2 t.hour, isWordChar c := fun c hc => by
      rcases List.mem_append.mp hc with hc | hc
      · exact isWordChar_dateText hd c hc
      · rcases List.mem_cons.mp hc with rfl | hc
        · decide
        · exact hhour.2 c hc
    rw [List.append_assoc, readScalar_of_word (ne_nil_of_head? hhead) hword (endsWord_clockText _ _ _)]
    exact readWordValue_datetime hhead (Or.inl (by simp)) (by simp [clockText])
      (readClock_clockText ht ho hend) htext

/-! ### All values without parts -/

/-- A value without parts, as it is read. -/
inductive IsScalar : Toml → Prop
  | string (s : Text) : IsScalar (.string s)
  | integer {n : Int} (hlow : -maxInteger - 1 ≤ n) (hhigh : n ≤ maxInteger) : IsScalar (.integer n)
  | float {x : Binary64} (h : IsReadable x) : IsScalar (.float x)
  | boolean (b : Bool) : IsScalar (.boolean b)
  | datetime {d : Datetime} (h : d.IsValid) : IsScalar (.datetime d)

theorem readScalar_boolean (b : Bool) (hend : EndsValue rest) :
    readScalar (scalarText (.boolean b) ++ rest) = some (.boolean b, rest) := by
  cases b <;>
    exact (readScalar_of_word (List.cons_ne_nil _ _) (List.all_eq_true.mp rfl) hend.endsWord).trans rfl

/-- **A value without parts is read back.** -/
theorem readScalar_scalarText {v : Toml} (h : IsScalar v) (hend : EndsValue rest) :
    readScalar (scalarText v ++ rest) = some (v, rest) := by
  cases h with
  | string s =>
    have hread := readString_stringText s fun c hc heq =>
      hend.head?_ne (c := '"') (by decide) (by decide) (by decide) (heq ▸ hc)
    show (readString (stringText s ++ rest)).map _ = _
    rw [hread]
    rfl
  | integer hlow hhigh => exact readScalar_ofInt hlow hhigh hend
  | float hx => exact readScalar_floatText hx hend
  | boolean b => exact readScalar_boolean b hend
  | datetime hd => exact readScalar_display hd hend

end DiceBot.Toml
