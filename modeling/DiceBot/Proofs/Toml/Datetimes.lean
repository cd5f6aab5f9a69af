import DiceBot.Toml.Datetime
import DiceBot.Proofs.Text.Digits
import DiceBot.Proofs.Text.Runs

/-! # Dates and times are read back

The fields of a date and time that was read are within their ranges (`isValid_of_ofText?`), and such a
date and time is read back from the text it is written with (`ofText?_display`). -/

namespace DiceBot

/-! ### Ranges -/

/-- The fields of a date are within their ranges. -/
def CalendarDate.IsValid (d : CalendarDate) : Prop :=
  d.year < 10000 ∧ 1 ≤ d.month ∧ d.month ≤ 12 ∧ 1 ≤ d.day ∧ d.day ≤ 31

/-- The fields of a time are within their ranges. -/
def ClockTime.IsValid (t : ClockTime) : Prop :=
  t.hour ≤ 24 ∧ t.minute ≤ 59 ∧ t.second ≤ 59 ∧ t.nanosecond < 1000000000

/-- The fields of an offset have at most two digits. -/
def TimeOffset.IsValid : TimeOffset → Prop
  | .utc => True
  | .custom hours minutes => hours.natAbs < 100 ∧ minutes < 100

namespace Datetime

/-- The parts of a date and time are such as stand together, and within their ranges. -/
inductive IsValid : Datetime → Prop
  | date {d : CalendarDate} (hd : d.IsValid) : IsValid ⟨some d, none, none⟩
  | time {t : ClockTime} (ht : t.IsValid) : IsValid ⟨none, some t, none⟩
  | both {d : CalendarDate} {t : ClockTime} {o : Option TimeOffset} (hd : d.IsValid) (ht : t.IsValid)
      (ho : ∀ x ∈ o, x.IsValid) : IsValid ⟨some d, some t, o⟩

variable {s rest : Text}

/-! ### Numbers -/

/-- A padded number has the digits and the value of the number. -/
theorem padded_spec {width n : Nat} (hw : 0 < width) (hn : n < 10 ^ width) :
    (padded width n).length = width ∧ (∀ c ∈ padded width n, c.isDigit) ∧
      Text.digitsValue (padded width n) = n := by
  have hlen : (Text.ofNat n).length ≤ width := (Nat.length_toDigits_le_iff (by decide) hw).mpr hn
  refine ⟨?_, fun c hc => ?_, ?_⟩
  · rw [padded, List.length_append, List.length_replicate]
    omega
  · rcases List.mem_append.mp hc with hc | hc
    · rw [List.eq_of_mem_replicate hc]
      decide
    · exact Text.isDigit_of_mem_ofNat hc
  · rw [padded, Text.digitsValue_zeros_append, Text.digitsValue_ofNat]

theorem readTwo_append {t : Text} (hlen : t.length = 2) (hdigit : ∀ c ∈ t, c.isDigit) (rest : Text) :
    readTwo (t ++ rest) = some (Text.digitsValue t, rest) := by
  match t, hlen with
  | [a, b], _ =>
    simp only [List.forall_mem_cons] at hdigit
    simp [readTwo, hdigit]

theorem readTwo_padded {n : Nat} (h : n < 100) (rest : Text) :
    readTwo (padded 2 n ++ rest) = some (n, rest) := by
  obtain ⟨hlen, hdigit, hvalue⟩ := padded_spec two_pos (show n < 10 ^ 2 from h)
  rw [readTwo_append hlen hdigit, hvalue]

theorem readFour_padded {n : Nat} (h : n < 10000) (rest : Text) :
    readFour (padded 4 n ++ rest) = some (n, rest) := by
  obtain ⟨hlen, hdigit, hvalue⟩ := padded_spec four_pos (show n < 10 ^ 4 from h)
  match hp : padded 4 n, hlen with
  | [a, b, c, d], _ =>
    rw [hp] at hdigit hvalue
    simp only [List.forall_mem_cons] at hdigit
    have hsum : Text.digitsValue [a, b] * 100 + Text.digitsValue [c, d] = n := by
      rw [← hvalue, show [a, b, c, d] = [a, b] ++ [c, d] from rfl, Text.digitsValue_append]
      rfl
    simp [readFour, readTwo, hdigit, hsum]

theorem readTwo_eq_some {n : Nat} (h : readTwo s = some (n, rest)) : n < 100 := by
  unfold readTwo at h
  split at h
  · rename_i a b t
    split_ifs at h with hdigit
    obtain ⟨rfl, -⟩ := Prod.mk.inj (Option.some.inj h)
    rw [Bool.and_eq_true] at hdigit
    exact Text.digitsValue_lt (s := [a, b]) (by simp [hdigit])
  · cases h

theorem readFour_eq_some {n : Nat} (h : readFour s = some (n, rest)) : n < 10000 := by
  simp only [readFour, Option.bind_eq_bind, Option.bind_eq_some_iff, Prod.exists] at h
  obtain ⟨a, s1, ha, b, s2, hb, h⟩ := h
  have h1 := readTwo_eq_some ha
  have h2 := readTwo_eq_some hb
  obtain ⟨rfl, -⟩ := Prod.mk.inj (Option.some.inj h)
  omega

theorem expect_self (c : Char) (s : Text) : expect c (c :: s) = some s := if_pos rfl

/-! ### Dates -/

theorem readDate_dateText {d : CalendarDate} (h : d.IsValid) (rest : Text) :
    readDate (dateText d ++ rest) = some (d, rest) := by
  obtain ⟨hy, hm, hm', hd, hd'⟩ := h
  have hrange : 1 ≤ d.month ∧ d.month ≤ 12 ∧ 1 ≤ d.day ∧ d.day ≤ 31 := ⟨hm, hm', hd, hd'⟩
  rw [dateText, List.append_assoc, List.cons_append, List.append_assoc, List.cons_append, readDate,
    readFour_padded hy]
  simp only [Option.bind_eq_bind, Option.bind_some, expect_self,
    readTwo_padded (show d.month < 100 by omega), readTwo_padded (show d.day < 100 by omega)]
  rw [if_pos hrange]

theorem isValid_of_readDate {d : CalendarDate} (h : readDate s = some (d, rest)) : d.IsValid := by
  simp only [readDate, Option.bind_eq_bind, Option.bind_eq_some_iff, Prod.exists] at h
  obtain ⟨y, s1, hy, s2, -, m, s3, -, s4, -, day, s5, -, h⟩ := h
  split_ifs at h with hrange
  obtain ⟨rfl, -⟩ := Prod.mk.inj (Option.some.inj h)
  exact ⟨readFour_eq_some hy, hrange⟩

/-! ### Times -/

/-- What may follow a time: neither a digit nor a point. -/
def EndsTime (rest : Text) : Prop := ∀ c ∈ rest.head?, c.isDigit = false ∧ c ≠ '.'

theorem readFraction_fractionText {n : Nat} (h : n < 1000000000) (hend : EndsTime rest) :
    readFraction (fractionText n ++ rest) = some (n, rest) := by
  have hdigits : ∀ c ∈ rest.head?, c.isDigit = false := fun c hc => (hend c hc).1
  unfold fractionText
  split_ifs with h0
  · subst h0
    rw [List.nil_append]
    unfold readFraction
    split
    · exact absurd rfl (hend '.' rfl).2
    · rfl
  · obtain ⟨hlen, hdigit, hvalue⟩ := padded_spec (by decide) (show n < 10 ^ 9 from h)
    have hsplit := Text.eq_append_zeros (padded 9 n)
    have hmul := Text.digitsValue_eq_mul_pow (padded 9 n)
    rw [hvalue] at hmul
    generalize ((padded 9 n).reverse.takeWhile (· = '0')).length = z at *
    generalize ((padded 9 n).reverse.dropWhile (· = '0')).reverse = t at *
    have hsum : t.length + z = 9 := by
      rw [← hlen, hsplit, List.length_append, List.length_replicate]
    have ht : ∀ c ∈ t, c.isDigit := fun c hc => hdigit c (hsplit ▸ List.mem_append_left _ hc)
    have hne : t ≠ [] := by
      rintro rfl
      rw [Text.digitsValue_nil, Nat.zero_mul] at hmul
      exact h0 hmul
    have hvalue : nanoseconds t = n := by
      rw [nanoseconds, List.take_of_length_le (by omega), show 9 - t.length = z by omega, Nat.pow_eq,
        ← hmul]
    rw [List.cons_append, readFraction, Text.takeWhile_run_append ht hdigits,
      Text.dropWhile_run_append ht hdigits, if_neg hne, hvalue]

theorem nanoseconds_lt {places : Text} (h : ∀ c ∈ places, c.isDigit) : nanoseconds places < 1000000000 := by
  have hlt := Text.digitsValue_lt (s := places.take 9) fun c hc => h c (List.mem_of_mem_take hc)
  rw [List.length_take] at hlt
  calc nanoseconds places = Text.digitsValue (places.take 9) * 10 ^ (9 - places.length) := rfl
    _ < 10 ^ min 9 places.length * 10 ^ (9 - places.length) :=
      Nat.mul_lt_mul_of_pos_right hlt (Nat.pow_pos (by decide))
    _ = 10 ^ 9 := by rw [← Nat.pow_add, show min 9 places.length + (9 - places.length) = 9 by omega]

theorem readTime_timeText {t : ClockTime} (h : t.IsValid) (hend : EndsTime rest) :
    readTime (timeText t ++ rest) = some (t, rest) := by
  obtain ⟨hh, hm, hs, hn⟩ := h
  have hrange : t.hour ≤ 24 ∧ t.minute ≤ 59 ∧ t.second ≤ 59 := ⟨hh, hm, hs⟩
  have htext : timeText t ++ rest = padded 2 t.hour ++ ':' :: (padded 2 t.minute ++
      ':' :: (padded 2 t.second ++ (fractionText t.nanosecond ++ rest))) := by
    simp [timeText]
  rw [htext, readTime, readTwo_padded (show t.hour < 100 by omega)]
  simp only [Option.bind_eq_bind, Option.bind_some, expect_self,
    readTwo_padded (show t.minute < 100 by omega), readTwo_padded (show t.second < 100 by omega),
    readFraction_fractionText hn hend]
  rw [if_pos hrange]

theorem isValid_of_readTime {t : ClockTime} (h : readTime s = some (t, rest)) : t.IsValid := by
  simp only [readTime, Option.bind_eq_bind, Option.bind_eq_some_iff, Prod.exists] at h
  obtain ⟨hh, s1, -, s2, -, m, s3, -, s4, -, sec, s5, -, ns, s6, hns, h⟩ := h
  split_ifs at h with hrange
  obtain ⟨rfl, -⟩ := Prod.mk.inj (Option.some.inj h)
  refine ⟨hrange.1, hrange.2.1, hrange.2.2, ?_⟩
  unfold readFraction at hns
  split at hns
  · dsimp only at hns
    split_ifs at hns
    obtain ⟨rfl, -⟩ := Prod.mk.inj (Option.some.inj hns)
    exact nanoseconds_lt fun c hc => List.mem_takeWhile_imp hc
  · obtain ⟨rfl, -⟩ := Prod.mk.inj (Option.some.inj hns)
    exact Nat.succ_pos _

/-! ### Offsets -/

theorem readHours_padded {hours minutes : Nat} (hh : hours < 100) (hm : minutes < 100) (sign : Int) :
    readHours sign (padded 2 hours ++ ':' :: padded 2 minutes) =
      some (.custom (sign * hours) minutes, []) := by
  have hread := readTwo_padded hm []
  rw [List.append_nil] at hread
  rw [readHours, readTwo_padded hh]
  simp only [Option.bind_eq_bind, Option.bind_some, expect_self, hread]
  rfl

theorem readOffset?_offsetText {o : TimeOffset} (h : o.IsValid) :
    readOffset? (offsetText o) = some (some o) := by
  cases o with
  | utc => rfl
  | custom hours minutes =>
    simp only [offsetText]
    split_ifs with hneg
    · have hsign : -1 * (hours.natAbs : Int) = hours := by omega
      simp only [readOffset?, List.cons_append]
      rw [readHours_padded h.1 h.2, hsign]
    · have hsign : 1 * (hours.natAbs : Int) = hours := by omega
      simp only [readOffset?, List.cons_append]
      rw [readHours_padded h.1 h.2, hsign]

theorem isValid_of_readHours {sign : Int} (hsign : sign.natAbs = 1) {o : TimeOffset}
    (h : readHours sign s = some (o, rest)) : o.IsValid := by
  simp only [readHours, Option.bind_eq_bind, Option.bind_eq_some_iff, Prod.exists] at h
  obtain ⟨hh, s1, hhours, s2, -, m, s3, hm, h⟩ := h
  obtain ⟨rfl, -⟩ := Prod.mk.inj (Option.some.inj h)
  refine ⟨?_, readTwo_eq_some hm⟩
  rw [Int.natAbs_mul, hsign, Nat.one_mul]
  exact readTwo_eq_some hhours

theorem isValid_of_readOffset? {o : Option TimeOffset} (h : readOffset? s = some o) :
    ∀ x ∈ o, x.IsValid := by
  unfold readOffset? at h
  split at h
  · cases h
    simp
  · cases h
    simp [TimeOffset.IsValid]
  · cases h
    simp [TimeOffset.IsValid]
  · split at h
    · rename_i hread
      cases h
      simpa using isValid_of_readHours rfl hread
    · cases h
  · split at h
    · rename_i hread
      cases h
      simpa using isValid_of_readHours rfl hread
    · cases h
  · cases h

/-- An offset, or nothing, may follow a time. -/
theorem endsTime_offset (o : Option TimeOffset) : EndsTime (partText offsetText o) := by
  intro c hc
  cases o with
  | none => cases hc
  | some o =>
    cases o with
    | utc =>
      obtain rfl := Option.some.inj hc
      decide
    | custom hours minutes =>
      obtain rfl := Option.some.inj hc
      split_ifs <;> decide

/-! ### All of a date and time -/

/-- **What is read is within its ranges.** -/
theorem isValid_of_ofText? {d : Datetime} (h : ofText? s = some d) : d.IsValid := by
  unfold ofText? at h
  split at h
  · split at h
    · rename_i ht
      cases h
      exact .time (isValid_of_readTime ht)
    · cases h
  · split at h
    · rename_i date rest hdate
      have hvalid := isValid_of_readDate hdate
      unfold afterDate? at h
      split at h
      · cases h
        exact .date hvalid
      · split_ifs at h
        simp only [Option.bind_eq_bind, Option.bind_eq_some_iff, Prod.exists] at h
        obtain ⟨t, s1, ht, o, ho, h⟩ := h
        cases h
        exact .both hvalid (isValid_of_readTime ht) (isValid_of_readOffset? ho)
    · cases h

theorem ofText?_dateText {d : CalendarDate} (h : d.IsValid) (rest : Text) :
    ofText? (dateText d ++ rest) = afterDate? d rest := by
  obtain ⟨hlen, hdigit, -⟩ := padded_spec four_pos (show d.year < 10 ^ 4 from h.1)
  have hread := readDate_dateText h rest
  have hthird : ∀ a b s, dateText d ++ rest ≠ a :: b :: ':' :: s := fun a b s heq => by
    match hp : padded 4 d.year, hlen with
    | [_, _, c, _], _ =>
      rw [dateText, hp] at heq
      simp only [List.cons_append, List.cons.injEq] at heq
      have hc := hdigit c (by simp [hp])
      rw [heq.2.2.1] at hc
      cases hc
  rw [ofText?]
  · rw [hread]
  · exact fun a b s heq => hthird a b s heq

theorem ofText?_timeText {t : ClockTime} (h : t.IsValid) :
    ofText? (timeText t) = some ⟨none, some t, none⟩ := by
  obtain ⟨hlen, -, -⟩ := padded_spec two_pos
    (show t.hour < 10 ^ 2 from Nat.lt_of_le_of_lt h.1 (by decide))
  have hread := readTime_timeText h (show EndsTime [] by simp [EndsTime])
  rw [List.append_nil] at hread
  match hp : padded 2 t.hour, hlen with
  | [a, b], _ =>
    have htext : ∃ s, timeText t = a :: b :: ':' :: s := ⟨_, by rw [timeText, hp]; rfl⟩
    obtain ⟨s, hs⟩ := htext
    rw [hs] at hread ⊢
    rw [ofText?, hread]

/-- **A date and time is read back from its text.** -/
theorem ofText?_display {d : Datetime} (h : d.IsValid) : ofText? d.display = some d := by
  cases h with
  | @date d hd =>
    have htext : display ⟨some d, none, none⟩ = dateText d ++ [] := by simp [display, partText]
    rw [htext, ofText?_dateText hd]
    rfl
  | @time t ht =>
    have htext : display ⟨none, some t, none⟩ = timeText t := by simp [display, partText]
    rw [htext, ofText?_timeText ht]
  | @both d t o hd ht ho =>
    have htext : display ⟨some d, some t, o⟩ =
        dateText d ++ 'T' :: (timeText t ++ partText offsetText o) := by
      simp [display, partText]
    have hoffset : readOffset? (partText offsetText o) = some o := by
      cases o with
      | none => rfl
      | some o => exact readOffset?_offsetText (ho o rfl)
    rw [htext, ofText?_dateText hd, afterDate?, if_pos (Or.inl rfl),
      readTime_timeText ht (endsTime_offset o)]
    simp [hoffset]

end Datetime

end DiceBot
