import DiceBot.Json.Reader
import DiceBot.Proofs.Text.Runs

/-! # Scalars in JSON

The literals of the values without parts: three words, and numbers, which are a sign, a whole part, a
fraction and an exponent. A number goes on as long as it can, so it is read back only if what follows
does not continue it (`EndsNumber`). -/

namespace DiceBot.Json

variable {x ds s rest : List UInt8}

/-! ### Digits -/

/-- Decimal digits, at least one. -/
def Digits (ds : List UInt8) : Prop := ds ≠ [] ∧ ∀ b ∈ ds, isDigit b

theorem readDigits_append (h : Digits ds) (hrest : ∀ b ∈ rest.head?, isDigit b = false) :
    readDigits (ds ++ rest) = some (ds, rest) := by
  rw [readDigits, Text.takeWhile_run_append h.2 hrest, Text.dropWhile_run_append h.2 hrest, if_neg h.1]

theorem digits_of_readDigits (h : readDigits s = some (ds, rest)) : Digits ds ∧ s = ds ++ rest := by
  unfold readDigits at h
  split at h
  · cases h
  · next hne =>
    cases h
    exact ⟨⟨hne, fun b => List.mem_takeWhile_imp⟩, List.takeWhile_append_dropWhile.symm⟩

/-! ### The parts of a number -/

/-- A single zero, or digits that do not begin with one. -/
def IsWhole (x : List UInt8) : Prop := x = [zero] ∨ Digits x ∧ ∀ b ∈ x.head?, b ≠ zero

/-- Nothing, or a point and digits. -/
def IsFraction (x : List UInt8) : Prop := x = [] ∨ ∃ ds, Digits ds ∧ x = point :: ds

/-- Nothing, or an `e` and digits that may have a sign. -/
def IsExponent (x : List UInt8) : Prop :=
  x = [] ∨ ∃ e sign ds, (e = 0x65 ∨ e = 0x45) ∧ (sign = [] ∨ sign = [0x2b] ∨ sign = [minus]) ∧
    Digits ds ∧ x = e :: sign ++ ds

/-- What follows does not continue a number. -/
def EndsNumber (rest : List UInt8) : Prop :=
  ∀ b ∈ rest.head?, isDigit b = false ∧ b ≠ point ∧ b ≠ 0x65 ∧ b ≠ 0x45

theorem readWhole_of_ne {b : UInt8} (h : b ≠ zero) (s : List UInt8) :
    readWhole (b :: s) = readDigits (b :: s) := by
  unfold readWhole
  split
  · next hs => exact absurd (List.cons.inj hs).1 h
  · rfl

theorem readWhole_append (h : IsWhole x) (hrest : ∀ b ∈ rest.head?, isDigit b = false) :
    readWhole (x ++ rest) = some (x, rest) := by
  rcases h with rfl | ⟨hx, hzero⟩
  · rfl
  · obtain ⟨b, ds, rfl⟩ := List.exists_cons_of_ne_nil hx.1
    rw [List.cons_append, readWhole_of_ne (hzero b rfl), ← List.cons_append, readDigits_append hx hrest]

theorem isWhole_of_readWhole (h : readWhole s = some (x, rest)) : IsWhole x ∧ s = x ++ rest := by
  unfold readWhole at h
  split at h
  · cases h
    exact ⟨Or.inl rfl, rfl⟩
  · next hne =>
    obtain ⟨hx, rfl⟩ := digits_of_readDigits h
    refine ⟨Or.inr ⟨hx, ?_⟩, rfl⟩
    rintro b hb rfl
    obtain ⟨ds, rfl⟩ := List.head?_eq_some_iff.mp hb
    exact hne _ rfl

theorem readFraction_of_ne (h : ∀ b ∈ s.head?, b ≠ point) : readFraction s = some ([], s) := by
  unfold readFraction
  split
  · exact absurd rfl (h _ rfl)
  · rfl

theorem readFraction_append (h : IsFraction x)
    (hrest : ∀ b ∈ rest.head?, isDigit b = false ∧ b ≠ point) :
    readFraction (x ++ rest) = some (x, rest) := by
  rcases h with rfl | ⟨ds, hds, rfl⟩
  · exact readFraction_of_ne fun b hb => (hrest b hb).2
  · have hread := readDigits_append hds fun b hb => (hrest b hb).1
    refine (readFraction.eq_1 (ds ++ rest)).trans ?_
    rw [hread]
    rfl

theorem isFraction_of_readFraction (h : readFraction s = some (x, rest)) :
    IsFraction x ∧ s = x ++ rest := by
  unfold readFraction at h
  split at h
  · obtain ⟨⟨ds, t⟩, hds, h⟩ := Option.bind_eq_some_iff.mp h
    cases h
    obtain ⟨hdigits, rfl⟩ := digits_of_readDigits hds
    exact ⟨Or.inr ⟨ds, hdigits, rfl⟩, rfl⟩
  · cases h
    exact ⟨Or.inl rfl, rfl⟩

/-- A sign before digits is read whole. -/
theorem readSign_append {sign : List UInt8} (h : sign = [] ∨ sign = [0x2b] ∨ sign = [minus])
    (hds : Digits ds) (rest : List UInt8) : readSign (sign ++ (ds ++ rest)) = (sign, ds ++ rest) := by
  rcases h with rfl | rfl | rfl
  · obtain ⟨b, ds, rfl⟩ := List.exists_cons_of_ne_nil hds.1
    have hb : isDigit b := hds.2 b List.mem_cons_self
    have hne : ¬ (b = 0x2b || b = minus) = true := by
      simp only [Bool.or_eq_true, decide_eq_true_eq]
      rintro (rfl | rfl) <;> cases hb
    exact if_neg hne
  · rfl
  · rfl

theorem sign_of_readSign {sign : List UInt8} (h : readSign s = (sign, rest)) :
    (sign = [] ∨ sign = [0x2b] ∨ sign = [minus]) ∧ s = sign ++ rest := by
  unfold readSign at h
  split at h
  · next b s =>
    split at h
    · next hb =>
      cases h
      simp only [Bool.or_eq_true, decide_eq_true_eq] at hb
      rcases hb with rfl | rfl
      · exact ⟨Or.inr (Or.inl rfl), rfl⟩
      · exact ⟨Or.inr (Or.inr rfl), rfl⟩
    · cases h
      exact ⟨Or.inl rfl, rfl⟩
  · cases h
    exact ⟨Or.inl rfl, rfl⟩

theorem readExponent_of_ne (h : ∀ b ∈ s.head?, b ≠ 0x65 ∧ b ≠ 0x45) :
    readExponent s = some ([], s) := by
  cases s with
  | nil => rfl
  | cons b s =>
    obtain ⟨he, hE⟩ := h b rfl
    exact if_neg (by simp [he, hE])

theorem readExponent_append (h : IsExponent x) (hrest : EndsNumber rest) :
    readExponent (x ++ rest) = some (x, rest) := by
  rcases h with rfl | ⟨e, sign, ds, he, hsign, hds, rfl⟩
  · exact readExponent_of_ne fun b hb => (hrest b hb).2.2
  · have hsigned := readSign_append hsign hds rest
    have hdigits := readDigits_append hds fun b hb => (hrest b hb).1
    have hmark : (decide (e = 0x65) || decide (e = 0x45)) = true := by simpa using he
    rw [List.append_assoc, List.cons_append, readExponent, if_pos hmark, hsigned]
    simp only [hdigits, Option.bind_eq_bind, Option.bind_some]
    rfl

theorem isExponent_of_readExponent (h : readExponent s = some (x, rest)) :
    IsExponent x ∧ s = x ++ rest := by
  cases s with
  | nil =>
    cases h
    exact ⟨Or.inl rfl, rfl⟩
  | cons b s =>
    rw [readExponent] at h
    split at h
    · next hb =>
      obtain ⟨⟨ds, t⟩, hds, h⟩ := Option.bind_eq_some_iff.mp h
      obtain ⟨hsign, hs⟩ := sign_of_readSign (s := s) rfl
      cases h
      obtain ⟨hdigits, ht⟩ := digits_of_readDigits hds
      refine ⟨Or.inr ⟨b, _, ds, by simpa using hb, hsign, hdigits, rfl⟩, ?_⟩
      rw [List.append_assoc, ← ht, List.cons_append, ← hs]
    · cases h
      exact ⟨Or.inl rfl, rfl⟩

/-! ### Numbers -/

/-- The literal of a number. -/
def IsNumber (x : List UInt8) : Prop :=
  ∃ sign whole fraction exponent, (sign = [] ∨ sign = [minus]) ∧ IsWhole whole ∧
    IsFraction fraction ∧ IsExponent exponent ∧ x = sign ++ whole ++ fraction ++ exponent

theorem IsWhole.head (h : IsWhole x) : ∃ b y, x = b :: y ∧ isDigit b := by
  rcases h with rfl | ⟨⟨hne, hdigits⟩, -⟩
  · exact ⟨zero, [], rfl, rfl⟩
  · obtain ⟨b, y, rfl⟩ := List.exists_cons_of_ne_nil hne
    exact ⟨b, y, rfl, hdigits b List.mem_cons_self⟩

/-- A digit or a minus sign. -/
def BeginsNumber (b : UInt8) : Prop := isDigit b ∨ b = minus

instance : DecidablePred BeginsNumber := fun b => inferInstanceAs (Decidable (isDigit b ∨ b = minus))

theorem IsNumber.head (h : IsNumber x) : ∃ b y, x = b :: y ∧ BeginsNumber b := by
  obtain ⟨sign, whole, fraction, exponent, hsign, hwhole, -, -, rfl⟩ := h
  obtain ⟨b, y, rfl, hb⟩ := hwhole.head
  rcases hsign with rfl | rfl
  · exact ⟨b, _, rfl, Or.inl hb⟩
  · exact ⟨minus, _, rfl, Or.inr rfl⟩

/-- Behind a fraction stands neither a digit nor a point. -/
theorem head_exponent (h : IsExponent x) (hrest : EndsNumber rest) :
    ∀ b ∈ (x ++ rest).head?, isDigit b = false ∧ b ≠ point := by
  rcases h with rfl | ⟨e, sign, ds, he, -, -, rfl⟩
  · exact fun b hb => ⟨(hrest b hb).1, (hrest b hb).2.1⟩
  · intro b hb
    cases hb
    rcases he with rfl | rfl
    · exact ⟨rfl, by decide⟩
    · exact ⟨rfl, by decide⟩

/-- Behind the whole part stands no digit. -/
theorem head_fraction (h : IsFraction x) (hs : ∀ b ∈ s.head?, isDigit b = false ∧ b ≠ point) :
    ∀ b ∈ (x ++ s).head?, isDigit b = false := by
  rcases h with rfl | ⟨ds, -, rfl⟩
  · exact fun b hb => (hs b hb).1
  · intro b hb
    cases hb
    rfl

theorem readMinus_append {sign : List UInt8} (h : sign = [] ∨ sign = [minus]) (hwhole : IsWhole x)
    (rest : List UInt8) : readMinus (sign ++ (x ++ rest)) = (sign, x ++ rest) := by
  rcases h with rfl | rfl
  · obtain ⟨b, y, rfl, hb⟩ := hwhole.head
    rw [List.nil_append, readMinus]
    rintro s hs
    cases hs
    cases hb
  · rfl

theorem minus_of_readMinus {sign : List UInt8} (h : readMinus s = (sign, rest)) :
    (sign = [] ∨ sign = [minus]) ∧ s = sign ++ rest := by
  unfold readMinus at h
  split at h
  · cases h
    exact ⟨Or.inr rfl, rfl⟩
  · cases h
    exact ⟨Or.inl rfl, rfl⟩

/-- A number is read back if what follows does not continue it. -/
theorem readNumber_append (h : IsNumber x) (hrest : EndsNumber rest) :
    readNumber (x ++ rest) = some (.number x, rest) := by
  obtain ⟨sign, whole, fraction, exponent, hsign, hwhole, hfraction, hexponent, rfl⟩ := h
  have hafter := head_exponent hexponent hrest
  have hminus := readMinus_append hsign hwhole (fraction ++ (exponent ++ rest))
  have hread := readWhole_append hwhole (head_fraction hfraction hafter)
  simp only [List.append_assoc] at hread ⊢
  rw [readNumber, hminus]
  simp only [hread, readFraction_append hfraction hafter, readExponent_append hexponent hrest,
    Option.bind_eq_bind, Option.bind_some, List.append_assoc]
  rfl

/-- What is read as a number is the literal of one. -/
theorem isNumber_of_readNumber {v : Json} (h : readNumber s = some (v, rest)) :
    ∃ x, IsNumber x ∧ v = .number x ∧ s = x ++ rest := by
  rcases hm : readMinus s with ⟨sign, s₀⟩
  rw [readNumber, hm] at h
  simp only [Option.bind_eq_bind, Option.bind_eq_some_iff] at h
  obtain ⟨⟨whole, s₁⟩, hw, ⟨fraction, s₂⟩, hf, ⟨exponent, s₃⟩, he, h⟩ := h
  cases h
  obtain ⟨hsign, rfl⟩ := minus_of_readMinus hm
  obtain ⟨hwhole, rfl⟩ := isWhole_of_readWhole hw
  obtain ⟨hfraction, rfl⟩ := isFraction_of_readFraction hf
  obtain ⟨hexponent, rfl⟩ := isExponent_of_readExponent he
  refine ⟨_, ⟨sign, whole, fraction, exponent, hsign, hwhole, hfraction, hexponent, rfl⟩, rfl, ?_⟩
  simp only [List.append_assoc]

/-! ### Words -/

theorem dropWord?_eq_some_iff {word : List UInt8} : dropWord? word s = some rest ↔ s = word ++ rest := by
  induction word generalizing s with
  | nil => simp [dropWord?]
  | cons w word ih =>
    cases s with
    | nil => simp [dropWord?]
    | cons b s => by_cases hb : w = b <;> simp [dropWord?, hb, ih, eq_comm]

theorem readWord_eq_some_iff {word : String} {v w : Json} :
    readWord word v s = some (w, rest) ↔ w = v ∧ s = Text.toUtf8 word.toList ++ rest := by
  simp only [readWord, Option.map_eq_some_iff, dropWord?_eq_some_iff, Prod.mk.injEq]
  constructor
  · rintro ⟨t, hs, rfl, rfl⟩
    exact ⟨rfl, hs⟩
  · rintro ⟨rfl, hs⟩
    exact ⟨rest, hs, rfl, rfl⟩

/-- No word begins as a number does. -/
theorem readWord_of_number {b w : UInt8} (hb : BeginsNumber b) {word : String} {tail : List UInt8}
    (hword : Text.toUtf8 word.toList = w :: tail) (hw : ¬ BeginsNumber w) (v : Json)
    (s : List UInt8) : readWord word v (b :: s) = none := by
  refine Option.eq_none_iff_forall_ne_some.mpr fun ⟨u, rest⟩ h => ?_
  have hs := (readWord_eq_some_iff.mp h).2
  rw [hword] at hs
  obtain ⟨rfl, -⟩ := List.cons.inj hs
  exact hw hb

theorem readScalar_of_number {b : UInt8} (hb : BeginsNumber b) (s : List UInt8) :
    readScalar (b :: s) = readNumber (b :: s) := by
  have hnull : Text.toUtf8 "null".toList = 0x6e :: Text.toUtf8 "ull".toList := rfl
  have htrue : Text.toUtf8 "true".toList = 0x74 :: Text.toUtf8 "rue".toList := rfl
  have hfalse : Text.toUtf8 "false".toList = 0x66 :: Text.toUtf8 "alse".toList := rfl
  rw [readScalar, readWord_of_number hb hnull (by decide), readWord_of_number hb htrue (by decide),
    readWord_of_number hb hfalse (by decide)]
  rfl

/-! ### Scalars -/

/-- The literals of the values without parts. -/
inductive WrittenScalar : Json → List UInt8 → Prop
  | nullWord : WrittenScalar .null (Text.toUtf8 "null".toList)
  | trueWord : WrittenScalar (.bool true) (Text.toUtf8 "true".toList)
  | falseWord : WrittenScalar (.bool false) (Text.toUtf8 "false".toList)
  | number {x : List UInt8} (h : IsNumber x) : WrittenScalar (.number x) x

/-- The first byte of a number or a word. -/
def BeginsScalar (b : UInt8) : Prop := BeginsNumber b ∨ b = 0x6e ∨ b = 0x74 ∨ b = 0x66

instance : DecidablePred BeginsScalar := fun b =>
  inferInstanceAs (Decidable (BeginsNumber b ∨ b = 0x6e ∨ b = 0x74 ∨ b = 0x66))

theorem WrittenScalar.head {v : Json} (h : WrittenScalar v x) : ∃ b y, x = b :: y ∧ BeginsScalar b := by
  cases h with
  | nullWord | trueWord | falseWord => exact ⟨_, _, rfl, by decide⟩
  | number h =>
    obtain ⟨b, y, rfl, hb⟩ := h.head
    exact ⟨b, y, rfl, Or.inl hb⟩

/-- A blank begins no value. -/
theorem BeginsScalar.isBlank {b : UInt8} (h : BeginsScalar b) : isBlank b = false := by
  refine Bool.eq_false_iff.mpr fun hblank => ?_
  simp only [Json.isBlank, Bool.or_eq_true, decide_eq_true_eq] at hblank
  rcases hblank with ((rfl | rfl) | rfl) | rfl <;> exact absurd h (by decide)

/-- A scalar is read back; a number needs an end. -/
theorem readScalar_append {v : Json} (h : WrittenScalar v x)
    (hrest : ∀ y, v = .number y → EndsNumber rest) : readScalar (x ++ rest) = some (v, rest) := by
  cases h with
  | nullWord => rfl
  | trueWord => rfl
  | falseWord => rfl
  | number h =>
    obtain ⟨b, y, rfl, hb⟩ := h.head
    rw [List.cons_append, readScalar_of_number hb, ← List.cons_append,
      readNumber_append h (hrest _ rfl)]

theorem writtenScalar_of_readScalar {v : Json} (h : readScalar s = some (v, rest)) :
    ∃ x, WrittenScalar v x ∧ s = x ++ rest := by
  simp only [readScalar, Option.orElse_eq_orElse, Option.orElse_eq_or, Option.or_eq_some_iff,
    readWord_eq_some_iff] at h
  rcases h with ⟨rfl, hs⟩ | ⟨-, ⟨rfl, hs⟩ | ⟨-, ⟨rfl, hs⟩ | ⟨-, h⟩⟩⟩
  · exact ⟨_, .nullWord, hs⟩
  · exact ⟨_, .trueWord, hs⟩
  · exact ⟨_, .falseWord, hs⟩
  · obtain ⟨x, hx, rfl, hs⟩ := isNumber_of_readNumber h
    exact ⟨x, .number hx, hs⟩

end DiceBot.Json
