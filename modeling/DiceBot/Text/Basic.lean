/-! # Texts

A text is a list of characters. Numbers are written in decimal, without leading zeros; a run of
digits is read back by `digitsValue`. `replaceChar` puts a text in place of every occurrence of one
character, `pieces` takes a text apart at every occurrence of one. -/

namespace DiceBot

/-- A text: its characters in order. -/
abbrev Text := List Char

namespace Text

/-! ### Decimal numbers -/

/-- The decimal digits of `n`. -/
def ofNat (n : Nat) : Text := Nat.toDigits 10 n

/-- The decimal digits of `n`, after a minus sign if `n` is negative. -/
def ofInt : Int → Text
  | .ofNat n => ofNat n
  | .negSucc n => '-' :: ofNat (n + 1)

/-- The number that a run of decimal digits stands for. -/
def digitsValue (ds : Text) : Nat := Nat.ofDigitChars 10 ds 0

/-- Writing a number and reading its digits gives it back. -/
theorem digitsValue_ofNat (n : Nat) : digitsValue (ofNat n) = n :=
  Nat.ofDigitChars_ten_toDigits

/-- A written number has at least one digit. -/
theorem ofNat_ne_nil (n : Nat) : ofNat n ≠ [] := Nat.toDigits_ne_nil

/-- A written number has digits only. -/
theorem isDigit_of_mem_ofNat {n : Nat} {c : Char} (h : c ∈ ofNat n) : c.isDigit :=
  Nat.isDigit_of_mem_toDigits (by decide) (by decide) h

/-- The value of a hexadecimal digit. -/
def hexValue? (c : Char) : Option Nat :=
  if '0' ≤ c ∧ c ≤ '9' then some (c.toNat - 0x30)
  else if 'A' ≤ c ∧ c ≤ 'F' then some (c.toNat - 0x37)
  else if 'a' ≤ c ∧ c ≤ 'f' then some (c.toNat - 0x57)
  else none

/-! ### Replacing, splitting, joining, comparing -/

/-- The text `s` with `r` in place of every `c`. -/
def replaceChar (c : Char) (r s : Text) : Text := s.flatMap fun x => if x = c then r else [x]

theorem replaceChar_append (c : Char) (r s t : Text) :
    replaceChar c r (s ++ t) = replaceChar c r s ++ replaceChar c r t := by
  simp [replaceChar]

/-- The pieces of a list between the occurrences of a mark. -/
def pieces {α : Type} [DecidableEq α] (mark : α) : List α → List (List α)
  | [] => [[]]
  | x :: s =>
    if x = mark then [] :: pieces mark s
    else match pieces mark s with
      | [] => [[x]]
      | p :: ps => (x :: p) :: ps

/-- The pieces one after another, with `sep` between neighbours. -/
def join (sep : Text) (pieces : List Text) : Text := (pieces.intersperse sep).flatten

theorem pieces_ne_nil (c : Char) (s : Text) : pieces c s ≠ [] := by
  cases s with
  | nil => simp [pieces]
  | cons x s =>
    rw [pieces]
    split
    · simp
    · split <;> simp

/-- The pieces of a text, joined again, are the text. -/
theorem join_pieces (c : Char) (s : Text) : join [c] (pieces c s) = s := by
  induction s with
  | nil => rfl
  | cons x s ih =>
    obtain ⟨p, ps, hp⟩ := List.exists_cons_of_ne_nil (pieces_ne_nil c s)
    rw [pieces, hp]
    rw [hp] at ih
    by_cases h : x = c
    · rw [if_pos h, h, ← ih]
      rfl
    · rw [if_neg h, ← ih]
      cases ps <;> rfl

/-- The rest of `s` after `lead`, if `s` starts with it. -/
def dropLead? : (lead s : Text) → Option Text
  | [], s => some s
  | _ :: _, [] => none
  | c :: lead, x :: s => if c = x then dropLead? lead s else none

/-- The rest of `s` after `lead`, if `s` starts with it in any mixture of ASCII capitals and small
letters. -/
def dropLeadAnyCase? : (lead s : Text) → Option Text
  | [], s => some s
  | _ :: _, [] => none
  | c :: lead, x :: s => if c.toLower = x.toLower then dropLeadAnyCase? lead s else none

theorem dropLead?_eq_some_iff {lead s rest : Text} :
    dropLead? lead s = some rest ↔ s = lead ++ rest := by
  induction lead generalizing s with
  | nil => simp [dropLead?, eq_comm]
  | cons c lead ih =>
    cases s with
    | nil => simp [dropLead?]
    | cons x s =>
      by_cases h : c = x
      · simp [dropLead?, h, ih]
      · simp [dropLead?, h, Ne.symm h]

end Text

end DiceBot
