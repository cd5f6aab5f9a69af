import DiceBot.Toml.Section
import DiceBot.Toml.Writer
import DiceBot.Proofs.Text.Runs

/-! # Strings, keys and paths are read back

A string that was written between double quotes, a key and the path of a header are read back as they
were, if what follows cannot be taken for a part of them. -/

namespace DiceBot.Toml

variable {rest : Text}

/-! ### Spaces and words -/

theorem skipSpaces_of_head? (h : ∀ c ∈ rest.head?, isSpace c = false) : skipSpaces rest = rest :=
  Text.dropWhile_of_head? h

theorem skipSpaces_cons {c : Char} (h : isSpace c = false) (s : Text) : skipSpaces (c :: s) = c :: s :=
  skipSpaces_of_head? fun _ hc => Option.some.inj hc ▸ h

theorem readWord_append {word : Text} (hne : word ≠ []) (hword : ∀ c ∈ word, isWordChar c)
    (hrest : ∀ c ∈ rest.head?, isWordChar c = false) : readWord (word ++ rest) = some (word, rest) := by
  rw [readWord, Text.takeWhile_run_append hword hrest, Text.dropWhile_run_append hword hrest,
    if_neg hne]

/-! ### Strings -/

/-- The code of a character of ASCII is read back. -/
theorem codeChar?_fourHexDigits : ∀ n < 128,
    ∃ a b c d, fourHexDigits n = [a, b, c, d] ∧ codeChar? [a, b, c, d] = some (Char.ofNat n) := by
  have h : ∀ n < 128, (fourHexDigits n).length = 4 ∧ codeChar? (fourHexDigits n) = some (Char.ofNat n) := by
    decide
  intro n hn
  obtain ⟨hlen, hcode⟩ := h n hn
  match hds : fourHexDigits n, hlen with
  | [a, b, c, d], _ => exact ⟨a, b, c, d, rfl, hds ▸ hcode⟩

/-- A short escape is read back. -/
theorem readBasic_shortEscape {e c : Char} (hu : e ≠ 'u') (hU : e ≠ 'U') (he : shortEscape? e = some c)
    (n : Nat) (s : Text) :
    readBasic (n + 1) ('\\' :: e :: s) = (readBasic n s).map fun r => (c :: r.1, r.2) := by
  have hread : readEscape (e :: s) = some (c, s) := by
    rw [readEscape, he]
    · rfl
    · exact fun _ _ _ _ _ h => absurd h hu
    · exact fun _ _ _ _ _ _ _ _ _ h => absurd h hU
  rw [readBasic, hread, Option.map_eq_bind]
  rfl

/-- **One character of a string is read back.** -/
theorem readBasic_escapeChar (n : Nat) (c : Char) (s : Text) :
    readBasic (n + 1) (escapeChar c ++ s) = (readBasic n s).map fun r => (c :: r.1, r.2) := by
  unfold escapeChar
  split
  case h_8 hb ht hn hf hr hquote hbackslash =>
    split_ifs with hcode
    · obtain ⟨a, b, d, e, hds, hc⟩ := codeChar?_fourHexDigits c.toNat (by omega)
      rw [Char.ofNat_toNat] at hc
      show readBasic (n + 1) ('\\' :: 'u' :: (fourHexDigits c.toNat ++ s)) = _
      have hread : readEscape ('u' :: a :: b :: d :: e :: s) = some (c, s) := by
        rw [readEscape, hc]
        rfl
      rw [hds, readBasic, show readEscape ('u' :: ([a, b, d, e] ++ s)) = _ from hread, Option.map_eq_bind]
      rfl
    · have hstring : isStringChar c := by
        simp only [isStringChar, Bool.or_eq_true, decide_eq_true_eq, Bool.and_eq_true]
        omega
      show readBasic (n + 1) (c :: s) = _
      rw [readBasic, if_pos hstring, Option.map_eq_bind]
      · rfl
      · exact hquote
      · exact hbackslash
  all_goals exact readBasic_shortEscape (by decide) (by decide) rfl n s

/-- **A string between double quotes is read back.** -/
theorem readBasic_flatMap (s rest : Text) {n : Nat} (h : s.length < n) :
    readBasic n (s.flatMap escapeChar ++ '"' :: rest) = some (s, rest) := by
  induction s generalizing n with
  | nil =>
    obtain ⟨m, rfl⟩ := Nat.exists_eq_add_of_lt h
    rw [List.flatMap_nil, List.nil_append, readBasic]
  | cons c s ih =>
    obtain ⟨m, rfl⟩ := Nat.exists_eq_add_of_lt h
    rw [List.flatMap_cons, List.append_assoc, readBasic_escapeChar,
      ih (by rw [List.length_cons]; omega)]
    rfl

/-- The first character of an escaped one is no quote. -/
theorem head?_escapeChar (c : Char) : ∃ x xs, escapeChar c = x :: xs ∧ x ≠ '"' := by
  unfold escapeChar
  split
  case h_8 hquote _ =>
    split_ifs
    · exact ⟨_, _, rfl, by decide⟩
    · exact ⟨_, _, rfl, hquote⟩
  all_goals exact ⟨_, _, rfl, by decide⟩

theorem length_le_length_escaped (s : Text) : s.length ≤ (s.flatMap escapeChar).length := by
  induction s with
  | nil => exact Nat.le_refl _
  | cons c s ih =>
    obtain ⟨x, xs, hx, -⟩ := head?_escapeChar c
    rw [List.flatMap_cons, hx, List.length_append, List.length_cons, List.length_cons]
    omega

theorem readString_stringText (s : Text) (h : ∀ c ∈ rest.head?, c ≠ '"') :
    readString (stringText s ++ rest) = some ((s, false), rest) := by
  have hbasic : readBasic ((s.flatMap escapeChar ++ '"' :: rest).length + 1)
      (s.flatMap escapeChar ++ '"' :: rest) = some (s, rest) := by
    refine readBasic_flatMap s rest (Nat.lt_succ_of_le ?_)
    rw [List.length_append]
    exact Nat.le_add_right_of_le (length_le_length_escaped s)
  have htext : stringText s ++ rest = '"' :: (s.flatMap escapeChar ++ '"' :: rest) := by
    simp [stringText]
  rw [htext, readString]
  · rw [hbasic]
    rfl
  · -- a second quote is the end of an empty string, and no third follows it
    intro t ht
    cases s with
    | nil =>
      obtain ⟨-, rfl⟩ := List.cons.inj ht
      exact h '"' rfl rfl
    | cons c s =>
      obtain ⟨x, xs, hx, hne⟩ := head?_escapeChar c
      rw [List.flatMap_cons, hx] at ht
      exact hne (List.cons.inj ht).1

/-! ### Keys -/

/-- What may follow a key: nothing that could be a part of it. -/
def EndsKey (rest : Text) : Prop := ∀ c ∈ rest.head?, isWordChar c = false ∧ c ≠ '"'

theorem readKey_keyText (k : Text) (h : EndsKey rest) : readKey (keyText k ++ rest) = some (k, rest) := by
  unfold keyText
  split_ifs with hk
  · obtain ⟨hne, hall⟩ := hk
    have hword : ∀ c ∈ k, isWordChar c := List.all_eq_true.mp hall
    obtain ⟨c, k', rfl⟩ := List.exists_cons_of_ne_nil hne
    have hquotes : c ≠ '"' ∧ c ≠ '\'' := by
      have hc := hword c (List.mem_cons_self ..)
      constructor <;> rintro rfl <;> cases hc
    have hnone : readString (c :: k' ++ rest) = none := by
      unfold readString
      split
      all_goals simp_all
    rw [readKey, hnone]
    exact readWord_append hne hword fun c hc => (h c hc).1
  · rw [readKey, readString_stringText k fun c hc => (h c hc).2]

theorem keyText_ne_nil (k : Text) : keyText k ≠ [] := by
  unfold keyText
  split_ifs with hk
  · exact hk.1
  · exact List.cons_ne_nil _ _

/-- The first character of a written key. -/
theorem head?_keyText (k : Text) : ∃ c s, keyText k = c :: s ∧ (isWordChar c ∨ c = '"') := by
  unfold keyText
  split_ifs with hk
  · obtain ⟨c, k', rfl⟩ := List.exists_cons_of_ne_nil hk.1
    exact ⟨c, k', rfl, Or.inl (List.all_eq_true.mp hk.2 c (List.mem_cons_self ..))⟩
  · exact ⟨_, _, rfl, Or.inr rfl⟩

/-! ### Paths -/

theorem pathText_cons_cons (k l : Text) (path : List Text) :
    pathText (k :: l :: path) = keyText k ++ '.' :: pathText (l :: path) := rfl

theorem pathText_singleton (k : Text) : pathText [k] = keyText k := by
  simp [pathText, Text.join]

/-- The first character of a written path. -/
theorem head?_pathText (k : Text) (path : List Text) :
    ∃ c s, pathText (k :: path) = c :: s ∧ (isWordChar c ∨ c = '"') := by
  obtain ⟨c, s, hk, hc⟩ := head?_keyText k
  cases path with
  | nil => exact ⟨c, s, by rw [pathText_singleton, hk], hc⟩
  | cons l path => exact ⟨c, s ++ '.' :: pathText (l :: path), by rw [pathText_cons_cons, hk]; rfl, hc⟩

theorem isSpace_of_key {c : Char} (h : isWordChar c ∨ c = '"') : isSpace c = false := by
  rw [← Bool.not_eq_true]
  intro hs
  rcases (by simpa [isSpace] using hs : c = ' ' ∨ c = '\t') with rfl | rfl
  · exact absurd h (by decide)
  · exact absurd h (by decide)

theorem skipSpaces_pathText (k : Text) (path : List Text) (rest : Text) :
    skipSpaces (pathText (k :: path) ++ rest) = pathText (k :: path) ++ rest := by
  obtain ⟨c, s, hk, hc⟩ := head?_pathText k path
  rw [hk]
  exact skipSpaces_cons (isSpace_of_key hc) _

/-- **A path is read back.** -/
theorem readDottedKey_pathText (k : Text) (path : List Text) {n : Nat} (hn : path.length < n)
    (hend : EndsKey rest) (hdot : (skipSpaces rest).head? ≠ some '.') :
    readDottedKey n (pathText (k :: path) ++ rest) = some (k :: path, skipSpaces rest) := by
  induction path generalizing k n with
  | nil =>
    obtain ⟨m, rfl⟩ := Nat.exists_eq_add_of_lt hn
    rw [pathText_singleton, readDottedKey, readKey_keyText k hend]
    simp only [Option.bind_eq_bind, Option.bind_some]
    split
    · rename_i s hs
      rw [hs] at hdot
      exact absurd rfl hdot
    · rfl
  | cons l path ih =>
    obtain ⟨m, rfl⟩ := Nat.exists_eq_add_of_lt hn
    have hkey : EndsKey ('.' :: (pathText (l :: path) ++ rest)) := by
      intro c hc
      obtain rfl := Option.some.inj hc
      decide
    have hskip := skipSpaces_pathText l path rest
    rw [pathText_cons_cons, List.append_assoc, List.cons_append, readDottedKey,
      readKey_keyText k hkey]
    simp only [Option.bind_eq_bind, Option.bind_some, skipSpaces_cons (show isSpace '.' = false by decide),
      hskip]
    rw [ih l (by simp only [List.length_cons] at hn ⊢; omega)]
    rfl

end DiceBot.Toml
