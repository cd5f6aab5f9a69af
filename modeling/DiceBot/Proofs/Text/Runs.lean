import DiceBot.Text.Blank
import Mathlib.Data.List.DropRight

/-! # Runs of characters

What the functions that take texts apart leave, said without them: a text is stripped of a maximal run
at its front (`StripsTo`), trimmed on both sides (`TrimsTo`), and split into its maximal runs without
blanks (`SplitsInto`). -/

namespace DiceBot.Text

/-! ### A run at the front -/

section

variable {α : Type} {p : α → Bool} {t run : List α}

theorem dropWhile_of_head? (h : ∀ c ∈ t.head?, p c = false) : t.dropWhile p = t := by
  cases t with
  | nil => rfl
  | cons c t => exact List.dropWhile_cons_of_neg (by simp [h c rfl])

theorem takeWhile_of_head? (h : ∀ c ∈ t.head?, p c = false) : t.takeWhile p = [] := by
  cases t with
  | nil => rfl
  | cons c t => exact List.takeWhile_cons_of_neg (by simp [h c rfl])

theorem dropWhile_run_append (hrun : ∀ c ∈ run, p c) (ht : ∀ c ∈ t.head?, p c = false) :
    (run ++ t).dropWhile p = t := by
  rw [List.dropWhile_append_of_pos hrun, dropWhile_of_head? ht]

theorem takeWhile_run_append (hrun : ∀ c ∈ run, p c) (ht : ∀ c ∈ t.head?, p c = false) :
    (run ++ t).takeWhile p = run := by
  rw [List.takeWhile_append_of_pos hrun, takeWhile_of_head? ht, List.append_nil]

end

/-- A text up to the first mark is told from the text behind it. -/
theorem append_mark_inj {mark : Char} {s s' t t' : Text} (hs : mark ∉ s) (hs' : mark ∉ s')
    (h : s ++ mark :: t = s' ++ mark :: t') : s = s' ∧ t = t' := by
  have hfront : ∀ {u v : Text}, mark ∉ u → (u ++ mark :: v).takeWhile (· != mark) = u := fun hu =>
    takeWhile_run_append (fun c hc => bne_iff_ne.mpr fun heq => hu (heq ▸ hc)) (by simp)
  have hrun : s = s' := by rw [← hfront hs, h, hfront hs']
  subst hrun
  exact ⟨rfl, (List.cons.inj (List.append_cancel_left h)).2⟩

/-- `t` is what `s` leaves behind the maximal run of characters in `p` at its front. -/
def StripsTo (p : Char → Bool) (s t : Text) : Prop :=
  ∃ run, s = run ++ t ∧ (∀ c ∈ run, p c) ∧ ∀ c ∈ t.head?, p c = false

section

variable {p : Char → Bool} {s t run : Text}

theorem stripsTo_dropWhile (p : Char → Bool) (s : Text) : StripsTo p s (s.dropWhile p) := by
  refine ⟨s.takeWhile p, List.takeWhile_append_dropWhile.symm, fun c => List.mem_takeWhile_imp, ?_⟩
  intro c hc
  have hhead := List.head?_dropWhile_not p s
  rw [Option.mem_def.mp hc] at hhead
  exact hhead

/-- **What is left behind the run at the front.** -/
theorem dropWhile_eq_iff : s.dropWhile p = t ↔ StripsTo p s t := by
  constructor
  · rintro rfl
    exact stripsTo_dropWhile p s
  · rintro ⟨run, rfl, hrun, ht⟩
    exact dropWhile_run_append hrun ht

theorem skipGap_eq_iff : skipGap s = t ↔ StripsTo isGap s t := dropWhile_eq_iff

/-- A gap of at least one character and what comes behind all of it. -/
theorem needGap?_eq_some_iff :
    needGap? s = some t ↔
      ∃ gap, gap ≠ [] ∧ s = gap ++ t ∧ (∀ c ∈ gap, isGap c) ∧ ∀ c ∈ t.head?, isGap c = false := by
  constructor
  · intro h
    cases s with
    | nil => cases h
    | cons c s =>
      rw [needGap?, Option.ite_none_right_eq_some] at h
      obtain ⟨hc, hskip⟩ := h
      obtain ⟨gap, rfl, hgap, ht⟩ := skipGap_eq_iff.mp (Option.some.inj hskip)
      exact ⟨c :: gap, List.cons_ne_nil c gap, rfl, List.forall_mem_cons.mpr ⟨hc, hgap⟩, ht⟩
  · rintro ⟨gap, hne, rfl, hgap, ht⟩
    cases gap with
    | nil => exact absurd rfl hne
    | cons c gap =>
      obtain ⟨hc, hgap⟩ := List.forall_mem_cons.mp hgap
      rw [List.cons_append, needGap?, if_pos hc, skipGap_eq_iff.mpr ⟨gap, rfl, hgap, ht⟩]

end

/-! ### Trimming -/

/-- `t` is `s` without blanks around it. -/
def TrimsTo (s t : Text) : Prop :=
  ∃ left right, s = left ++ t ++ right ∧ (∀ c ∈ left ++ right, isBlank c) ∧
    (∀ c ∈ t.head?, isBlank c = false) ∧ ∀ c ∈ t.getLast?, isBlank c = false

/-- What is left of a text without the blanks at its end. -/
theorem trimEnd_append {s right : Text} (hright : ∀ c ∈ right, isBlank c)
    (hs : ∀ c ∈ s.getLast?, isBlank c = false) : trimEnd (s ++ right) = s := by
  rw [trimEnd, List.reverse_append, dropWhile_run_append, List.reverse_reverse]
  · exact fun c hc => hright c (List.mem_reverse.mp hc)
  · rw [List.head?_reverse]
    exact hs

theorem exists_trimEnd (s : Text) :
    ∃ right, s = trimEnd s ++ right ∧ (∀ c ∈ right, isBlank c) ∧
      ∀ c ∈ (trimEnd s).getLast?, isBlank c = false := by
  obtain ⟨run, hs, hrun, hhead⟩ := stripsTo_dropWhile isBlank s.reverse
  refine ⟨run.reverse, ?_, fun c hc => hrun c (List.mem_reverse.mp hc), ?_⟩
  · rw [trimEnd, ← List.reverse_append, ← hs, List.reverse_reverse]
  · rw [trimEnd, List.getLast?_reverse]
    exact hhead

/-- **Trimming takes all blanks around a text away.** -/
theorem trim_eq_iff {s t : Text} : trim s = t ↔ TrimsTo s t := by
  constructor
  · rintro rfl
    obtain ⟨left, hs, hleft, hhead⟩ := stripsTo_dropWhile isBlank s
    obtain ⟨right, hrest, hright, hlast⟩ := exists_trimEnd (s.dropWhile isBlank)
    refine ⟨left, right, ?_, List.forall_mem_append.mpr ⟨hleft, hright⟩, ?_, hlast⟩
    · rw [trim, List.append_assoc, ← hrest]
      exact hs
    · intro c hc
      -- what is left begins as the text did before its end was trimmed
      refine hhead c ?_
      rw [hrest, List.head?_append, ← trim, hc]
      rfl
  · rintro ⟨left, right, rfl, hblank, hhead, hlast⟩
    obtain ⟨hleft, hright⟩ := List.forall_mem_append.mp hblank
    rw [trim, List.append_assoc, List.dropWhile_append_of_pos hleft]
    cases t with
    | nil =>
      rw [List.nil_append, List.dropWhile_eq_nil_iff.mpr hright]
      rfl
    | cons c t =>
      have hstart : (c :: t ++ right).dropWhile isBlank = c :: t ++ right := dropWhile_of_head? hhead
      rw [hstart]
      exact trimEnd_append hright hlast

/-- Gaps in front make no difference to what is left by trimming. -/
theorem trim_gap_append {gap s : Text} (hgap : ∀ c ∈ gap, isGap c) : trim (gap ++ s) = trim s := by
  rw [trim, List.dropWhile_append_of_pos fun c hc => isBlank_of_isGap (hgap c hc), trim]

/-! ### Splitting -/

/-- The maximal runs of characters of `s` that are not blank, in order. -/
inductive SplitsInto : Text → List Text → Prop where
  | nil {s : Text} (h : ∀ c ∈ s, isBlank c) : SplitsInto s []
  | cons {blanks word rest : Text} {words : List Text} (hblanks : ∀ c ∈ blanks, isBlank c)
      (hne : word ≠ []) (hword : ∀ c ∈ word, isBlank c = false)
      (hrest : ∀ c ∈ rest.head?, isBlank c) (h : SplitsInto rest words) :
      SplitsInto (blanks ++ word ++ rest) (word :: words)

theorem words_blank_append {blanks : Text} (hblanks : ∀ c ∈ blanks, isBlank c) (s : Text) :
    words (blanks ++ s) = words s := by
  induction blanks with
  | nil => rfl
  | cons c blanks ih =>
    obtain ⟨hc, hblanks⟩ := List.forall_mem_cons.mp hblanks
    rw [List.cons_append, words, if_pos hc, ih hblanks]

theorem startsWord_eq_false_iff {s : Text} : startsWord s = false ↔ ∀ c ∈ s.head?, isBlank c := by
  cases s with
  | nil => simp [startsWord]
  | cons c s => simp [startsWord]

theorem words_word_append {word rest : Text} (hne : word ≠ []) (hword : ∀ c ∈ word, isBlank c = false)
    (hrest : ∀ c ∈ rest.head?, isBlank c) : words (word ++ rest) = word :: words rest := by
  induction word with
  | nil => exact absurd rfl hne
  | cons c word ih =>
    obtain ⟨hc, hword⟩ := List.forall_mem_cons.mp hword
    rw [List.cons_append, words, if_neg (by simp [hc])]
    cases word with
    | nil =>
      rw [List.nil_append, startsWord_eq_false_iff.mpr hrest]
    | cons d word =>
      have hd : startsWord (d :: word ++ rest) = true := by
        simp [startsWord, hword d (List.mem_cons_self ..)]
      rw [ih (List.cons_ne_nil d word) hword, hd]

theorem SplitsInto.words_eq {s : Text} {ws : List Text} (h : SplitsInto s ws) : words s = ws := by
  induction h with
  | @nil s h =>
    have hwords := words_blank_append h []
    rw [List.append_nil] at hwords
    exact hwords
  | cons hblanks hne hword hrest h ih =>
    rw [List.append_assoc, words_blank_append hblanks, words_word_append hne hword hrest, ih]

theorem exists_splitsInto (s : Text) : ∃ ws, SplitsInto s ws := by
  induction s with
  | nil => exact ⟨[], .nil (by simp)⟩
  | cons c s ih =>
    obtain ⟨ws, h⟩ := ih
    cases hc : isBlank c with
    | true =>
      cases h with
      | nil h => exact ⟨[], .nil (List.forall_mem_cons.mpr ⟨hc, h⟩)⟩
      | @cons blanks word rest ws hblanks hne hword hrest h =>
        have hblanks' : ∀ x ∈ c :: blanks, isBlank x := List.forall_mem_cons.mpr ⟨hc, hblanks⟩
        exact ⟨word :: ws, .cons hblanks' hne hword hrest h⟩
    | false =>
      have hnone : ∀ x ∈ ([] : Text), isBlank x := by simp
      have hsingle : ∀ x ∈ [c], isBlank x = false := by simpa using hc
      -- the first run of `s`, if there is one right at its front, is the rest of that of `c`
      cases h with
      | nil h =>
        have hhead : ∀ x ∈ s.head?, isBlank x := fun x hx => h x (List.mem_of_mem_head? hx)
        exact ⟨[[c]], .cons hnone (List.cons_ne_nil c []) hsingle hhead (.nil h)⟩
      | @cons blanks word rest ws hblanks hne hword hrest h =>
        cases blanks with
        | nil =>
          have hword' : ∀ x ∈ c :: word, isBlank x = false := List.forall_mem_cons.mpr ⟨hc, hword⟩
          exact ⟨(c :: word) :: ws, .cons hnone (List.cons_ne_nil c word) hword' hrest h⟩
        | cons b blanks =>
          have hhead : ∀ x ∈ (b :: blanks ++ word ++ rest).head?, isBlank x := by
            simpa using hblanks b (List.mem_cons_self ..)
          exact ⟨[c] :: word :: ws, .cons hnone (List.cons_ne_nil c []) hsingle hhead
            (.cons hblanks hne hword hrest h)⟩

/-- **The words of a text are its maximal runs without blanks.** -/
theorem words_eq_iff {s : Text} {ws : List Text} : words s = ws ↔ SplitsInto s ws := by
  constructor
  · rintro rfl
    obtain ⟨ws, h⟩ := exists_splitsInto s
    rw [h.words_eq]
    exact h
  · exact SplitsInto.words_eq

/-! ### Capitals and small letters -/

/-- **A text starts with a word if some of it is the word in small letters.** -/
theorem dropLeadAnyCase?_eq_some_iff {word s t : Text} (hword : word.map Char.toLower = word) :
    dropLeadAnyCase? word s = some t ↔ ∃ w, s = w ++ t ∧ w.map Char.toLower = word := by
  induction word generalizing s with
  | nil =>
    rw [dropLeadAnyCase?, Option.some.injEq]
    constructor
    · rintro rfl
      exact ⟨[], rfl, rfl⟩
    · rintro ⟨w, rfl, hw⟩
      rw [List.map_eq_nil_iff.mp hw, List.nil_append]
  | cons c word ih =>
    obtain ⟨hc, hword⟩ := List.cons.inj hword
    cases s with
    | nil =>
      constructor
      · intro h
        cases h
      · rintro ⟨w, hw, hspelled⟩
        rw [(List.append_eq_nil_iff.mp hw.symm).1] at hspelled
        cases hspelled
    | cons x s =>
      rw [dropLeadAnyCase?, hc, Option.ite_none_right_eq_some, ih hword]
      constructor
      · rintro ⟨hx, w, rfl, hw⟩
        exact ⟨x :: w, rfl, by rw [List.map_cons, ← hx, hw]⟩
      · rintro ⟨w, hw, hspelled⟩
        cases w with
        | nil => cases hspelled
        | cons y w =>
          obtain ⟨rfl, rfl⟩ := List.cons.inj hw
          obtain ⟨hy, hw⟩ := List.cons.inj hspelled
          exact ⟨hy.symm, w, rfl, hw⟩

end DiceBot.Text
