import DiceBot.Proofs.Toml.Lines

/-! # Documents as texts

A reader folds line ends and drops a byte order mark before anything else. In a written document there
is no carriage return and no such mark, so nothing changes, and a written document is read line by line
(`sections?_document`). -/

namespace DiceBot.Toml

/-! ### No carriage returns -/

theorem return_not_mem_of_word {s : Text} (h : ∀ c ∈ s, isWordChar c) : '\r' ∉ s :=
  fun hc => absurd (h _ hc) (by decide)

theorem return_not_mem_of_digits {s : Text} (h : ∀ c ∈ s, c.isDigit) : '\r' ∉ s :=
  fun hc => absurd (h _ hc) (by decide)

theorem return_not_mem_stringText (s : Text) : '\r' ∉ stringText s := by
  have hcode : ∀ n < 128, '\r' ∉ fourHexDigits n := by decide
  have hescape : ∀ c, '\r' ∉ escapeChar c := by
    intro c
    unfold escapeChar
    split
    case h_8 hr hquote hbackslash =>
      split_ifs with hcontrol
      · simp [hcode c.toNat (by omega)]
      · simpa using Ne.symm hr
    all_goals decide
  simp [stringText, hescape]

theorem return_not_mem_keyText (k : Text) : '\r' ∉ keyText k := by
  unfold keyText
  split_ifs with hk
  · exact return_not_mem_of_word (List.all_eq_true.mp hk.2)
  · exact return_not_mem_stringText k

theorem return_not_mem_pathText (path : List Text) : '\r' ∉ pathText path := by
  induction path with
  | nil => decide
  | cons k path ih =>
    cases path with
    | nil =>
      rw [pathText_singleton]
      exact return_not_mem_keyText k
    | cons l path =>
      rw [pathText_cons_cons]
      simp [return_not_mem_keyText k, ih]

theorem return_not_mem_ofInt (n : Int) : '\r' ∉ Text.ofInt n := by
  rw [ofInt_eq]
  exact return_not_mem_of_word (isWordChar_number fun c hc => Text.isDigit_of_mem_ofNat hc)

theorem return_not_mem_floatText {x : Binary64} (h : IsReadable x) : '\r' ∉ floatText x := by
  cases h with
  | finite hf =>
    obtain ⟨whole, places, htext, hwhole, hplaces, -⟩ := exists_floatText hf
    have hword : '\r' ∉ signText x.isNegative ++ whole := return_not_mem_of_word (isWordChar_number hwhole)
    have hplaces : '\r' ∉ '.' :: places := by simp [return_not_mem_of_digits hplaces]
    rw [htext, List.mem_append, not_or]
    exact ⟨hword, hplaces⟩
  | infinity negative => cases negative <;> decide
  | nan negative => cases negative <;> decide

theorem return_not_mem_of_marked {mark : Char} (hm : mark ≠ '\r') {t : Text} (h : IsMarked mark t) :
    '\r' ∉ t := by
  rcases h with rfl | ⟨word, hword, rfl⟩
  · simp
  · simp [return_not_mem_of_word hword.2, hm.symm]

theorem return_not_mem_timeText {t : ClockTime} (h : t.IsValid) : '\r' ∉ Datetime.timeText t := by
  obtain ⟨hh, hm, hs, hn⟩ := h
  have hpad : ∀ n < 100, '\r' ∉ Datetime.padded 2 n := fun n hn =>
    return_not_mem_of_word (isWord_padded two_pos hn).2
  simp [Datetime.timeText, hpad t.hour (by omega), hpad t.minute (by omega), hpad t.second (by omega),
    return_not_mem_of_marked (by decide) (isMarked_fractionText hn)]

theorem return_not_mem_offset {o : Option TimeOffset} (h : ∀ x ∈ o, x.IsValid) :
    '\r' ∉ Datetime.partText Datetime.offsetText o := by
  obtain ⟨joined, plus, colon, hjoined, hplus, hcolon, htext⟩ := exists_offset h
  rw [htext]
  simp [return_not_mem_of_word hjoined, return_not_mem_of_marked (by decide) hplus,
    return_not_mem_of_marked (by decide) hcolon]

theorem return_not_mem_display {d : Datetime} (h : d.IsValid) : '\r' ∉ d.display := by
  cases h with
  | date hd => simp [Datetime.display, Datetime.partText, return_not_mem_of_word (isWordChar_dateText hd)]
  | time ht => simp [Datetime.display, Datetime.partText, return_not_mem_timeText ht]
  | both hd ht ho =>
    have hoffset := return_not_mem_offset ho
    simp only [Datetime.partText] at hoffset
    simp [Datetime.display, Datetime.partText, return_not_mem_of_word (isWordChar_dateText hd),
      return_not_mem_timeText ht, hoffset]

theorem return_not_mem_scalarText {v : Toml} (h : IsScalar v) : '\r' ∉ scalarText v := by
  cases h with
  | string s => exact return_not_mem_stringText s
  | integer => exact return_not_mem_ofInt _
  | float hx => exact return_not_mem_floatText hx
  | boolean b => cases b <;> decide
  | datetime hd => exact return_not_mem_display hd

theorem return_not_mem_tailText {items : List Toml} (h : ∀ v ∈ items, '\r' ∉ inlineText v) :
    '\r' ∉ tailText items := by
  induction items with
  | nil => decide
  | cons v items ih =>
    obtain ⟨hv, hitems⟩ := List.forall_mem_cons.mp h
    simp [tailText, hv, ih hitems]

theorem return_not_mem_inlineText {v : Toml} (h : IsLine v) : '\r' ∉ inlineText v := by
  induction h with
  | scalar h =>
    rw [inlineText_scalar h]
    exact return_not_mem_scalarText h
  | @array items h ih =>
    cases items with
    | nil => decide
    | cons v items =>
      obtain ⟨hv, hitems⟩ := List.forall_mem_cons.mp ih
      simp [inlineText, hv, return_not_mem_tailText hitems]

theorem return_not_mem_entryLines {es : Entries} (h : ∀ e ∈ es, IsLine e.2) : '\r' ∉ entryLines es := by
  induction es with
  | nil => simp [entryLines]
  | cons e es ih =>
    obtain ⟨k, v⟩ := e
    obtain ⟨hv, hes⟩ := List.forall_mem_cons.mp h
    rw [entryLines_cons]
    simp [return_not_mem_keyText k, return_not_mem_inlineText hv, ih hes]

theorem return_not_mem_text {b : Block} (h : b.IsReadable) : '\r' ∉ b.text := by
  have hheader : '\r' ∉ headerText b.isElement b.path := by
    unfold headerText
    split_ifs <;> simp [elementHeader, tableHeader, return_not_mem_pathText]
  have hgap : '\r' ∉ if b.hasGap then ['\n'] else [] := by split_ifs <;> decide
  simp [Block.text, hheader, hgap, return_not_mem_entryLines h.isLine]

theorem return_not_mem_blocksText {bs : List Block} (h : ∀ b ∈ bs, b.IsReadable) :
    '\r' ∉ blocksText bs := fun hc => by
  obtain ⟨b, hb, hc⟩ := List.mem_flatMap.mp hc
  exact return_not_mem_text (h b hb) hc

/-! ### Line ends and the mark -/

theorem foldLines_of_not_mem {s : Text} (h : '\r' ∉ s) : foldLines s = s := by
  induction s with
  | nil => rfl
  | cons c s ih =>
    rw [List.mem_cons, not_or] at h
    rw [foldLines, ih h.2]
    exact fun t hc => absurd hc.symm h.1

theorem dropMark_of_head? {s : Text} (h : s.head? ≠ some '\ufeff') : dropMark s = s := by
  unfold dropMark
  split
  · exact absurd rfl h
  · rfl

theorem head?_blocksText (bs : List Block) : (blocksText bs).head? ≠ some '\ufeff' := by
  cases bs with
  | nil => simp [blocksText]
  | cons b bs =>
    have hheader : ∃ t, headerText b.isElement b.path = '[' :: t := by
      unfold headerText
      split_ifs
      · exact ⟨_, rfl⟩
      · exact ⟨_, rfl⟩
    obtain ⟨t, ht⟩ := hheader
    rw [blocksText_cons, Block.text, ht]
    cases b.hasGap
    · simp
    · simp

theorem head?_entryLines_append (es : Entries) {s : Text} (hs : s.head? ≠ some '\ufeff') :
    (entryLines es ++ s).head? ≠ some '\ufeff' := by
  cases es with
  | nil => exact hs
  | cons e es =>
    obtain ⟨k, v⟩ := e
    obtain ⟨c, t, ht, hc⟩ := head?_keyText k
    rw [entryLines_cons, ht]
    rintro heq
    obtain rfl := Option.some.inj heq
    exact absurd hc (by decide)

/-- **A written document is read as its entries and blocks.** -/
theorem sections?_document {es : Entries} (hes : ∀ e ∈ es, IsLine e.2) {bs : List Block}
    (hbs : ∀ b ∈ bs, b.IsReadable) :
    sections? (entryLines es ++ blocksText bs) =
      some (⟨[], false, entryDrafts es⟩ :: bs.map Block.section) := by
  have hreturn : '\r' ∉ entryLines es ++ blocksText bs := by
    simp [return_not_mem_entryLines hes, return_not_mem_blocksText hbs]
  have hlen := length_le_length_entryLines es
  obtain ⟨n, hn⟩ : ∃ n, (entryLines es ++ blocksText bs).length + 1 = n + es.length :=
    ⟨(entryLines es ++ blocksText bs).length + 1 - es.length, by rw [List.length_append]; omega⟩
  rw [List.length_append] at hn
  rw [sections?, dropMark_of_head? (head?_entryLines_append es (head?_blocksText bs)),
    foldLines_of_not_mem hreturn]
  simp only [List.length_append, hn]
  rw [readSections_entryLines hes, readSections_blocksText hbs (by omega)]
  rfl

end DiceBot.Toml
