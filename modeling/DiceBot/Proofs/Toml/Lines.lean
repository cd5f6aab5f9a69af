import DiceBot.Proofs.Toml.Values

/-! # Documents line by line

A written document is a list of entries, each on a line of its own, and of blocks: a header, perhaps
behind an empty line, and the entries below it. It is read as the sections that these are
(`sections?_document`). -/

namespace DiceBot.Toml

variable {rest : Text}

/-! ### Blocks -/

/-- A header with the entries below it, as it is written. -/
structure Block where
  hasGap : Bool
  path : List Text
  isElement : Bool
  entries : Entries

/-- Entries, each on a line. -/
def entryLines (es : Entries) : Text :=
  es.flatMap fun e => keyText e.1 ++ " = ".toList ++ inlineText e.2 ++ ['\n']

/-- Entries as they are written. -/
def entryDrafts (es : Entries) : List (Text × Draft) := es.map fun e => (e.1, draft e.2)

/-- A header. -/
def headerText (isElement : Bool) (path : List Text) : Text :=
  if isElement then elementHeader path else tableHeader path

/-- The text of a block. -/
def Block.text (b : Block) : Text :=
  (if b.hasGap then ['\n'] else []) ++ headerText b.isElement b.path ++ entryLines b.entries

/-- The section that a block is. -/
def Block.section (b : Block) : Section := ⟨b.path, b.isElement, entryDrafts b.entries⟩

/-- The text of blocks. -/
def blocksText (bs : List Block) : Text := bs.flatMap Block.text

/-- A block can be read: it has a path, and its values stand on lines. -/
structure Block.IsReadable (b : Block) : Prop where
  path_ne_nil : b.path ≠ []
  isLine : ∀ e ∈ b.entries, IsLine e.2

theorem entryLines_cons (k : Text) (v : Toml) (es : Entries) :
    entryLines ((k, v) :: es) =
      keyText k ++ (' ' :: '=' :: ' ' :: (inlineText v ++ '\n' :: entryLines es)) := by
  simp [entryLines]

theorem entryLines_append (es es' : Entries) : entryLines (es ++ es') = entryLines es ++ entryLines es' :=
  List.flatMap_append

theorem blocksText_cons (b : Block) (bs : List Block) : blocksText (b :: bs) = b.text ++ blocksText bs := rfl

theorem blocksText_append (bs bs' : List Block) : blocksText (bs ++ bs') = blocksText bs ++ blocksText bs' :=
  List.flatMap_append

/-! ### Lines -/

theorem finishLine?_newline (s : Text) : finishLine? ('\n' :: s) = some s := by
  rw [finishLine?, skipSpaces_cons (by decide)]
  rfl

theorem endsValue_newline (s : Text) : EndsValue ('\n' :: s) := fun c hc => by
  obtain rfl := Option.some.inj hc
  exact Or.inl rfl

theorem readEntry_line {v : Toml} (h : IsLine v) (k s : Text) :
    readEntry (keyText k ++ (' ' :: '=' :: ' ' :: (inlineText v ++ '\n' :: s))) =
      some (([k], draft v), s) := by
  have hkey (t : Text) : EndsKey (' ' :: '=' :: t) := fun c hc => by
    obtain rfl := Option.some.inj hc
    decide
  have hequals (t : Text) : skipSpaces (' ' :: '=' :: t) = '=' :: t :=
    (List.dropWhile_cons_of_pos rfl).trans (skipSpaces_cons (by decide) t)
  have hvalue : skipSpaces (' ' :: (inlineText v ++ '\n' :: s)) = inlineText v ++ '\n' :: s := by
    obtain ⟨c, t, ht, hc⟩ := head?_inlineText h (endsValue_newline s)
    rw [ht]
    exact (List.dropWhile_cons_of_pos rfl).trans (skipSpaces_cons (isSpace_of_isValueStart hc) t)
  rw [readEntry, ← pathText_singleton, readDottedKey_pathText k [] (by simp) (hkey _) (by simp [hequals])]
  simp only [Option.bind_eq_bind, Option.bind_some, hequals, hvalue]
  rw [readValue_inlineText h (by simp; omega) (endsValue_newline s)]
  simp [finishLine?_newline]

/-! ### Sections -/

theorem readSections_newline (n : Nat) (current : Section) (s : Text) :
    readSections (n + 1) current ('\n' :: s) = readSections n current s := by
  rw [readSections, skipSpaces_cons (by decide)]
  rfl

/-- A line that begins a key is read as an entry. -/
theorem readSections_key {c : Char} (hc : isWordChar c ∨ c = '"') (n : Nat) (current : Section)
    (s : Text) :
    readSections (n + 1) current (c :: s) =
      (readEntry (c :: s)).bind fun ((key, d), s) =>
        (addEntry key d current.entries).bind fun es =>
          readSections n { current with entries := es } s := by
  have hne : ∀ x : Char, isWordChar x = false → x ≠ '"' → c ≠ x := by
    rintro x hx hq rfl
    rcases hc with hc | hc
    · rw [hx] at hc
      cases hc
    · exact hq hc
  rw [readSections, skipSpaces_cons (isSpace_of_key hc)]
  split
  · rename_i heq
    cases heq
  · rename_i heq
    exact absurd (List.cons.inj heq).1 (hne _ (by decide) (by decide))
  · rename_i heq
    exact absurd (List.cons.inj heq).1 (hne _ (by decide) (by decide))
  · rename_i heq
    exact absurd (List.cons.inj heq).1 (hne _ (by decide) (by decide))
  · rename_i heq
    exact absurd (List.cons.inj heq).1 (hne _ (by decide) (by decide))
  · rfl

/-- An entry is added to the section that it stands in. -/
theorem readSections_line {v : Toml} (h : IsLine v) (n : Nat) (current : Section) (k s : Text) :
    readSections (n + 1) current (keyText k ++ (' ' :: '=' :: ' ' :: (inlineText v ++ '\n' :: s))) =
      readSections n { current with entries := current.entries ++ [(k, draft v)] } s := by
  have hentry := readEntry_line h k s
  obtain ⟨c, t, ht, hc⟩ := head?_keyText k
  rw [ht, List.cons_append] at hentry ⊢
  rw [readSections_key hc, hentry]
  simp [addEntry]

theorem length_lt_length_pathText (k : Text) (path : List Text) :
    path.length < (pathText (k :: path)).length := by
  induction path generalizing k with
  | nil =>
    rw [pathText_singleton]
    exact List.length_pos_iff.mpr (keyText_ne_nil k)
  | cons l path ih =>
    have hl := ih l
    rw [pathText_cons_cons, List.length_append, List.length_cons, List.length_cons]
    omega

/-- A path in brackets is read up to the end of its line. -/
theorem readHeader_pathText (isElement : Bool) (k : Text) (path : List Text) (s : Text) :
    readHeader isElement (pathText (k :: path) ++
      ((if isElement then [']', ']'] else [']']) ++ '\n' :: s)) = some (k :: path, s) := by
  generalize hb : (if isElement then [']', ']'] else [']']) = brackets
  have hstart : ∃ t, brackets ++ '\n' :: s = ']' :: t := by
    subst hb
    cases isElement <;> exact ⟨_, rfl⟩
  obtain ⟨t, ht⟩ := hstart
  have hend : EndsKey (brackets ++ '\n' :: s) := fun c hc => by
    rw [ht] at hc
    obtain rfl := Option.some.inj hc
    decide
  have hskip : skipSpaces (brackets ++ '\n' :: s) = brackets ++ '\n' :: s := by
    rw [ht, skipSpaces_cons (by decide)]
  have hlen : path.length < (pathText (k :: path) ++ (brackets ++ '\n' :: s)).length + 1 := by
    have hlt := length_lt_length_pathText k path
    rw [List.length_append]
    omega
  rw [readHeader, hb, skipSpaces_pathText,
    readDottedKey_pathText k path hlen hend (by rw [hskip, ht]; simp)]
  simp only [Option.bind_eq_bind, Option.bind_some, hskip]
  rw [Text.dropLead?_eq_some_iff.mpr rfl, Option.bind_some, finishLine?_newline]
  rfl

/-- A header begins the next section. -/
theorem readSections_header {path : List Text} (hpath : path ≠ []) (isElement : Bool) (n : Nat)
    (current : Section) (s : Text) :
    readSections (n + 1) current (headerText isElement path ++ s) =
      (readSections n ⟨path, isElement, []⟩ s).map (current :: ·) := by
  obtain ⟨k, path, rfl⟩ := List.exists_cons_of_ne_nil hpath
  cases isElement with
  | true =>
    have hheader : readHeader true (pathText (k :: path) ++ ([']', ']'] ++ '\n' :: s)) =
        some (k :: path, s) := readHeader_pathText true k path s
    have htext : headerText true (k :: path) ++ s =
        '[' :: '[' :: (pathText (k :: path) ++ ([']', ']'] ++ '\n' :: s)) := by
      simp [headerText, elementHeader]
    rw [htext, readSections, skipSpaces_cons (by decide)]
    show (readHeader true _).bind _ = _
    rw [hheader, Option.map_eq_bind]
    rfl
  | false =>
    have hheader : readHeader false (pathText (k :: path) ++ ([']'] ++ '\n' :: s)) =
        some (k :: path, s) := readHeader_pathText false k path s
    obtain ⟨c, t, ht, hc⟩ := head?_pathText k path
    have htext : headerText false (k :: path) ++ s =
        '[' :: (pathText (k :: path) ++ ([']'] ++ '\n' :: s)) := by
      simp [headerText, tableHeader]
    have hbracket : c ≠ '[' := by
      rintro rfl
      exact absurd hc (by decide)
    rw [htext, readSections, skipSpaces_cons (by decide)]
    split
    · rename_i heq
      cases heq
    · rename_i heq
      cases heq
    · rename_i heq
      cases heq
    · rename_i heq
      rw [ht] at heq
      exact absurd (List.cons.inj (List.cons.inj heq).2).1 hbracket
    · rename_i heq
      rw [← (List.cons.inj heq).2, hheader, Option.map_eq_bind]
      rfl
    · rename_i hno
      exact absurd rfl (hno _)

/-! ### Documents -/

/-- Entries are added to the section that they stand in. -/
theorem readSections_entryLines {es : Entries} (hes : ∀ e ∈ es, IsLine e.2) (n : Nat)
    (current : Section) (s : Text) :
    readSections (n + es.length) current (entryLines es ++ s) =
      readSections n { current with entries := current.entries ++ entryDrafts es } s := by
  induction es generalizing current with
  | nil => simp [entryLines, entryDrafts]
  | cons e es ih =>
    obtain ⟨k, v⟩ := e
    obtain ⟨hv, hes⟩ := List.forall_mem_cons.mp hes
    have htext : entryLines ((k, v) :: es) ++ s =
        keyText k ++ (' ' :: '=' :: ' ' :: (inlineText v ++ '\n' :: (entryLines es ++ s))) := by
      simp [entryLines_cons]
    rw [htext, List.length_cons, ← Nat.add_assoc, readSections_line hv, ih hes]
    simp [entryDrafts]

theorem length_le_length_entryLines (es : Entries) : es.length ≤ (entryLines es).length := by
  induction es with
  | nil => exact Nat.le_refl _
  | cons e es ih =>
    rw [entryLines_cons]
    simp only [List.length_append, List.length_cons]
    omega

/-- A block is read as the next section. -/
theorem readSections_block {b : Block} (hb : b.IsReadable) {n : Nat} {s : Text}
    (hn : (b.text ++ s).length < n) (current : Section) :
    ∃ m, s.length < m ∧
      readSections n current (b.text ++ s) = (readSections m b.section s).map (current :: ·) := by
  have hlen := length_le_length_entryLines b.entries
  have hheader : 0 < (headerText b.isElement b.path).length := by
    unfold headerText
    split_ifs <;> exact Nat.succ_pos _
  have hread (m : Nat) : readSections (m + b.entries.length + 1) current
      (headerText b.isElement b.path ++ (entryLines b.entries ++ s)) =
        (readSections m b.section s).map (current :: ·) := by
    rw [readSections_header hb.path_ne_nil, readSections_entryLines hb.isLine]
    rfl
  simp only [Block.text, List.append_assoc, List.length_append] at hn ⊢
  cases hgap : b.hasGap
  · obtain ⟨m, rfl⟩ : ∃ m, n = m + b.entries.length + 1 :=
      ⟨n - (b.entries.length + 1), by omega⟩
    exact ⟨m, by omega, hread m⟩
  · rw [hgap] at hn
    simp only [if_true, List.length_singleton] at hn
    obtain ⟨m, rfl⟩ : ∃ m, n = m + b.entries.length + 1 + 1 :=
      ⟨n - (b.entries.length + 2), by omega⟩
    exact ⟨m, by omega, (readSections_newline ..).trans (hread m)⟩

/-- **The lines of a section and the blocks behind it are read as what they are.** -/
theorem readSections_blocksText {bs : List Block} (hbs : ∀ b ∈ bs, b.IsReadable) {n : Nat}
    (hn : (blocksText bs).length < n) (current : Section) :
    readSections n current (blocksText bs) = some (current :: bs.map Block.section) := by
  induction bs generalizing n current with
  | nil =>
    obtain ⟨m, rfl⟩ := Nat.exists_eq_add_of_lt hn
    rfl
  | cons b bs ih =>
    obtain ⟨hb, hbs⟩ := List.forall_mem_cons.mp hbs
    rw [blocksText_cons] at hn ⊢
    obtain ⟨m, hm, hread⟩ := readSections_block hb hn current
    rw [hread, ih hbs hm]
    rfl

end DiceBot.Toml
