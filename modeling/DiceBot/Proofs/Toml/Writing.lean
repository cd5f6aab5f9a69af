import DiceBot.Proofs.Toml.Building
import DiceBot.Proofs.Toml.Lines

/-! # What is written

The entries of a table that can be written are values on lines first, then tables and arrays of tables.
The former are written line by line, the latter as blocks, and the blocks build what they stand for
(`isPlaced_of_isWritable`). -/

namespace DiceBot.Toml

variable {v : Toml} {es pl tl : Entries} {n : Nat} {p : Place} {started sectioned : Bool} {k : Text}

/-! ### Values on lines -/

theorem holdsTable_of_isLine (h : IsLine v) : holdsTable v = false := by
  induction h with
  | scalar h => cases h <;> rfl
  | @array items h ih =>
    clear h
    show anyHoldsTable items = false
    induction items with
    | nil => rfl
    | cons v items ihl =>
      obtain ⟨hv, hitems⟩ := List.forall_mem_cons.mp ih
      rw [anyHoldsTable, hv, ihl hitems]
      rfl

theorem isTable_of_isLine (h : IsLine v) : isTable v = false := by
  have hholds := holdsTable_of_isLine h
  cases v with
  | table es => cases hholds
  | _ => rfl

/-- An item of an array is written behind the start of the array or a comma. -/
def ItemWritten (v : Toml) : Prop :=
  ∀ {n : Nat} {p : Place} {started : Bool} {key : Text} {direct : Bool} {before : Text} {isFirst : Bool},
    writingSteps v ≤ n → writeItem n p started key direct (some before) isFirst v =
      some ((if isFirst then before ++ ['['] else ", ".toList) ++ inlineText v)

/-- The items of an array behind the first. -/
theorem writeItems_rest {items : List Toml} (h : ∀ v ∈ items, ItemWritten v) {key before : Text}
    {direct : Bool} (hn : itemsSteps items ≤ n) :
    ∃ text, writeItems n p started key direct (some before) false items = some text ∧
      text ++ [']'] = tailText items := by
  induction items generalizing n with
  | nil =>
    obtain ⟨m, rfl⟩ := Nat.exists_eq_add_of_le' hn
    exact ⟨[], rfl, rfl⟩
  | cons v items ih =>
    obtain ⟨hv, hitems⟩ := List.forall_mem_cons.mp h
    rw [itemsSteps] at hn
    obtain ⟨m, rfl⟩ := Nat.exists_eq_add_of_le' (show 1 ≤ n by omega)
    obtain ⟨text, htext, htail⟩ := ih hitems (n := m) (by omega)
    refine ⟨", ".toList ++ inlineText v ++ text, ?_, ?_⟩
    · rw [writeItems, hv (by omega), htext]
      simp
    · simp [tailText, htail]

/-- An array of values without tables, behind what opens its line. -/
theorem writeItems_first {items : List Toml} (h : ∀ v ∈ items, ItemWritten v)
    (hline : ∀ v ∈ items, IsLine v) {key before : Text} {direct : Bool} (hn : itemsSteps items ≤ n) :
    writeItems n p started key direct (some before) true items =
      some (before ++ inlineText (.array items)) := by
  cases items with
  | nil =>
    obtain ⟨m, rfl⟩ := Nat.exists_eq_add_of_le' hn
    rfl
  | cons v items =>
    obtain ⟨hv, hitems⟩ := List.forall_mem_cons.mp h
    rw [itemsSteps] at hn
    obtain ⟨m, rfl⟩ := Nat.exists_eq_add_of_le' (show 1 ≤ n by omega)
    obtain ⟨text, htext, htail⟩ : ∃ text,
        writeItems m p started key direct (some before) false items = some text ∧
          text ++ [']'] = tailText items := writeItems_rest hitems (by omega)
    have hclosing : closing (v :: items) = [']'] := by
      have htable := isTable_of_isLine (hline v (List.mem_cons_self ..))
      cases v with
      | table es => cases htable
      | _ => rfl
    rw [writeItems, hv (by omega), htext]
    simp [hclosing, inlineText, ← htail]

theorem itemWritten_of_isLine (h : IsLine v) : ItemWritten v := by
  induction h with
  | @scalar v h =>
    intro n p started key direct before isFirst hn
    have hn : 1 ≤ n := by
      have hsteps : writingSteps v = 2 := by cases h <;> rfl
      omega
    obtain ⟨m, rfl⟩ := Nat.exists_eq_add_of_le' hn
    have hitem : writeItem (m + 1) p started key direct (some before) isFirst v =
        (itemLead? (some before) isFirst).map (· ++ scalarText v) := by
      cases h <;> rfl
    rw [hitem, inlineText_scalar h]
    cases isFirst <;> rfl
  | @array items h ih =>
    intro n p started key direct before isFirst hn
    rw [writingSteps] at hn
    obtain ⟨m, rfl⟩ := Nat.exists_eq_add_of_le' (show 1 ≤ n by omega)
    rw [writeItem]
    cases isFirst
    · exact writeItems_first ih h (by omega)
    · exact writeItems_first ih h (by omega)

/-- What opens the line of an entry, if no section was written yet. -/
theorem opening?_false (p : Place) (started : Bool) (k : Text) :
    opening? p started false k =
      some ((if started then [] else p.header) ++ keyText k ++ " = ".toList) := rfl

/-- **An entry without tables is written on a line.** -/
theorem writeEntry_line (h : IsLine v) (hn : writingSteps v ≤ n) :
    writeEntry n p started false k v =
      some ((if started then [] else p.header) ++ entryLines [(k, v)]) := by
  have hlines : entryLines [(k, v)] = keyText k ++ " = ".toList ++ inlineText v ++ ['\n'] := by
    simp [entryLines]
  rw [hlines]
  cases h with
  | scalar h =>
    have hsteps : writingSteps v = 2 := by cases h <;> rfl
    obtain ⟨m, rfl⟩ := Nat.exists_eq_add_of_le' (show 1 ≤ n by omega)
    have hentry : writeEntry (m + 1) p started false k v =
        (opening? p started false k).map (· ++ scalarText v ++ ['\n']) := by
      cases h <;> rfl
    rw [hentry, opening?_false, inlineText_scalar h]
    simp
  | @array items h =>
    rw [writingSteps] at hn
    obtain ⟨m, rfl⟩ := Nat.exists_eq_add_of_le' (show 1 ≤ n by omega)
    have hend : lineEnd items = ['\n'] := by
      cases items with
      | nil => rfl
      | cons v items =>
        have htable := isTable_of_isLine (h v (List.mem_cons_self ..))
        cases v with
        | table es => cases htable
        | _ => rfl
    rw [writeEntry, opening?_false,
      writeItems_first (fun v hv => itemWritten_of_isLine (h v hv)) h (by omega)]
    simp [hend]

/-! ### Entries one after another -/

/-- A table, or an array of tables, is written as blocks that build it, behind what has to come before
the first section of its parent. -/
def IsPlaced (v : Toml) : Prop :=
  ∀ {n : Nat} (p : Place) (started sectioned : Bool) (k : Text), writingSteps v ≤ n →
    ∃ bs node, bs ≠ [] ∧ (∀ b ∈ bs, b.IsReadable) ∧
      writeEntry n p started sectioned k v = some ((if started then [] else p.lead) ++ blocksText bs) ∧
      Builds (p.path ++ [k]) (bs.map Block.section) none (some node) ∧ node.value = v

/-- Tables and arrays of tables are written one after another. -/
theorem writeEntries_tables (p : Place) (started sectioned : Bool) (h : ∀ e ∈ tl, IsPlaced e.2)
    (hn : entriesSteps tl ≤ n) (hfirst : started = true ∨ tl ≠ []) :
    ∃ bs nodes, (∀ b ∈ bs, b.IsReadable) ∧
      writeEntries n p started sectioned tl =
        some ((if started then [] else p.lead) ++ blocksText bs) ∧
      Grows p.path tl (bs.map Block.section) nodes := by
  induction tl generalizing n started sectioned with
  | nil =>
    obtain ⟨m, rfl⟩ := Nat.exists_eq_add_of_le' hn
    obtain rfl := hfirst.resolve_right fun hne => hne rfl
    exact ⟨[], [], by simp, rfl, .nil⟩
  | cons e tl ih =>
    obtain ⟨k, v⟩ := e
    obtain ⟨hv, htl⟩ := List.forall_mem_cons.mp h
    rw [entriesSteps] at hn
    obtain ⟨m, rfl⟩ := Nat.exists_eq_add_of_le' (show 1 ≤ n by omega)
    obtain ⟨bs, node, hne, hread, htext, hbuilds, hvalue⟩ :=
      hv p started sectioned k (show writingSteps v ≤ m by omega)
    obtain ⟨bs', nodes, hread', htext', hgrows⟩ :=
      ih true (sectioned || holdsTable v) htl (show entriesSteps tl ≤ m by omega) (Or.inl rfl)
    refine ⟨bs ++ bs', (k, node) :: nodes, ?_, ?_, ?_⟩
    · exact fun b hb => (List.mem_append.mp hb).elim (hread b) (hread' b)
    · rw [writeEntries, htext, htext', blocksText_append]
      simp
    · rw [List.map_append]
      exact .cons (by simpa using hne) hbuilds hvalue hgrows

/-- Entries without tables are written line by line in front of others. -/
theorem writeEntries_lines (hpl : ∀ e ∈ pl, IsLine e.2) (hn : entriesSteps (pl ++ tl) ≤ n) :
    ∃ m, entriesSteps tl ≤ m ∧ writeEntries n p true false (pl ++ tl) =
      (writeEntries m p true false tl).map (entryLines pl ++ ·) := by
  induction pl generalizing n with
  | nil => exact ⟨n, hn, by simp [entryLines]⟩
  | cons e pl ih =>
    obtain ⟨k, v⟩ := e
    obtain ⟨hv, hpl⟩ : IsLine v ∧ ∀ e ∈ pl, IsLine e.2 := List.forall_mem_cons.mp hpl
    rw [List.cons_append, entriesSteps] at hn
    obtain ⟨m, rfl⟩ := Nat.exists_eq_add_of_le' (show 1 ≤ n by omega)
    obtain ⟨i, hi, htext⟩ := ih hpl (show entriesSteps (pl ++ tl) ≤ m by omega)
    have hholds : holdsTable v = false := holdsTable_of_isLine hv
    have hlines : entryLines ((k, v) :: pl) = entryLines [(k, v)] ++ entryLines pl :=
      entryLines_append [(k, v)] pl
    refine ⟨i, hi, ?_⟩
    rw [List.cons_append, writeEntries, writeEntry_line hv (by omega), hholds, Bool.or_false, htext,
      hlines]
    cases writeEntries i p true false tl <;> simp

/-- **The entries of a table**: lines, behind the header, and blocks. The header is left out if there are
only blocks. -/
theorem writeEntries_body (hpl : ∀ e ∈ pl, IsLine e.2) (htl : ∀ e ∈ tl, IsPlaced e.2)
    (hn : entriesSteps (pl ++ tl) ≤ n) :
    ∃ bs nodes, (∀ b ∈ bs, b.IsReadable) ∧
      writeEntries n p false false (pl ++ tl) =
        some ((if pl = [] ∧ tl ≠ [] then p.lead else p.header) ++ entryLines pl ++ blocksText bs) ∧
      Grows p.path tl (bs.map Block.section) nodes := by
  cases pl with
  | nil =>
    cases tl with
    | nil =>
      obtain ⟨m, rfl⟩ := Nat.exists_eq_add_of_le' hn
      refine ⟨[], [], by simp, ?_, .nil⟩
      show writeEntries (m + 1) p false false [] = _
      simp [writeEntries, entryLines, blocksText]
    | cons e tl =>
      obtain ⟨bs, nodes, hread, htext, hgrows⟩ :=
        writeEntries_tables p false false htl hn (Or.inr (by simp))
      exact ⟨bs, nodes, hread, by simpa [entryLines] using htext, hgrows⟩
  | cons e pl =>
    obtain ⟨k, v⟩ := e
    obtain ⟨hv, hpl⟩ : IsLine v ∧ ∀ e ∈ pl, IsLine e.2 := List.forall_mem_cons.mp hpl
    rw [List.cons_append, entriesSteps] at hn
    obtain ⟨m, rfl⟩ := Nat.exists_eq_add_of_le' (show 1 ≤ n by omega)
    obtain ⟨i, hi, hlines⟩ := writeEntries_lines (p := p) hpl (show entriesSteps (pl ++ tl) ≤ m by omega)
    obtain ⟨bs, nodes, hread, htext, hgrows⟩ :=
      writeEntries_tables p true false htl hi (Or.inl rfl)
    have hcons : entryLines ((k, v) :: pl) = entryLines [(k, v)] ++ entryLines pl :=
      entryLines_append [(k, v)] pl
    refine ⟨bs, nodes, hread, ?_, hgrows⟩
    rw [List.cons_append, writeEntries, writeEntry_line hv (by omega), holdsTable_of_isLine hv,
      Bool.or_false, hlines, htext, hcons]
    simp

end DiceBot.Toml
