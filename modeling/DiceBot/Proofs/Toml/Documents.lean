import DiceBot.Proofs.Toml.Characters
import DiceBot.Proofs.Toml.Tables

/-! # Documents are read back

A document in which no value without tables stands behind one that holds a table is written, and what
is written is read as the same entries (`exists_documentText?`). Any other document cannot be written
(`documentText?_eq_none`). -/

namespace DiceBot.Toml

variable {es pl tl : Entries} {p : Place} {started sectioned direct isFirst : Bool} {k : Text}

/-- No value without tables stands behind one that holds a table. -/
def LinesFirst (es : Entries) : Prop := es.Pairwise fun a b => holdsTable a.2 → holdsTable b.2

instance (es : Entries) : Decidable (LinesFirst es) := inferInstanceAs (Decidable (List.Pairwise _ es))

/-- What stands behind a table in the order of the keys holds a table. -/
theorem LinesFirst.holdsTable_of_isBefore (h : LinesFirst es) (hasc : Ascending es) {a b : Text × Toml}
    (ha : a ∈ es) (hb : b ∈ es) (hbefore : Text.isBefore a.1 b.1) (htable : holdsTable a.2) :
    holdsTable b.2 := by
  obtain ⟨i, hi, rfl⟩ := List.getElem_of_mem ha
  obtain ⟨j, hj, rfl⟩ := List.getElem_of_mem hb
  rcases Nat.lt_trichotomy i j with hij | rfl | hji
  · exact List.pairwise_iff_getElem.mp h i j hi hj hij htable
  · rw [Text.isBefore_irrefl] at hbefore
    cases hbefore
  · have hafter := List.pairwise_iff_getElem.mp hasc j i hj hi hji
    rw [Text.isBefore_asymm hafter] at hbefore
    cases hbefore

/-! ### Documents that can be written -/

theorem topEntries_entryDrafts (h : ∀ e ∈ pl, IsLine e.2) (es : Entries) :
    topEntries (entryDrafts pl) es = some (insertAll pl es) := by
  induction pl generalizing es with
  | nil => rfl
  | cons e pl ih =>
    obtain ⟨k, v⟩ := e
    obtain ⟨hv, hpl⟩ : IsLine v ∧ ∀ e ∈ pl, IsLine e.2 := List.forall_mem_cons.mp h
    show topEntries ((k, draft v) :: entryDrafts pl) es = _
    simp only [topEntries, finish_draft hv]
    exact ih hpl _

/-- Lines and then tables are written as a document that is read as both. -/
theorem exists_documentText?_append (hasc : Ascending (pl ++ tl)) (hpl : ∀ e ∈ pl, IsLine e.2)
    (htl : ∀ e ∈ tl, IsPlaced e.2) :
    ∃ t, documentText? (pl ++ tl) = some t ∧ ofText? t = some (pl ++ tl) := by
  obtain ⟨bs, nodes, hread, htext, hgrows⟩ :=
    writeEntries_body (p := topPlace) hpl htl (le_refl (entriesSteps (pl ++ tl)))
  have hd := hasc.key_ne
  obtain ⟨hdpl, hdtl, hdiff⟩ := List.pairwise_append.mp hd
  have hmem : ∀ e, e ∈ insertAll pl [] ↔ e ∈ pl := fun e => by
    rw [mem_insertAll_iff hdpl fun _ _ => rfl]
    simp
  have hlines : insertAll pl [] = pl :=
    (Ascending.insertAll List.Pairwise.nil).eq_of_mem_iff (List.pairwise_append.mp hasc).1 hmem
  have hnew : ∀ e ∈ tl, lookup? e.1 (plainNodes pl) = none := fun e he => by
    rw [lookup?_plainNodes, lookup?_eq_none_iff.mpr fun x hx => hdiff x hx e he, Option.map_none]
  refine ⟨entryLines pl ++ blocksText bs, ?_, ?_⟩
  · rw [documentText?, htext, topPlace]
    simp
  · rw [ofText?, sections?_document hpl hread, Option.bind_some, ofSections?,
      topEntries_entryDrafts hpl, hlines]
    simp only [Option.bind_eq_bind, Option.bind_some]
    rw [hgrows.builds_top hdtl hnew]
    exact congrArg some (nodeValues_insertAll hasc (fun _ => List.mem_append) hd
      (List.pairwise_append.mp hasc).1 (fun _ => Iff.rfl) hgrows.nodes_eq)

theorem isLine_of_isWritable {v : Toml} (h : IsWritable v) (hv : holdsTable v = false) : IsLine v := by
  cases h with
  | line h => exact h
  | tables hne htable =>
    obtain ⟨v, items, rfl⟩ := List.exists_cons_of_ne_nil hne
    have ht := htable v (List.mem_cons_self ..)
    cases v with
    | table => cases hv
    | _ => cases ht
  | table => cases hv

/-- Entries of which the values without tables come first are lines and then tables. -/
theorem LinesFirst.exists_append (h : LinesFirst es) :
    ∃ pl tl, es = pl ++ tl ∧ (∀ e ∈ pl, holdsTable e.2 = false) ∧ ∀ e ∈ tl, holdsTable e.2 := by
  induction es with
  | nil => exact ⟨[], [], rfl, by simp, by simp⟩
  | cons e es ih =>
    obtain ⟨he, hes⟩ := List.pairwise_cons.mp h
    cases hholds : holdsTable e.2 with
    | true =>
      have htables : ∀ x ∈ e :: es, holdsTable x.2 :=
        List.forall_mem_cons.mpr ⟨hholds, fun x hx => he x hx hholds⟩
      exact ⟨[], e :: es, rfl, by simp, htables⟩
    | false =>
      obtain ⟨pl, tl, rfl, hpl, htl⟩ := ih hes
      exact ⟨e :: pl, tl, rfl, List.forall_mem_cons.mpr ⟨hholds, hpl⟩, htl⟩

/-- **A document is read back**: if its values can be written and no table stands in the way of a line,
there is a text, and the text is read as the document. -/
theorem exists_documentText? (hasc : Ascending es) (hw : ∀ e ∈ es, IsWritable e.2) (h : LinesFirst es) :
    ∃ t, documentText? es = some t ∧ ofText? t = some es := by
  obtain ⟨pl, tl, rfl, hpl, htl⟩ := h.exists_append
  obtain ⟨hwpl, hwtl⟩ := List.forall_mem_append.mp hw
  exact exists_documentText?_append hasc (fun e he => isLine_of_isWritable (hwpl e he) (hpl e he))
    fun e he => isPlaced_of_isWritable (hwtl e he) (htl e he)

/-! ### Documents that cannot be written -/

/-- Without a place to open a line nothing without tables is written. -/
theorem writeItems_none {n : Nat} {items : List Toml} (h : anyHoldsTable items = false) :
    writeItems n p started k direct none true items = none := by
  -- an array within the array is written with two steps less, and has no place to open a line either
  induction n using Nat.strong_induction_on generalizing items direct with
  | _ n ih =>
    match n, items with
    | 0, _ => rfl
    | n + 1, [] => rfl
    | 1, v :: items => rfl
    | n + 2, v :: items =>
      have hv : holdsTable v = false := (Bool.or_eq_false_iff.mp h).1
      have hitem : writeItem (n + 1) p started k direct none true v = none := by
        cases v with
        | table => cases hv
        | array inner => exact ih n (by omega) hv
        | _ => rfl
      rw [writeItems, hitem]
      rfl

/-- Behind a section only what holds a table is written. -/
theorem holdsTable_of_writeEntry {n : Nat} {v : Toml} {t : Text}
    (h : writeEntry n p started true k v = some t) : holdsTable v := by
  by_contra hv
  rw [Bool.not_eq_true] at hv
  cases n with
  | zero => cases h
  | succ n =>
    cases v with
    | table => cases hv
    | array items =>
      have hopening : opening? p started true k = none := rfl
      rw [writeEntry, hopening, writeItems_none hv] at h
      cases h
    | _ => cases h

/-- The first entry of a table is written, and the others behind it. -/
theorem exists_of_writeEntries {n : Nat} {v : Toml} {t : Text}
    (h : writeEntries n p started sectioned ((k, v) :: es) = some t) :
    ∃ m t₁ t₂, writeEntry m p started sectioned k v = some t₁ ∧
      writeEntries m p true (sectioned || holdsTable v) es = some t₂ := by
  cases n with
  | zero => cases h
  | succ n =>
    rw [writeEntries] at h
    obtain ⟨t₁, h₁, h⟩ := Option.bind_eq_some_iff.mp h
    obtain ⟨t₂, h₂, -⟩ := Option.bind_eq_some_iff.mp h
    exact ⟨n, t₁, t₂, h₁, h₂⟩

theorem holdsTable_of_writeEntries {n : Nat} {t : Text}
    (h : writeEntries n p started true es = some t) : ∀ e ∈ es, holdsTable e.2 := by
  induction es generalizing n started t with
  | nil => simp
  | cons e es ih =>
    obtain ⟨k, v⟩ := e
    obtain ⟨m, t₁, t₂, h₁, h₂⟩ := exists_of_writeEntries h
    exact List.forall_mem_cons.mpr ⟨holdsTable_of_writeEntry h₁, ih h₂⟩

theorem linesFirst_of_writeEntries {n : Nat} {t : Text}
    (h : writeEntries n p started sectioned es = some t) : LinesFirst es := by
  induction es generalizing n started sectioned t with
  | nil => exact List.Pairwise.nil
  | cons e es ih =>
    obtain ⟨k, v⟩ := e
    obtain ⟨m, t₁, t₂, -, h₂⟩ := exists_of_writeEntries h
    refine List.pairwise_cons.mpr ⟨fun x hx hv => ?_, ih h₂⟩
    have hsectioned : (sectioned || holdsTable v) = true := by
      rw [show holdsTable v = true from hv, Bool.or_true]
    rw [hsectioned] at h₂
    exact holdsTable_of_writeEntries h₂ x hx

/-- **A document with a line behind a table is not written.** -/
theorem documentText?_eq_none (h : ¬ LinesFirst es) : documentText? es = none :=
  Option.eq_none_iff_forall_ne_some.mpr fun _ ht => h (linesFirst_of_writeEntries ht)

end DiceBot.Toml
