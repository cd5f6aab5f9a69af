import DiceBot.Proofs.Toml.Writing

/-! # Tables are built again

A table that can be written is built by the blocks it is written as, and so is an array of tables, one
element after another (`isPlaced_of_isWritable`). -/

namespace DiceBot.Toml

variable {es pl tl : Entries} {nodes : List (Text × Node)}

/-! ### The order of writing -/

theorem writingOrder_perm (es : Entries) : (writingOrder es).Perm es := by
  induction es with
  | nil => exact List.Perm.nil
  | cons e es ih =>
    have hmove (a b : Entries) : (a ++ e :: b).Perm (e :: (a ++ b)) := List.perm_middle
    unfold writingOrder at *
    cases ht : e.2.isTable with
    | true =>
      have ha : e.2.isTableArray = false := by
        cases hv : e.2 with
        | table => rfl
        | _ => rw [hv] at ht; cases ht
      simp only [List.filter_cons, ht, ha]
      exact (hmove _ _).trans (ih.cons e)
    | false =>
      cases ha : e.2.isTableArray with
      | true =>
        simp only [List.filter_cons, ht, ha, Bool.not_false, Bool.not_true, Bool.and_false, if_true,
          Bool.false_eq_true, if_false]
        rw [List.append_assoc, List.cons_append]
        refine (hmove _ _).trans ?_
        rw [← List.append_assoc]
        exact ih.cons e
      | false =>
        simp only [List.filter_cons, ht, ha]
        exact ih.cons e

theorem entriesSteps_eq (es : Entries) :
    entriesSteps es = (es.map fun e => writingSteps e.2 + 1).sum + 1 := by
  induction es with
  | nil => rfl
  | cons e es ih =>
    obtain ⟨k, v⟩ := e
    have hcons : entriesSteps ((k, v) :: es) = writingSteps v + entriesSteps es + 1 := rfl
    rw [hcons, ih, List.map_cons, List.sum_cons]
    show _ = writingSteps v + 1 + _ + 1
    omega

theorem entriesSteps_writingOrder (es : Entries) : entriesSteps (writingOrder es) = entriesSteps es := by
  rw [entriesSteps_eq, entriesSteps_eq, ((writingOrder_perm es).map _).sum_eq]

/-! ### The values of nodes -/

/-- **What was written apart comes together again**: the entries on lines, in order, and the nodes of the
others have the values of all entries. -/
theorem nodeValues_insertAll {lines : Entries} (hasc : Ascending es) (hmem : ∀ e, e ∈ es ↔ e ∈ pl ∨ e ∈ tl)
    (hd : (pl ++ tl).Pairwise fun a b => a.1 ≠ b.1) (hlines : Ascending lines)
    (hmem' : ∀ e, e ∈ lines ↔ e ∈ pl) (hnodes : nodes.map (fun e => (e.1, e.2.value)) = tl) :
    nodeValues (insertAll nodes (plainNodes lines)) = es := by
  have hnew : ∀ e ∈ tl, lookup? e.1 lines = none := fun e he =>
    lookup?_eq_none_iff.mpr fun x hx =>
      (List.pairwise_append.mp hd).2.2 x ((hmem' x).mp hx) e he
  rw [nodeValues_eq_map, map_insertAll, hnodes, ← nodeValues_eq_map, nodeValues_plainNodes]
  refine hlines.insertAll.eq_of_mem_iff hasc fun e => ?_
  rw [mem_insertAll_iff (List.pairwise_append.mp hd).2.1 hnew, hmem, hmem']
  exact or_comm

/-- The lines of a section have values in the order of their keys. -/
theorem exists_finishEntries (hpl : ∀ e ∈ pl, IsLine e.2) (hd : pl.Pairwise fun a b => a.1 ≠ b.1) :
    ∃ lines, finishEntries (entryDrafts pl) = some lines ∧ Ascending lines ∧
      ∀ e, e ∈ lines ↔ e ∈ pl := by
  induction pl with
  | nil => exact ⟨[], rfl, List.Pairwise.nil, fun _ => Iff.rfl⟩
  | cons e pl ih =>
    obtain ⟨k, v⟩ := e
    obtain ⟨hv, hpl⟩ : IsLine v ∧ ∀ e ∈ pl, IsLine e.2 := List.forall_mem_cons.mp hpl
    obtain ⟨hk, hd⟩ := List.pairwise_cons.mp hd
    obtain ⟨lines, hfinish, hasc, hmem⟩ := ih hpl hd
    have hnew : lookup? k lines = none :=
      lookup?_eq_none_iff.mpr fun e he => (hk e ((hmem e).mp he)).symm
    refine ⟨insert k v lines, ?_, hasc.insert k v, fun e => ?_⟩
    · show finishEntries ((k, draft v) :: entryDrafts pl) = _
      rw [finishEntries, finish_draft hv, hfinish]
      simp [hnew]
    · rw [mem_insert_iff hnew, hmem, List.mem_cons]

theorem spellsDate_entryDrafts (h : pl.head?.map Prod.fst ≠ some dateKey) :
    spellsDate (entryDrafts pl) = false := by
  cases pl with
  | nil => rfl
  | cons e pl => exact decide_eq_false h

/-- A section with lines begins a table that has their values. -/
theorem exists_sectionNode? (hpl : ∀ e ∈ pl, IsLine e.2) (hd : pl.Pairwise fun a b => a.1 ≠ b.1)
    (hdate : pl.head?.map Prod.fst ≠ some dateKey) :
    ∃ lines, sectionNode? (entryDrafts pl) = some (.table true (plainNodes lines)) ∧
      Ascending lines ∧ ∀ e, e ∈ lines ↔ e ∈ pl := by
  obtain ⟨lines, hfinish, hasc, hmem⟩ := exists_finishEntries hpl hd
  refine ⟨lines, ?_, hasc, hmem⟩
  rw [sectionNode?, spellsDate_entryDrafts hdate, if_neg Bool.false_ne_true, hfinish]
  rfl

/-! ### The blocks of a table -/

/-- Where a table can stand: in the empty place or as the next element of an array. -/
def Holds (a : Option Node) (old : List Toml) : Prop :=
  match a with
  | none => old = []
  | some (.elements last earlier) => elementValues earlier ++ [last.value] = old
  | some _ => False

variable {path : List Text} {ss : List Section}

/-- The lines of a section begin a table, and what was written below completes it, be it a table by
itself or the last element of an array. -/
theorem exists_section (hasc : Ascending es) (hperm : (pl ++ tl).Perm es) (hpl : ∀ e ∈ pl, IsLine e.2)
    (hdate : (pl ++ tl).head?.map Prod.fst ≠ some dateKey) (hgrows : Grows path tl ss nodes) :
    ∃ begun done, sectionNode? (entryDrafts pl) = some (.table true begun) ∧
      (∀ earlier, Builds path ss (some (slot earlier true begun)) (some (slot earlier true done))) ∧
      nodeValues done = es := by
  have hd : (pl ++ tl).Pairwise fun a b => a.1 ≠ b.1 :=
    hperm.symm.pairwise hasc.key_ne fun h => h.symm
  obtain ⟨hdpl, hdtl, hdiff⟩ := List.pairwise_append.mp hd
  have hmem : ∀ e, e ∈ es ↔ e ∈ pl ∨ e ∈ tl := fun e => by
    rw [← hperm.mem_iff, List.mem_append]
  have hheadpl : pl.head?.map Prod.fst ≠ some dateKey := by
    cases pl with
    | nil => simp
    | cons e pl => exact hdate
  obtain ⟨lines, hsection, hlines, hmem'⟩ := exists_sectionNode? hpl hdpl hheadpl
  have hnew : ∀ e ∈ tl, lookup? e.1 (plainNodes lines) = none := fun e he => by
    rw [lookup?_plainNodes, lookup?_eq_none_iff.mpr fun x hx => hdiff x ((hmem' x).mp hx) e he,
      Option.map_none]
  -- the key for dates comes first in the table only if there are no lines
  have hhead : plainNodes lines ≠ [] ∨ tl.head?.map Prod.fst ≠ some dateKey := by
    cases pl with
    | nil => exact Or.inr hdate
    | cons e pl =>
      left
      have he := (hmem' e).mpr (List.mem_cons_self ..)
      cases lines with
      | nil => cases he
      | cons x lines => exact List.cons_ne_nil _ _
  exact ⟨_, _, hsection, fun earlier => hgrows.builds hdtl hnew hhead earlier true,
    nodeValues_insertAll hasc hmem hd hlines hmem' hgrows.nodes_eq⟩

/-- A section with the blocks below it builds a table. -/
theorem exists_builds_table (hasc : Ascending es) (hperm : (pl ++ tl).Perm es)
    (hpl : ∀ e ∈ pl, IsLine e.2) (hdate : (pl ++ tl).head?.map Prod.fst ≠ some dateKey)
    (hgrows : Grows path tl ss nodes) :
    ∃ node, Builds path (⟨path, false, entryDrafts pl⟩ :: ss) none (some node) ∧
      node.value = .table es := by
  obtain ⟨begun, done, hsection, hbuilds, hvalues⟩ := exists_section hasc hperm hpl hdate hgrows
  have hfirst : addSection false (entryDrafts pl) none = some (.table true begun) := hsection
  exact ⟨_, .cons (List.append_nil path).symm hfirst (.table ..) (hbuilds none),
    congrArg Toml.table hvalues⟩

/-- A section with the blocks below it builds the next element of an array. -/
theorem exists_builds_element (hasc : Ascending es) (hperm : (pl ++ tl).Perm es)
    (hpl : ∀ e ∈ pl, IsLine e.2) (hdate : (pl ++ tl).head?.map Prod.fst ≠ some dateKey)
    (hgrows : Grows path tl ss nodes) {a : Option Node} {old : List Toml} (ha : Holds a old) :
    ∃ node, Builds path (⟨path, true, entryDrafts pl⟩ :: ss) a (some node) ∧
      Holds (some node) (old ++ [.table es]) := by
  obtain ⟨begun, done, hsection, hbuilds, hvalues⟩ := exists_section hasc hperm hpl hdate hgrows
  obtain ⟨earlier, hadd, hearlier⟩ : ∃ earlier,
      addSection true (entryDrafts pl) a = some (.elements (.table true begun) earlier) ∧
        elementValues earlier = old := by
    cases a with
    | none => exact ⟨[], by rw [addSection, hsection]; rfl, ha.symm⟩
    | some node =>
      cases node with
      | elements last earlier => exact ⟨last :: earlier, by rw [addSection, hsection]; rfl, ha⟩
      | _ => cases ha
  refine ⟨_, .cons (List.append_nil path).symm hadd (.elements ..) (hbuilds (some earlier)), ?_⟩
  show elementValues earlier ++ [Toml.table (nodeValues done)] = old ++ [_]
  rw [hearlier, hvalues]

/-! ### Writing tables -/

/-- A value as it is read that can be written: an array holds tables only or none at all, and no table
would be taken for a date and time. -/
inductive IsWritable : Toml → Prop
  | line {v : Toml} (h : IsLine v) : IsWritable v
  | tables {items : List Toml} (hne : items ≠ []) (htable : ∀ v ∈ items, v.isTable)
      (h : ∀ v ∈ items, IsWritable v) : IsWritable (.array items)
  | table {es : Entries} (hasc : Ascending es)
      (hdate : (writingOrder es).head?.map Prod.fst ≠ some dateKey)
      (h : ∀ e ∈ es, IsWritable e.2) : IsWritable (.table es)

/-- The next element of an array is written as blocks that add it to the array. -/
def IsElementPlaced (v : Toml) : Prop :=
  ∀ {n : Nat} (p : Place) (started : Bool) (k : Text) (before : Option Text) (isFirst : Bool),
    writingSteps v ≤ n → ∃ bs, bs ≠ [] ∧ (∀ b ∈ bs, b.IsReadable) ∧
      writeItem n p started k true before isFirst v =
        some ((if isFirst && !started then p.lead else []) ++ blocksText bs) ∧
      ∀ a old, Holds a old → ∃ node, Builds (p.path ++ [k]) (bs.map Block.section) a (some node) ∧
        Holds (some node) (old ++ [v])

/-- The entries of a table that stand on lines, and the others. -/
def lineEntries (es : Entries) : Entries := es.filter fun e => !e.2.isTable && !e.2.isTableArray

@[inherit_doc lineEntries]
def tableEntries (es : Entries) : Entries :=
  es.filter (fun e => e.2.isTableArray) ++ es.filter (fun e => e.2.isTable)

theorem writingOrder_eq (es : Entries) : writingOrder es = lineEntries es ++ tableEntries es :=
  List.append_assoc ..

/-- An entry that can be written and is neither a table nor an array of tables stands on a line. -/
theorem isLine_of_mem_lineEntries (h : ∀ e ∈ es, IsWritable e.2) : ∀ e ∈ lineEntries es, IsLine e.2 := by
  intro e he
  obtain ⟨he, hline⟩ := List.mem_filter.mp he
  have hw := h e he
  generalize e.2 = v at *
  cases hw with
  | line h => exact h
  | tables hne htable _ =>
    obtain ⟨v, items, rfl⟩ := List.exists_cons_of_ne_nil hne
    have harray : isTableArray (.array (v :: items)) := by
      rw [isTableArray, List.any_cons, htable v (List.mem_cons_self ..), Bool.true_or]
    rw [harray, Bool.not_true, Bool.and_false] at hline
    cases hline
  | table => simp [isTable] at hline

theorem holdsTable_of_mem_tableEntries {e : Text × Toml} (he : e ∈ tableEntries es) :
    e ∈ es ∧ holdsTable e.2 := by
  have hany : ∀ items : List Toml, items.any isTable → anyHoldsTable items := fun items h => by
    induction items with
    | nil => cases h
    | cons v items ih =>
      rw [List.any_cons, Bool.or_eq_true] at h
      rw [anyHoldsTable, Bool.or_eq_true]
      refine h.imp (fun hv => ?_) ih
      cases v with
      | table => rfl
      | _ => cases hv
  rcases List.mem_append.mp he with he | he
  · obtain ⟨he, htables⟩ := List.mem_filter.mp he
    refine ⟨he, ?_⟩
    cases hv : e.2 with
    | array items =>
      rw [hv] at htables
      exact hany items htables
    | _ => rw [hv] at htables; cases htables
  · obtain ⟨he, htable⟩ := List.mem_filter.mp he
    refine ⟨he, ?_⟩
    cases hv : e.2 with
    | table => rfl
    | _ => rw [hv] at htable; cases htable

/-- A table at some place is written as the lines and blocks of its entries. -/
theorem writeEntries_table (hw : ∀ e ∈ es, IsWritable e.2) (h : ∀ e ∈ es, holdsTable e.2 → IsPlaced e.2)
    {n : Nat} (p : Place) (hn : entriesSteps es ≤ n) :
    ∃ bs nodes, (∀ b ∈ bs, b.IsReadable) ∧
      writeEntries n p false false (writingOrder es) =
        some ((if lineEntries es = [] ∧ tableEntries es ≠ [] then p.lead else p.header) ++
          entryLines (lineEntries es) ++ blocksText bs) ∧
      Grows p.path (tableEntries es) (bs.map Block.section) nodes := by
  rw [writingOrder_eq]
  refine writeEntries_body (isLine_of_mem_lineEntries hw) (fun e he => ?_) ?_
  · obtain ⟨he, hholds⟩ := holdsTable_of_mem_tableEntries he
    exact h e he hholds
  · rwa [← writingOrder_eq, entriesSteps_writingOrder]

theorem isPlaced_table (hasc : Ascending es) (hdate : (writingOrder es).head?.map Prod.fst ≠ some dateKey)
    (hw : ∀ e ∈ es, IsWritable e.2) (h : ∀ e ∈ es, holdsTable e.2 → IsPlaced e.2) :
    IsPlaced (.table es) := by
  intro n p started sectioned k hn
  rw [writingSteps] at hn
  obtain ⟨m, rfl⟩ := Nat.exists_eq_add_of_le' (show 1 ≤ n by omega)
  obtain ⟨bs, nodes, hread, htext, hgrows⟩ :=
    writeEntries_table hw h (p.table started k) (show entriesSteps es ≤ m by omega)
  have hperm : (lineEntries es ++ tableEntries es).Perm es := writingOrder_eq es ▸ writingOrder_perm es
  have hlines := isLine_of_mem_lineEntries hw
  rw [writingOrder_eq] at hdate
  by_cases hheader : lineEntries es = [] ∧ tableEntries es ≠ []
  · -- without lines the first block below makes the table
    obtain ⟨hnil, hne⟩ := hheader
    rw [if_pos ⟨hnil, hne⟩, hnil] at htext
    rw [hnil, List.nil_append] at hperm hdate
    have hd := hperm.symm.pairwise hasc.key_ne fun h => h.symm
    refine ⟨bs, _, fun hbs => ?_, hread, by rw [writeEntry, htext]; simp [Place.table, entryLines],
      hgrows.builds_none hne hd hdate, ?_⟩
    · exact hgrows.ne_nil hne (by rw [hbs]; rfl)
    · have hmem : ∀ e, e ∈ es ↔ e ∈ ([] : Entries) ∨ e ∈ tableEntries es := fun e => by
        rw [← hperm.mem_iff]
        simp
      have hvalues : nodeValues (insertAll nodes (plainNodes [])) = es :=
        nodeValues_insertAll hasc hmem hd List.Pairwise.nil (fun _ => Iff.rfl) hgrows.nodes_eq
      exact congrArg Toml.table hvalues
  · rw [if_neg hheader] at htext
    obtain ⟨node, hbuilds, hvalue⟩ := exists_builds_table hasc hperm hlines hdate hgrows
    refine ⟨⟨started, p.path ++ [k], false, lineEntries es⟩ :: bs, node, List.cons_ne_nil _ _, ?_, ?_,
      hbuilds, hvalue⟩
    · exact List.forall_mem_cons.mpr ⟨⟨by simp, hlines⟩, hread⟩
    · rw [writeEntry, htext, blocksText_cons]
      cases started <;> simp [Place.table, Place.separator, Block.text, headerText]

/-- A table is the next element of an array behind its own header. -/
theorem isElementPlaced_table (hasc : Ascending es)
    (hdate : (writingOrder es).head?.map Prod.fst ≠ some dateKey) (hw : ∀ e ∈ es, IsWritable e.2)
    (h : ∀ e ∈ es, holdsTable e.2 → IsPlaced e.2) : IsElementPlaced (.table es) := by
  intro n p started k before isFirst hn
  rw [writingSteps] at hn
  obtain ⟨m, rfl⟩ := Nat.exists_eq_add_of_le' (show 1 ≤ n by omega)
  obtain ⟨bs, nodes, hread, htext, hgrows⟩ :=
    writeEntries_table hw h (p.element started k true isFirst) (show entriesSteps es ≤ m by omega)
  have hperm : (lineEntries es ++ tableEntries es).Perm es := writingOrder_eq es ▸ writingOrder_perm es
  have hlines := isLine_of_mem_lineEntries hw
  rw [writingOrder_eq] at hdate
  refine ⟨⟨!isFirst || started, p.path ++ [k], true, lineEntries es⟩ :: bs, List.cons_ne_nil _ _, ?_, ?_,
    fun a old ha => ?_⟩
  · exact List.forall_mem_cons.mpr ⟨⟨by simp, hlines⟩, hread⟩
  · have hlead : (p.element started k true isFirst).lead = (p.element started k true isFirst).header := rfl
    rw [writeItem, htext, blocksText_cons, hlead, ite_self]
    cases started <;> cases isFirst <;> simp [Place.element, Place.separator, Block.text, headerText]
  · exact exists_builds_element hasc hperm hlines hdate hgrows ha

/-! ### Arrays of tables -/

/-- The elements of an array behind the first are written as blocks that add them to the array. -/
theorem writeItems_elements {items : List Toml} (h : ∀ v ∈ items, IsElementPlaced v) {n : Nat}
    (p : Place) (started : Bool) (k : Text) (before : Option Text) (hn : itemsSteps items ≤ n) :
    ∃ bs, (∀ b ∈ bs, b.IsReadable) ∧
      writeItems n p started k true before false items = some (blocksText bs) ∧
      ∀ node old, Holds (some node) old → ∃ node',
        Builds (p.path ++ [k]) (bs.map Block.section) (some node) (some node') ∧
          Holds (some node') (old ++ items) := by
  induction items generalizing n with
  | nil =>
    obtain ⟨m, rfl⟩ := Nat.exists_eq_add_of_le' hn
    exact ⟨[], by simp, rfl, fun node old ha => ⟨node, .nil _, by rwa [List.append_nil]⟩⟩
  | cons v items ih =>
    obtain ⟨hv, hitems⟩ := List.forall_mem_cons.mp h
    rw [itemsSteps] at hn
    obtain ⟨m, rfl⟩ := Nat.exists_eq_add_of_le' (show 1 ≤ n by omega)
    obtain ⟨bs, -, hread, htext, hbuilds⟩ := hv p started k before false (show _ ≤ m by omega)
    obtain ⟨bs', hread', htext', hbuilds'⟩ := ih hitems (show _ ≤ m by omega)
    refine ⟨bs ++ bs', fun b hb => (List.mem_append.mp hb).elim (hread b) (hread' b), ?_,
      fun node old ha => ?_⟩
    · rw [writeItems, htext, htext', blocksText_append]
      simp
    · obtain ⟨node1, hb1, hh1⟩ := hbuilds (some node) old ha
      obtain ⟨node2, hb2, hh2⟩ := hbuilds' node1 _ hh1
      refine ⟨node2, ?_, by simpa using hh2⟩
      rw [List.map_append]
      exact hb1.append hb2

theorem isPlaced_tables {items : List Toml} (hne : items ≠ []) (htable : ∀ v ∈ items, v.isTable)
    (h : ∀ v ∈ items, IsElementPlaced v) : IsPlaced (.array items) := by
  intro n p started sectioned k hn
  obtain ⟨v, items, rfl⟩ := List.exists_cons_of_ne_nil hne
  obtain ⟨hv, hitems⟩ := List.forall_mem_cons.mp h
  have hstart : closing (v :: items) = [] ∧ lineEnd (v :: items) = [] := by
    have ht := htable v (List.mem_cons_self ..)
    cases v with
    | table => exact ⟨rfl, rfl⟩
    | _ => cases ht
  rw [writingSteps, itemsSteps] at hn
  obtain ⟨m, rfl⟩ := Nat.exists_eq_add_of_le' (show 2 ≤ n by omega)
  obtain ⟨bs, hne, hread, htext, hbuilds⟩ :=
    hv p started k (opening? p started sectioned k) true (show _ ≤ m by omega)
  obtain ⟨bs', hread', htext', hbuilds'⟩ :=
    writeItems_elements hitems p started k (opening? p started sectioned k) (show _ ≤ m by omega)
  obtain ⟨node1, hb1, hh1⟩ := hbuilds none [] rfl
  obtain ⟨node2, hb2, hh2⟩ := hbuilds' node1 _ hh1
  refine ⟨bs ++ bs', node2, ?_, ?_, ?_, ?_, ?_⟩
  · exact fun hnil => hne (List.append_eq_nil_iff.mp hnil).1
  · exact fun b hb => (List.mem_append.mp hb).elim (hread b) (hread' b)
  · rw [writeEntry, writeItems, htext, htext', blocksText_append, hstart.1, hstart.2]
    cases started <;> simp
  · rw [List.map_append]
    exact hb1.append hb2
  · cases node2 with
    | elements last earlier => exact congrArg Toml.array hh2
    | _ => cases hh2

/-! ### All values -/

theorem placed_of_isWritable {v : Toml} (h : IsWritable v) :
    (holdsTable v → IsPlaced v) ∧ (v.isTable → IsElementPlaced v) := by
  induction h with
  | line h =>
    refine ⟨fun hholds => ?_, fun htable => ?_⟩
    · rw [holdsTable_of_isLine h] at hholds
      cases hholds
    · rw [isTable_of_isLine h] at htable
      cases htable
  | tables hne htable _ ih =>
    exact ⟨fun _ => isPlaced_tables hne htable fun v hv => (ih v hv).2 (htable v hv),
      fun htable => by cases htable⟩
  | table hasc hdate h ih =>
    exact ⟨fun _ => isPlaced_table hasc hdate h fun e he => (ih e he).1,
      fun _ => isElementPlaced_table hasc hdate h fun e he => (ih e he).1⟩

/-- **A table or an array of tables that can be written is built again by what it is written as.** -/
theorem isPlaced_of_isWritable {v : Toml} (h : IsWritable v) (hholds : holdsTable v) : IsPlaced v :=
  (placed_of_isWritable h).1 hholds

end DiceBot.Toml
