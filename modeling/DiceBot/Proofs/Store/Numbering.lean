import DiceBot.Proofs.Store.Table
import DiceBot.Store.Step
import Mathlib.Data.List.Infix

/-! # The numbering of macros

In a table that began empty the ids of the rows ascend, stay below the id that is given next and do not
exceed the greatest id there is (`MacroTable.Numbered`). Every step keeps that, never lowers the next id,
and takes a row away only by deleting it (`MacroTable.exists_row_after`). So over all the steps of a
persistent store a new row has a greater id than any before it, also than those that were deleted since or
before the store was closed (`storeAfter_numbered`). -/

namespace DiceBot

namespace MacroTable

variable {t : MacroTable} {group name expression : Text} {r : Row}

/-- The rows are told apart by their keys, their ids ascend from 1 up to the greatest id there is, and the
next id is above them. -/
structure Numbered (t : MacroTable) : Prop where
  distinct : t.Distinct
  ascending : t.rows.Pairwise fun a b => a.id < b.id
  nextId_pos : 1 ≤ t.nextId
  below : ∀ r ∈ t.rows, r.id < t.nextId
  bounded : ∀ r ∈ t.rows, 1 ≤ r.id ∧ ∀ n ∈ t.maxId, r.id ≤ n

theorem numbered_empty (maxId : Option Nat) : (empty maxId).Numbered :=
  ⟨distinct_empty maxId, List.Pairwise.nil, le_rfl, List.forall_mem_nil _, List.forall_mem_nil _⟩

/-! ### One step -/

/-- The table after a step of a persistent store. -/
def after (t : MacroTable) : StoreStep → MacroTable
  | .create group name expression => (t.create group name expression).2
  | .update group name expression => (t.update group name expression).2
  | .delete group name => (t.delete group name).2
  | .find _ _ | .list _ | .reopen => t

/-- The next id is one of those there are. -/
theorem nextId_le (h : t.hasId = true) : ∀ n ∈ t.maxId, t.nextId ≤ n := by
  intro n hn
  by_contra hlt
  rw [hasId_eq_false_iff.mpr ⟨n, hn, not_le.mp hlt⟩] at h
  cases h

theorem Numbered.add (h : t.Numbered) (hf : t.find? group name = none) (hid : t.hasId = true) :
    (t.add group name expression).Numbered where
  distinct := h.distinct.add hf
  ascending := by
    refine List.pairwise_append.mpr ⟨h.ascending, List.pairwise_singleton .., fun a ha b hb => ?_⟩
    rw [List.mem_singleton.mp hb]
    exact h.below a ha
  nextId_pos := h.nextId_pos.trans (Nat.le_succ _)
  below r hr := by
    rcases List.mem_append.mp hr with hr | hr
    · exact Nat.lt_succ_of_lt (h.below r hr)
    · rw [List.mem_singleton.mp hr]
      exact Nat.lt_succ_self _
  bounded r hr := by
    rcases List.mem_append.mp hr with hr | hr
    · exact h.bounded r hr
    · rw [List.mem_singleton.mp hr]
      exact ⟨h.nextId_pos, nextId_le hid⟩

theorem Numbered.create (h : t.Numbered) : (t.create group name expression).2.Numbered := by
  obtain ⟨hf, hid, hadded⟩ | ⟨-, hsame⟩ := t.create_added group name expression
  · rw [hadded]
    exact h.add hf hid
  · rwa [hsame]

theorem id_rewriteRow (group name expression : Text) (r : Row) :
    (rewriteRow group name expression r).id = r.id := by
  unfold rewriteRow
  split <;> rfl

theorem Numbered.update (h : t.Numbered) : (t.update group name expression).2.Numbered := by
  refine ⟨h.distinct.update, List.pairwise_map.mpr (h.ascending.imp fun {a b} hlt => ?_), h.nextId_pos,
    List.forall_mem_map.mpr fun r hr => ?_, List.forall_mem_map.mpr fun r hr => ?_⟩
  · show (rewriteRow group name expression a).id < (rewriteRow group name expression b).id
    rwa [id_rewriteRow, id_rewriteRow]
  · show (rewriteRow group name expression r).id < t.nextId
    rw [id_rewriteRow]
    exact h.below r hr
  · show 1 ≤ (rewriteRow group name expression r).id ∧
      ∀ n ∈ t.maxId, (rewriteRow group name expression r).id ≤ n
    rw [id_rewriteRow]
    exact h.bounded r hr

theorem Numbered.delete (h : t.Numbered) : (t.delete group name).2.Numbered :=
  ⟨h.distinct.delete, h.ascending.filter _, h.nextId_pos,
    fun r hr => h.below r (mem_rows_of_delete hr), fun r hr => h.bounded r (mem_rows_of_delete hr)⟩

/-- **A step keeps the numbering.** -/
theorem Numbered.after (h : t.Numbered) (step : StoreStep) : (t.after step).Numbered := by
  cases step with
  | create => exact h.create
  | update => exact h.update
  | delete => exact h.delete
  | find | list | reopen => exact h

theorem after_ahead (t : MacroTable) (step : StoreStep) : (t.after step).Ahead t := by
  cases step with
  | create => exact t.create_ahead ..
  | update => exact t.update_ahead ..
  | delete => exact t.delete_ahead ..
  | find | list | reopen => exact .refl t

/-- **A row stays with its id**, unless the step deletes it. -/
theorem exists_row_after (hr : r ∈ t.rows) {step : StoreStep} (hstep : step ≠ .delete r.group r.name) :
    ∃ r' ∈ (t.after step).rows, r'.key = r.key ∧ r'.id = r.id := by
  cases step with
  | find | list | reopen => exact ⟨r, hr, rfl, rfl⟩
  | create group name expression =>
    refine ⟨r, ?_, rfl, rfl⟩
    rw [after]
    obtain ⟨-, -, hadded⟩ | ⟨-, hsame⟩ := t.create_added group name expression
    · rw [hadded]
      exact List.mem_append_left _ hr
    · rwa [hsame]
  | update group name expression =>
    exact ⟨rewriteRow group name expression r, List.mem_map_of_mem hr, key_rewriteRow ..,
      id_rewriteRow ..⟩
  | delete group name =>
    have hkey : r.key ≠ (group, name) := fun hkey => by
      obtain ⟨rfl, rfl⟩ := Prod.mk.inj hkey
      exact hstep rfl
    refine ⟨r, List.mem_filter.mpr ⟨hr, ?_⟩, rfl, rfl⟩
    rw [Row.isAt_eq_false_iff.mpr hkey, Bool.not_false]

/-- What was deleted is not there. -/
theorem key_ne_of_mem_delete (hr : r ∈ (t.delete group name).2.rows) : r.key ≠ (group, name) :=
  Row.isAt_eq_false_iff.mp (by simpa using (List.mem_filter.mp hr).2)

/-! ### All steps -/

/-- The table after steps of a persistent store. -/
def afterAll (t : MacroTable) (steps : List StoreStep) : MacroTable := steps.foldl after t

theorem afterAll_append (t : MacroTable) (early late : List StoreStep) :
    t.afterAll (early ++ late) = (t.afterAll early).afterAll late := List.foldl_append

theorem afterAll_singleton (t : MacroTable) (step : StoreStep) : t.afterAll [step] = t.after step := rfl

theorem Numbered.afterAll (h : t.Numbered) (steps : List StoreStep) : (t.afterAll steps).Numbered := by
  induction steps generalizing t with
  | nil => exact h
  | cons step steps ih => exact ih (h.after step)

theorem afterAll_ahead (t : MacroTable) (steps : List StoreStep) : (t.afterAll steps).Ahead t := by
  induction steps generalizing t with
  | nil => exact .refl t
  | cons step steps ih => exact (ih (t.after step)).trans (after_ahead t step)

/-- The next id is above that of every row that was ever there. -/
theorem Numbered.lt_nextId (h : t.Numbered) (hr : r ∈ t.rows) (steps : List StoreStep) :
    r.id < (t.afterAll steps).nextId := (h.below r hr).trans_le (t.afterAll_ahead steps).nextId_le

/-- A row that none of the steps deletes stays with its id. -/
theorem exists_row_afterAll (hr : r ∈ t.rows) {steps : List StoreStep}
    (hsteps : .delete r.group r.name ∉ steps) :
    ∃ r' ∈ (t.afterAll steps).rows, r'.key = r.key ∧ r'.id = r.id := by
  induction steps generalizing t r with
  | nil => exact ⟨r, hr, rfl, rfl⟩
  | cons step steps ih =>
    obtain ⟨hstep, hsteps⟩ := List.ne_and_not_mem_of_not_mem_cons hsteps
    obtain ⟨r₁, hr₁, hkey, hid⟩ := exists_row_after hr hstep.symm
    obtain ⟨hgroup, hname⟩ := Prod.mk.inj hkey
    rw [← hgroup, ← hname] at hsteps
    obtain ⟨r₂, hr₂, hkey₂, hid₂⟩ := ih hr₁ hsteps
    exact ⟨r₂, hr₂, hkey₂.trans hkey, hid₂.trans hid⟩

/-- **A row keeps its id while it exists**: it is there with the same id, or there was no row of its key in
between. -/
theorem exists_row_or_gone (hr : r ∈ t.rows) (steps : List StoreStep) :
    (∃ r' ∈ (t.afterAll steps).rows, r'.key = r.key ∧ r'.id = r.id) ∨
      ∃ early, early <+: steps ∧ ∀ r' ∈ (t.afterAll early).rows, r'.key ≠ r.key := by
  by_cases hsteps : .delete r.group r.name ∈ steps
  · obtain ⟨early, late, rfl⟩ := List.append_of_mem hsteps
    refine Or.inr ⟨early ++ [.delete r.group r.name], ⟨late, by simp⟩, fun r' hr' => ?_⟩
    rw [afterAll_append, afterAll_singleton] at hr'
    exact key_ne_of_mem_delete hr'
  · exact Or.inl (exists_row_afterAll hr hsteps)

end MacroTable

/-! ### Stores -/

/-- A macro was created if its table says so. -/
theorem StoreAnswer.ofCreate_eq_changed_iff {result : Except ServiceError Bool} {b : Bool} :
    ofCreate result = .changed b ↔ result = .ok b := by
  cases result <;> simp [ofCreate]

/-- The store after steps that began with a fresh database, which outlives the store and has ids up to
`maxId`. -/
def storeAfter (cacheSize : Nat) (maxId : Option Nat) (steps : List StoreStep) : CachedStore :=
  ((CachedStore.ofSize cacheSize true maxId).performAll steps).2

namespace CachedStore

/-- A step of a persistent store is a step of its table. -/
theorem table_perform {s : CachedStore} (hs : s.persistent) (step : StoreStep) :
    (s.perform step).2.table = s.table.after step ∧ (s.perform step).2.persistent := by
  cases step with
  | find group name => exact ⟨s.find_table group name, by rwa [perform, s.find_persistent]⟩
  | create | update | delete | list => exact ⟨rfl, hs⟩
  | reopen => exact ⟨if_pos hs, hs⟩

theorem table_performAll {s : CachedStore} (hs : s.persistent) (steps : List StoreStep) :
    (s.performAll steps).2.table = s.table.afterAll steps := by
  induction steps generalizing s with
  | nil => rfl
  | cons step steps ih =>
    obtain ⟨htable, hs⟩ := table_perform hs step
    rw [performAll, ih hs, htable]
    rfl

end CachedStore

theorem storeAfter_table (cacheSize : Nat) (maxId : Option Nat) (steps : List StoreStep) :
    (storeAfter cacheSize maxId steps).table = (MacroTable.empty maxId).afterAll steps :=
  CachedStore.table_performAll rfl steps

/-- **Ids are never used again.** After any steps of a persistent store that began with a fresh database the
ids of the rows differ, lie between 1 and the greatest id there is, and so do their keys differ; a macro
that is created gets a row with a greater id than every row had that was ever there, and one that is not
created changes nothing; a row keeps its id until it is deleted; and the list of a group ascends strictly in
the byte order of the names and holds the rows of the group, with the low 32 bits of their ids. -/
theorem storeAfter_numbered (cacheSize : Nat) (maxId : Option Nat) (steps : List StoreStep) :
    ((storeAfter cacheSize maxId steps).table.rows.map Row.id).Nodup ∧
      ((storeAfter cacheSize maxId steps).table.rows.map Row.key).Nodup ∧
      (∀ r ∈ (storeAfter cacheSize maxId steps).table.rows, 1 ≤ r.id ∧ ∀ n ∈ maxId, r.id ≤ n) ∧
      (∀ group name expression,
        ((storeAfter cacheSize maxId steps).perform (.create group name expression)).1 = .changed true →
        ∃ row ∈ (storeAfter cacheSize maxId (steps ++ [.create group name expression])).table.rows,
          row.key = (group, name) ∧ row.expression = expression ∧
          ∀ earlier, earlier <+: steps → ∀ r ∈ (storeAfter cacheSize maxId earlier).table.rows,
            r.id < row.id) ∧
      (∀ group name expression,
        ((storeAfter cacheSize maxId steps).perform (.create group name expression)).1 ≠ .changed true →
        (storeAfter cacheSize maxId (steps ++ [.create group name expression])).table =
          (storeAfter cacheSize maxId steps).table) ∧
      (∀ later, ∀ r ∈ (storeAfter cacheSize maxId steps).table.rows,
        (∃ r' ∈ (storeAfter cacheSize maxId (steps ++ later)).table.rows,
          r'.key = r.key ∧ r'.id = r.id) ∨
        ∃ between, between <+: later ∧
          ∀ r' ∈ (storeAfter cacheSize maxId (steps ++ between)).table.rows, r'.key ≠ r.key) ∧
      ∀ group, ∃ listed : List Row,
        ((storeAfter cacheSize maxId steps).perform (.list group)).1 =
          .listed (listed.map Row.toMacro) ∧
        (listed.Pairwise fun a b => Text.toUtf8 a.name < Text.toUtf8 b.name) ∧
        (∀ r, r ∈ listed ↔ r ∈ (storeAfter cacheSize maxId steps).table.rows ∧ r.group = group) ∧
        ∀ r ∈ listed, r.toMacro.id.toInt = (r.id : Int).bmod (2 ^ 32) := by
  have hnumbered := (MacroTable.numbered_empty maxId).afterAll steps
  have hmaxId := ((MacroTable.empty maxId).afterAll_ahead steps).maxId_eq
  have hcreate (group name expression : Text) :
      ((storeAfter cacheSize maxId steps).perform (.create group name expression)).1 =
        .ofCreate (((MacroTable.empty maxId).afterAll steps).create group name expression).1 := by
    rw [← storeAfter_table cacheSize]
    rfl
  simp only [storeAfter_table, hcreate]
  refine ⟨?_, ?_, ?_, fun group name expression hcreated => ?_, fun group name expression hcreated => ?_,
    fun later r hr => ?_, fun group => ?_⟩
  · exact List.pairwise_map.mpr (hnumbered.ascending.imp Nat.ne_of_lt)
  · exact List.pairwise_map.mpr hnumbered.distinct
  · intro r hr
    obtain ⟨hpos, hle⟩ := hnumbered.bounded r hr
    rw [hmaxId] at hle
    exact ⟨hpos, hle⟩
  · rw [MacroTable.afterAll_append, MacroTable.afterAll_singleton, MacroTable.after]
    obtain ⟨-, -, hadded⟩ | ⟨hne, -⟩ :=
      ((MacroTable.empty maxId).afterAll steps).create_added group name expression
    · rw [hadded]
      refine ⟨_, List.mem_append_right _ (List.mem_singleton_self _), rfl, rfl, ?_⟩
      rintro earlier ⟨rest, rfl⟩ r hr
      rw [MacroTable.afterAll_append]
      exact ((MacroTable.numbered_empty maxId).afterAll earlier).lt_nextId hr rest
    · exact absurd (StoreAnswer.ofCreate_eq_changed_iff.mp hcreated) hne
  · rw [MacroTable.afterAll_append, MacroTable.afterAll_singleton, MacroTable.after]
    obtain ⟨-, -, hadded⟩ | ⟨-, hsame⟩ :=
      ((MacroTable.empty maxId).afterAll steps).create_added group name expression
    · exact absurd (StoreAnswer.ofCreate_eq_changed_iff.mpr (congrArg Prod.fst hadded)) hcreated
    · exact hsame
  · simpa only [MacroTable.afterAll_append] using MacroTable.exists_row_or_gone hr later
  · have hlist : (storeAfter cacheSize maxId steps).perform (.list group) =
        (.listed (((storeAfter cacheSize maxId steps).table.list group).map Row.toMacro),
          storeAfter cacheSize maxId steps) := rfl
    rw [hlist, storeAfter_table]
    exact ⟨_, rfl, (MacroTable.pairwise_list hnumbered.distinct group).imp
      Text.isBefore_iff_toUtf8_lt.mp, fun r => MacroTable.mem_list_iff, fun r _ => r.toInt_id_toMacro⟩

/-- There are three ids. The macro with the greatest one is deleted and the store is closed; the next macro
gets the third, the one that was there before keeps its own, and one more macro is refused. -/
theorem storeAfter_numbered_reopened :
    let steps : List StoreStep := [.create ['g'] ['b'] ['1'], .create ['g'] ['a'] ['2'],
      .delete ['g'] ['a'], .reopen]
    let again := steps ++ [.create ['g'] ['a'] ['3']]
    ((storeAfter 1 (some 3) steps).perform (.create ['g'] ['a'] ['3'])).1 = .changed true ∧
      (∃ row ∈ (storeAfter 1 (some 3) again).table.rows,
        row.key = (['g'], ['a']) ∧ row.expression = ['3'] ∧
        ∀ earlier, earlier <+: steps → ∀ r ∈ (storeAfter 1 (some 3) earlier).table.rows,
          r.id < row.id) ∧
      (storeAfter 1 (some 3) again).table.rows =
        [⟨1, ['g'], ['b'], ['1']⟩, ⟨3, ['g'], ['a'], ['3']⟩] ∧
      ((storeAfter 1 (some 3) again).perform (.create ['g'] ['c'] ['4'])).1 = .failed .database ∧
      (storeAfter 1 (some 3) (again ++ [.create ['g'] ['c'] ['4']])).table =
        (storeAfter 1 (some 3) again).table := by
  intro steps again
  have hcreate : ((storeAfter 1 (some 3) steps).perform (.create ['g'] ['a'] ['3'])).1 = .changed true := by
    decide
  have hfailed : ((storeAfter 1 (some 3) again).perform (.create ['g'] ['c'] ['4'])).1 =
      .failed .database := by
    decide
  obtain ⟨-, -, -, hfresh, -⟩ := storeAfter_numbered 1 (some 3) steps
  obtain ⟨-, -, -, -, hsame, -⟩ := storeAfter_numbered 1 (some 3) again
  exact ⟨hcreate, hfresh _ _ _ hcreate, by decide, hfailed, hsame _ _ _ (by rw [hfailed]; decide)⟩

end DiceBot
