import DiceBot.Store.Step
import DiceBot.Proofs.Store.Table
import Mathlib.Data.Finmap
import Mathlib.Data.Finset.Sort

/-! # The plain map of macros

What a store of macros is for its users: a finite map from group and name to id and expression, and
the id that was given last. It has no rows, no cache and no queue. `MacroMap.perform` answers the steps
of a history; the list of a group is sorted by the UTF-8 bytes of the names. Ids may come to an end, as
in a table, and of an id the low 32 bits are answered.

A table mirrors a map if look-ups agree and the ids go on alike (`Mirrors`). Every operation of the
table then answers what the map answers and leaves a table that mirrors the map after it. -/

namespace DiceBot

/-- A finite map from group and name to id and expression. -/
structure MacroMap where
  entries : Finmap fun _ : Text × Text => Nat × Text
  /-- The id that was given last. -/
  counter : Nat
  /-- The greatest id, if ids come to an end. -/
  maxId : Option Nat
  /-- Whether the map outlives the store. -/
  persistent : Bool

namespace MacroMap

variable {M : MacroMap} {group name expression : Text}

/-- A map without entries, with ids up to `maxId`. -/
def empty (persistent : Bool) (maxId : Option Nat) : MacroMap := ⟨∅, 0, maxId, persistent⟩

/-- Whether there is a next id. -/
def hasId (M : MacroMap) : Bool := M.maxId.all fun n => M.counter < n

/-- The entry of this group and name. -/
def find? (M : MacroMap) (group name : Text) : Option Row :=
  (M.entries.lookup (group, name)).map fun e => ⟨e.1, group, name, e.2⟩

/-- The map with one more entry, which gets the next id. -/
def add (M : MacroMap) (group name expression : Text) : MacroMap :=
  { M with
    entries := M.entries.insert (group, name) (M.counter + 1, expression)
    counter := M.counter + 1 }

/-- Adds a macro with the next id, unless there is one of that group and name or no id is left. -/
def create (M : MacroMap) (group name expression : Text) : Except ServiceError Bool × MacroMap :=
  if (group, name) ∈ M.entries then (.ok false, M)
  else if M.hasId then (.ok true, M.add group name expression)
  else (.error .database, M)

/-- Gives a macro another expression; it keeps its id. -/
def update (M : MacroMap) (group name expression : Text) : Bool × MacroMap :=
  match M.entries.lookup (group, name) with
  | some e => (true, { M with entries := M.entries.insert (group, name) (e.1, expression) })
  | none => (false, M)

/-- Removes a macro. -/
def delete (M : MacroMap) (group name : Text) : Bool × MacroMap :=
  ((group, name) ∈ M.entries, { M with entries := M.entries.erase (group, name) })

/-- The names of a group. -/
def names (M : MacroMap) (group : Text) : Finset Text :=
  (M.entries.keys.filter fun key => key.1 = group).image Prod.snd

/-- The entries of a group in the byte order of their names. -/
def list (M : MacroMap) (group : Text) : List Row :=
  ((M.names group).sort Text.ByteLE).filterMap (M.find? group)

/-- The map of a store that was closed and opened again. -/
def reopen (M : MacroMap) : MacroMap := if M.persistent then M else .empty M.persistent M.maxId

/-- Carries out a step. -/
def perform (M : MacroMap) : StoreStep → StoreAnswer × MacroMap
  | .find group name => (.found ((M.find? group name).map Row.toMacro), M)
  | .create group name expression =>
    (.ofCreate (M.create group name expression).1, (M.create group name expression).2)
  | .update group name expression =>
    (.changed (M.update group name expression).1, (M.update group name expression).2)
  | .delete group name => (.changed (M.delete group name).1, (M.delete group name).2)
  | .list group => (.listed ((M.list group).map Row.toMacro), M)
  | .reopen => (.reopened, M.reopen)

/-- Carries out steps one after another: the answers, and the map after them. -/
def performAll (M : MacroMap) : List StoreStep → List StoreAnswer × MacroMap
  | [] => ([], M)
  | step :: rest =>
    let (answer, M) := M.perform step
    let (answers, M) := M.performAll rest
    (answer :: answers, M)

/-! ### Laws of the map -/

theorem find?_eq_none_iff : M.find? group name = none ↔ (group, name) ∉ M.entries := by
  rw [find?, Option.map_eq_none_iff, Finmap.lookup_eq_none]

theorem isSome_find? : (M.find? group name).isSome ↔ (group, name) ∈ M.entries := by
  rw [find?, Option.isSome_map, Finmap.lookup_isSome]

theorem create_of_some {r : Row} (h : M.find? group name = some r) :
    M.create group name expression = (.ok false, M) :=
  if_pos (isSome_find?.mp (Option.isSome_of_eq_some h))

theorem create_of_hasId (h : M.find? group name = none) (hid : M.hasId = true) :
    M.create group name expression = (.ok true, M.add group name expression) := by
  rw [create, if_neg (find?_eq_none_iff.mp h), if_pos hid]

theorem create_of_not_hasId (h : M.find? group name = none) (hid : M.hasId = false) :
    M.create group name expression = (.error .database, M) := by
  rw [create, if_neg (find?_eq_none_iff.mp h), if_neg (Bool.eq_false_iff.mp hid)]

/-- **What becomes of a new macro**: it is one more entry, or nothing changes. -/
theorem create_added (M : MacroMap) (group name expression : Text) :
    (M.find? group name = none ∧
        M.create group name expression = (.ok true, M.add group name expression)) ∨
      (M.create group name expression).2 = M := by
  cases hf : M.find? group name with
  | some r => exact Or.inr (congrArg Prod.snd (create_of_some hf))
  | none =>
    cases hid : M.hasId with
    | true => exact Or.inl ⟨rfl, create_of_hasId hf hid⟩
    | false => exact Or.inr (congrArg Prod.snd (create_of_not_hasId hf hid))

theorem find?_add (M : MacroMap) (group name expression g n : Text) :
    (M.add group name expression).find? g n =
      if (g, n) = (group, name) then some ⟨M.counter + 1, group, name, expression⟩
      else M.find? g n := by
  unfold add
  split_ifs with hk
  · cases hk
    rw [find?, Finmap.lookup_insert]
    rfl
  · rw [find?, Finmap.lookup_insert_of_ne _ hk, find?]

theorem find?_add_of_ne {g n : Text} (h : (g, n) ≠ (group, name)) :
    (M.add group name expression).find? g n = M.find? g n := by
  rw [find?_add, if_neg h]

/-- What was found before a macro is created is found after it. -/
theorem find?_create_of_some {g n : Text} {r : Row} (h : M.find? g n = some r) :
    (M.create group name expression).2.find? g n = some r := by
  obtain ⟨hf, hadded⟩ | hsame := M.create_added group name expression
  · rw [hadded, find?_add_of_ne, h]
    rintro ⟨⟩
    rw [hf] at h
    cases h
  · rwa [hsame]

/-- Other look-ups find what they found before a macro is created. -/
theorem find?_create_of_ne {g n : Text} (h : (g, n) ≠ (group, name)) :
    (M.create group name expression).2.find? g n = M.find? g n := by
  obtain ⟨-, hadded⟩ | hsame := M.create_added group name expression
  · rw [hadded, find?_add_of_ne h]
  · rw [hsame]

theorem find?_update (M : MacroMap) (group name expression g n : Text) :
    (M.update group name expression).2.find? g n =
      if (g, n) = (group, name) then (M.find? group name).map fun r => { r with expression }
      else M.find? g n := by
  unfold update
  cases he : M.entries.lookup (group, name) with
  | none =>
    split_ifs with hk
    · cases hk
      simp [find?, he]
    · rfl
  | some e =>
    split_ifs with hk
    · cases hk
      rw [find?, Finmap.lookup_insert, find?, he]
      rfl
    · rw [find?, Finmap.lookup_insert_of_ne _ hk, find?]

theorem find?_update_of_ne {g n : Text} (h : (g, n) ≠ (group, name)) :
    (M.update group name expression).2.find? g n = M.find? g n := by
  rw [find?_update, if_neg h]

theorem find?_delete (M : MacroMap) (group name g n : Text) :
    (M.delete group name).2.find? g n = if (g, n) = (group, name) then none else M.find? g n := by
  unfold delete
  split_ifs with hk
  · cases hk
    rw [find?, Finmap.lookup_erase]
    rfl
  · rw [find?, Finmap.lookup_erase_ne hk, find?]

theorem find?_delete_of_ne {g n : Text} (h : (g, n) ≠ (group, name)) :
    (M.delete group name).2.find? g n = M.find? g n := by
  rw [find?_delete, if_neg h]

theorem counter_le_create (M : MacroMap) (group name expression : Text) :
    M.counter ≤ (M.create group name expression).2.counter := by
  obtain ⟨-, hadded⟩ | hsame := M.create_added group name expression
  · rw [hadded]
    exact Nat.le_succ _
  · rw [hsame]

theorem maxId_create (M : MacroMap) (group name expression : Text) :
    (M.create group name expression).2.maxId = M.maxId := by
  obtain ⟨-, hadded⟩ | hsame := M.create_added group name expression
  · rw [hadded]
    rfl
  · rw [hsame]

theorem persistent_create (M : MacroMap) (group name expression : Text) :
    (M.create group name expression).2.persistent = M.persistent := by
  obtain ⟨-, hadded⟩ | hsame := M.create_added group name expression
  · rw [hadded]
    rfl
  · rw [hsame]

theorem persistent_update (M : MacroMap) (group name expression : Text) :
    (M.update group name expression).2.persistent = M.persistent := by
  unfold update
  split <;> rfl

theorem persistent_perform (M : MacroMap) (step : StoreStep) :
    (M.perform step).2.persistent = M.persistent := by
  cases step with
  | create => exact persistent_create ..
  | update => exact persistent_update ..
  | find | delete | list => rfl
  | reopen =>
    simp only [perform, reopen]
    split <;> rfl

theorem maxId_update (M : MacroMap) (group name expression : Text) :
    (M.update group name expression).2.maxId = M.maxId := by
  unfold update
  cases M.entries.lookup (group, name) <;> rfl

theorem maxId_perform (M : MacroMap) (step : StoreStep) : (M.perform step).2.maxId = M.maxId := by
  cases step with
  | create => exact maxId_create ..
  | update => exact maxId_update ..
  | find | delete | list => rfl
  | reopen =>
    simp only [perform, reopen]
    split <;> rfl

theorem maxId_performAll (M : MacroMap) (steps : List StoreStep) :
    (M.performAll steps).2.maxId = M.maxId := by
  induction steps generalizing M with
  | nil => rfl
  | cons step rest ih => exact (ih _).trans (M.maxId_perform step)

theorem update_fst (M : MacroMap) (group name expression : Text) :
    (M.update group name expression).1 = (M.find? group name).isSome := by
  unfold update find?
  cases M.entries.lookup (group, name) <;> rfl

theorem counter_update (M : MacroMap) (group name expression : Text) :
    (M.update group name expression).2.counter = M.counter := by
  unfold update
  cases M.entries.lookup (group, name) <;> rfl

theorem delete_fst (M : MacroMap) (group name : Text) :
    (M.delete group name).1 = (M.find? group name).isSome := by
  rw [Bool.eq_iff_iff, isSome_find?]
  exact decide_eq_true_iff

theorem mem_names : name ∈ M.names group ↔ (M.find? group name).isSome := by
  simp [names, isSome_find?, Finmap.mem_keys]

theorem key_of_find? {r : Row} (h : M.find? group name = some r) : r.key = (group, name) := by
  obtain ⟨e, -, rfl⟩ := Option.map_eq_some_iff.mp h
  rfl

theorem mem_list_iff {r : Row} :
    r ∈ M.list group ↔ M.find? r.group r.name = some r ∧ r.group = group := by
  simp only [list, List.mem_filterMap, Finset.mem_sort, mem_names]
  constructor
  · rintro ⟨name, -, h⟩
    cases key_of_find? h
    exact ⟨h, rfl⟩
  · rintro ⟨h, rfl⟩
    exact ⟨r.name, by rw [h]; rfl, h⟩

theorem pairwise_list (M : MacroMap) (group : Text) :
    (M.list group).Pairwise fun a b => Text.isBefore a.name b.name := by
  have hsort := ((M.names group).pairwise_sort Text.ByteLE).and
    (List.nodup_iff_pairwise_ne.mp ((M.names group).sort_nodup Text.ByteLE))
  refine List.pairwise_filterMap.mpr (hsort.imp fun {s t} h a ha b hb => ?_)
  have hs : a.name = s := congrArg Prod.snd (key_of_find? ha)
  have ht : b.name = t := congrArg Prod.snd (key_of_find? hb)
  rw [hs, ht]
  exact Text.isBefore_of_byteLE h.1 h.2

end MacroMap

/-! ### Tables and maps -/

/-- The table holds the entries of the map and goes on with the same ids. -/
structure Mirrors (t : MacroTable) (M : MacroMap) : Prop where
  find : ∀ group name, t.find? group name = M.find? group name
  nextId : t.nextId = M.counter + 1
  maxId : t.maxId = M.maxId
  distinct : t.Distinct

namespace Mirrors

variable {t : MacroTable} {M : MacroMap}

theorem empty (persistent : Bool) (maxId : Option Nat) :
    Mirrors (.empty maxId) (.empty persistent maxId) :=
  ⟨fun _ _ => rfl, rfl, rfl, MacroTable.distinct_empty maxId⟩

theorem hasId (h : Mirrors t M) : t.hasId = M.hasId := by
  rw [MacroTable.hasId, h.maxId, h.nextId]
  rfl

theorem add (h : Mirrors t M) {group name : Text} (hf : t.find? group name = none)
    (expression : Text) : Mirrors (t.add group name expression) (M.add group name expression) where
  find g n := by rw [MacroTable.find?_add hf, MacroMap.find?_add, h.find, h.nextId]
  nextId := congrArg (· + 1) h.nextId
  maxId := h.maxId
  distinct := h.distinct.add hf

theorem create (h : Mirrors t M) (group name expression : Text) :
    (t.create group name expression).1 = (M.create group name expression).1 ∧
      Mirrors (t.create group name expression).2 (M.create group name expression).2 := by
  obtain ⟨r, hf, hcreate⟩ | ⟨hf, hid, hcreate⟩ | ⟨hf, hid, hcreate⟩ :=
    t.create_cases group name expression
  · rw [hcreate, MacroMap.create_of_some ((h.find ..).symm.trans hf)]
    exact ⟨rfl, h⟩
  · rw [hcreate, MacroMap.create_of_hasId ((h.find ..).symm.trans hf) (h.hasId.symm.trans hid)]
    exact ⟨rfl, h.add hf expression⟩
  · rw [hcreate, MacroMap.create_of_not_hasId ((h.find ..).symm.trans hf) (h.hasId.symm.trans hid)]
    exact ⟨rfl, h⟩

theorem update (h : Mirrors t M) (group name expression : Text) :
    (t.update group name expression).1 = (M.update group name expression).1 ∧
      Mirrors (t.update group name expression).2 (M.update group name expression).2 := by
  refine ⟨?_, fun g n => ?_, ?_, ?_, h.distinct.update⟩
  · rw [MacroTable.update_fst, h.find, MacroMap.update_fst]
  · rw [MacroTable.find?_update, MacroMap.find?_update, h.find, h.find]
  · exact h.nextId.trans (congrArg (· + 1) (MacroMap.counter_update ..).symm)
  · exact h.maxId.trans (MacroMap.maxId_update ..).symm

theorem delete (h : Mirrors t M) (group name : Text) :
    (t.delete group name).1 = (M.delete group name).1 ∧
      Mirrors (t.delete group name).2 (M.delete group name).2 := by
  refine ⟨?_, fun g n => ?_, h.nextId, h.maxId, h.distinct.delete⟩
  · rw [MacroTable.delete_fst, h.find, MacroMap.delete_fst]
  · rw [MacroTable.find?_delete, MacroMap.find?_delete, h.find]

/-- Both lists ascend strictly by names and have the same members. -/
theorem list (h : Mirrors t M) (group : Text) : t.list group = M.list group := by
  refine MacroTable.eq_of_ascending (MacroTable.pairwise_list h.distinct group)
    (M.pairwise_list group) fun r => ?_
  rw [MacroTable.mem_list_iff, MacroMap.mem_list_iff, MacroTable.mem_rows_iff h.distinct, h.find]

end Mirrors

end DiceBot
