import DiceBot.Store.Table
import DiceBot.Proofs.Text.ByteOrder
import Mathlib.Algebra.Group.Nat.Defs
import Mathlib.Data.List.Sort
import Mathlib.Tactic.SplitIfs

/-! # Laws of the table of macros

What a look-up finds after each change of the table, key by key. A change answers whether a row of its
key is there, concerns this key only, and keeps the keys of the rows distinct (`Distinct`); while
they are, the rows are exactly what look-ups find (`mem_rows_iff`). A new macro is refused for its name
or for want of an id, or else it is one more row (`create_cases`). -/

namespace DiceBot

/-! ### Rows -/

namespace Row

variable {r : Row} {group name : Text}

/-- The group and the name of a row. -/
def key (r : Row) : Text × Text := (r.group, r.name)

theorem isAt_iff : r.isAt group name ↔ r.key = (group, name) := by
  simp [isAt, key]

theorem isAt_eq_false_iff : r.isAt group name = false ↔ r.key ≠ (group, name) := by
  rw [← Bool.not_eq_true, isAt_iff]

/-- Of an id its low 32 bits are answered. -/
theorem toInt_id_toMacro (r : Row) : r.toMacro.id.toInt = (r.id : Int).bmod (2 ^ 32) :=
  Int32.toInt_ofNat'

/-- **An id of at most 31 bits is answered as it is.** -/
theorem toInt_id_toMacro_of_lt (h : r.id < 2 ^ 31) : r.toMacro.id.toInt = r.id :=
  Int32.toInt_ofNat_of_lt h

end Row

namespace MacroTable

variable {t : MacroTable} {group name expression : Text} {r : Row}

/-- No two rows share both group and name. -/
def Distinct (t : MacroTable) : Prop := t.rows.Pairwise fun a b => a.key ≠ b.key

theorem distinct_empty (maxId : Option Nat) : (empty maxId).Distinct := List.Pairwise.nil

/-! ### Look-ups -/

theorem key_of_find? (h : t.find? group name = some r) : r.key = (group, name) :=
  Row.isAt_iff.mp (List.find?_some (p := Row.isAt group name) h)

theorem key_ne_of_find?_eq_none (h : t.find? group name = none) (hr : r ∈ t.rows) :
    r.key ≠ (group, name) :=
  fun hk => List.find?_eq_none.mp h r hr (Row.isAt_iff.mpr hk)

theorem any_isAt_eq_isSome (t : MacroTable) (group name : Text) :
    t.rows.any (Row.isAt group name) = (t.find? group name).isSome :=
  List.isSome_find?.symm

/-- A row is found under its key. -/
theorem find?_of_mem (hd : t.Distinct) (h : r ∈ t.rows) : t.find? r.group r.name = some r := by
  obtain ⟨s, u, hrows⟩ := List.append_of_mem h
  rw [Distinct, hrows, List.pairwise_append] at hd
  refine List.find?_eq_some_iff_append.mpr ⟨Row.isAt_iff.mpr rfl, s, u, hrows, fun a ha => ?_⟩
  have hne : a.key ≠ r.key := hd.2.2 a ha r (List.mem_cons_self ..)
  rw [Row.isAt_eq_false_iff.mpr hne, Bool.not_false]

/-- **The rows are what look-ups find.** -/
theorem mem_rows_iff (hd : t.Distinct) : r ∈ t.rows ↔ t.find? r.group r.name = some r :=
  ⟨find?_of_mem hd, List.mem_of_find?_eq_some⟩

/-! ### Creating -/

theorem create_of_some (h : t.find? group name = some r) :
    t.create group name expression = (.ok false, t) := by
  rw [create, h]
  rfl

theorem create_of_hasId (h : t.find? group name = none) (hid : t.hasId = true) :
    t.create group name expression = (.ok true, t.add group name expression) := by
  rw [create, h, hid]
  rfl

theorem create_of_not_hasId (h : t.find? group name = none) (hid : t.hasId = false) :
    t.create group name expression = (.error .database, t) := by
  rw [create, h, hid]
  rfl

/-- **What becomes of a new macro**: its name is taken, or it is one more row, or there is no id for it. -/
theorem create_cases (t : MacroTable) (group name expression : Text) :
    (∃ r, t.find? group name = some r ∧ t.create group name expression = (.ok false, t)) ∨
      (t.find? group name = none ∧ t.hasId = true ∧
        t.create group name expression = (.ok true, t.add group name expression)) ∨
      (t.find? group name = none ∧ t.hasId = false ∧
        t.create group name expression = (.error .database, t)) := by
  cases hf : t.find? group name with
  | some r => exact Or.inl ⟨r, rfl, create_of_some hf⟩
  | none =>
    cases hid : t.hasId with
    | true => exact Or.inr (Or.inl ⟨rfl, rfl, create_of_hasId hf hid⟩)
    | false => exact Or.inr (Or.inr ⟨rfl, rfl, create_of_not_hasId hf hid⟩)

/-- A macro that is created gets the next id, and one that is not created changes nothing. -/
theorem create_added (t : MacroTable) (group name expression : Text) :
    (t.find? group name = none ∧ t.hasId = true ∧
        t.create group name expression = (.ok true, t.add group name expression)) ∨
      (t.create group name expression).1 ≠ .ok true ∧ (t.create group name expression).2 = t := by
  obtain ⟨_, _, hcreate⟩ | hadded | ⟨_, _, hcreate⟩ := t.create_cases group name expression
  · exact Or.inr (by simp [hcreate])
  · exact Or.inl hadded
  · exact Or.inr (by simp [hcreate])

/-- A row that was added is found, other look-ups find what they found before. -/
theorem find?_add (h : t.find? group name = none) (g n : Text) :
    (t.add group name expression).find? g n =
      if (g, n) = (group, name) then some ⟨t.nextId, group, name, expression⟩ else t.find? g n := by
  simp only [add, find?, List.find?_append, List.find?_singleton, Row.isAt_iff, Row.key,
    eq_comm (a := (group, name))]
  split_ifs with hk
  · cases hk
    rw [show t.rows.find? (Row.isAt group name) = none from h, Option.none_or]
  · rw [Option.or_none]

theorem mem_rows_of_create (h : r ∈ (t.create group name expression).2.rows) :
    r ∈ t.rows ∨ r = ⟨t.nextId, group, name, expression⟩ := by
  obtain ⟨-, -, hadded⟩ | ⟨-, hsame⟩ := t.create_added group name expression
  · rw [hadded] at h
    exact (List.mem_append.mp h).imp_right List.mem_singleton.mp
  · rw [hsame] at h
    exact Or.inl h

theorem Distinct.add (hd : t.Distinct) (h : t.find? group name = none) :
    (t.add group name expression).Distinct := by
  refine List.pairwise_append.mpr ⟨hd, List.pairwise_singleton .., fun a ha b hb => ?_⟩
  rw [List.mem_singleton.mp hb]
  exact key_ne_of_find?_eq_none h ha

/-! ### Changing and removing -/

/-- What an update does to one row. -/
def rewriteRow (group name expression : Text) (r : Row) : Row :=
  if r.isAt group name then { r with expression } else r

theorem key_rewriteRow (group name expression : Text) (r : Row) :
    (rewriteRow group name expression r).key = r.key := by
  unfold rewriteRow
  split <;> rfl

theorem update_fst (t : MacroTable) (group name expression : Text) :
    (t.update group name expression).1 = (t.find? group name).isSome :=
  any_isAt_eq_isSome t group name

/-- An updated macro is found with its new expression, other look-ups find what they found before. -/
theorem find?_update (t : MacroTable) (group name expression g n : Text) :
    (t.update group name expression).2.find? g n =
      if (g, n) = (group, name) then (t.find? group name).map fun r => { r with expression }
      else t.find? g n := by
  have hmap : (t.update group name expression).2.find? g n =
      (t.find? g n).map (rewriteRow group name expression) := by
    have hp : Row.isAt g n ∘ rewriteRow group name expression = Row.isAt g n := by
      funext r
      rw [Function.comp_apply, Bool.eq_iff_iff, Row.isAt_iff, Row.isAt_iff, key_rewriteRow]
    show (t.rows.map (rewriteRow group name expression)).find? _ = _
    rw [List.find?_map, hp]
    rfl
  rw [hmap]
  split_ifs with hk
  · cases hk
    refine Option.map_congr fun r hr => ?_
    exact if_pos (Row.isAt_iff.mpr (key_of_find? hr))
  · refine (Option.map_congr fun r hr => ?_).trans Option.map_id'
    exact if_neg fun h => hk ((key_of_find? hr).symm.trans (Row.isAt_iff.mp h))

theorem mem_rows_of_update (h : r ∈ (t.update group name expression).2.rows) :
    ∃ old ∈ t.rows, r = old ∨ r = { old with expression } := by
  obtain ⟨old, hold, rfl⟩ := List.mem_map.mp h
  refine ⟨old, hold, ?_⟩
  split
  · exact Or.inr rfl
  · exact Or.inl rfl

theorem Distinct.update (hd : t.Distinct) : (t.update group name expression).2.Distinct := by
  refine List.pairwise_map.mpr (hd.imp fun {a b} h => ?_)
  exact fun hk => h ((key_rewriteRow group name expression a).symm.trans
    (hk.trans (key_rewriteRow group name expression b)))

theorem delete_fst (t : MacroTable) (group name : Text) :
    (t.delete group name).1 = (t.find? group name).isSome :=
  any_isAt_eq_isSome t group name

/-- A deleted macro is not found, other look-ups find what they found before. -/
theorem find?_delete (t : MacroTable) (group name g n : Text) :
    (t.delete group name).2.find? g n = if (g, n) = (group, name) then none else t.find? g n := by
  simp only [delete, find?, List.find?_filter, Bool.not_eq_true', Row.isAt_eq_false_iff, Row.isAt_iff]
  split_ifs with hk
  · cases hk
    simp
  · refine congrArg (t.rows.find? ·) (funext fun r => ?_)
    rw [Bool.eq_iff_iff, decide_eq_true_iff, Row.isAt_iff]
    exact ⟨fun h => h.2, fun h => ⟨fun h' => hk (h.symm.trans h'), h⟩⟩

theorem mem_rows_of_delete (h : r ∈ (t.delete group name).2.rows) : r ∈ t.rows :=
  (List.mem_filter.mp h).1

theorem Distinct.delete (hd : t.Distinct) : (t.delete group name).2.Distinct := hd.filter _

/-! ### Ids -/

/-- The ids of `t` are those of `t₀`, and at least as many of them have been given. -/
structure Ahead (t t₀ : MacroTable) : Prop where
  nextId_le : t₀.nextId ≤ t.nextId
  maxId_eq : t.maxId = t₀.maxId

theorem hasId_eq_false_iff : t.hasId = false ↔ ∃ n ∈ t.maxId, n < t.nextId := by
  rw [hasId]
  cases t.maxId <;> simp

namespace Ahead

variable {t₀ t₁ : MacroTable}

theorem refl (t : MacroTable) : t.Ahead t := ⟨le_rfl, rfl⟩

theorem trans (h : t.Ahead t₁) (h₁ : t₁.Ahead t₀) : t.Ahead t₀ :=
  ⟨h₁.nextId_le.trans h.nextId_le, h.maxId_eq.trans h₁.maxId_eq⟩

/-- Ids that are used up stay so. -/
theorem hasId_eq_false (h : t.Ahead t₀) (hid : t₀.hasId = false) : t.hasId = false := by
  obtain ⟨n, hn, hlt⟩ := hasId_eq_false_iff.mp hid
  exact hasId_eq_false_iff.mpr ⟨n, h.maxId_eq.symm ▸ hn, hlt.trans_le h.nextId_le⟩

theorem hasId (h : t.Ahead t₀) (hid : t.hasId = true) : t₀.hasId = true := by
  rw [← Bool.not_eq_false] at hid ⊢
  exact fun hid₀ => hid (h.hasId_eq_false hid₀)

end Ahead

theorem create_ahead (t : MacroTable) (group name expression : Text) :
    (t.create group name expression).2.Ahead t := by
  obtain ⟨-, -, hadded⟩ | ⟨-, hsame⟩ := t.create_added group name expression
  · rw [hadded]
    exact ⟨Nat.le_succ _, rfl⟩
  · rw [hsame]
    exact .refl t

theorem update_ahead (t : MacroTable) (group name expression : Text) :
    (t.update group name expression).2.Ahead t := ⟨le_rfl, rfl⟩

theorem delete_ahead (t : MacroTable) (group name : Text) : (t.delete group name).2.Ahead t :=
  ⟨le_rfl, rfl⟩

/-! ### Listing -/

theorem mem_list_iff : r ∈ t.list group ↔ r ∈ t.rows ∧ r.group = group := by
  rw [list, List.mem_mergeSort, List.mem_filter, decide_eq_true_iff]

/-- The list of a group ascends strictly by names. -/
theorem pairwise_list (hd : t.Distinct) (group : Text) :
    (t.list group).Pairwise fun a b => Text.isBefore a.name b.name := by
  have hle : (t.list group).Pairwise fun a b => Text.ByteLE a.name b.name := by
    have h : (t.list group).Pairwise fun a b => !Text.isBefore b.name a.name :=
      List.pairwise_mergeSort
        (fun a b c => by simpa [← Text.byteLE_iff] using trans_of Text.ByteLE)
        (fun a b => by simpa [← Text.byteLE_iff] using total_of Text.ByteLE a.name b.name) _
    exact h.imp fun h => Text.byteLE_iff.mpr (by simpa using h)
  have hne : (t.list group).Pairwise fun a b => a.key ≠ b.key :=
    List.Pairwise.perm (hd.filter _) (List.mergeSort_perm ..).symm fun h => h.symm
  refine List.Pairwise.imp_of_mem (fun {a b} ha hb h => ?_) (hle.and hne)
  refine Text.isBefore_of_byteLE h.1 fun hn => h.2 ?_
  rw [Row.key, Row.key, (mem_list_iff.mp ha).2, (mem_list_iff.mp hb).2, hn]

/-- Rows that ascend strictly by names are determined by which they are. -/
theorem eq_of_ascending {l l' : List Row}
    (h : l.Pairwise fun a b => Text.isBefore a.name b.name)
    (h' : l'.Pairwise fun a b => Text.isBefore a.name b.name) (hmem : ∀ r, r ∈ l ↔ r ∈ l') :
    l = l' := by
  let before (a b : Row) : Prop := Text.isBefore a.name b.name
  have : Std.Irrefl before := ⟨fun a => by simp [before, Text.isBefore_irrefl]⟩
  have : Std.Antisymm before := ⟨fun a b hab hba => by simp [before, Text.isBefore_asymm hab] at hba⟩
  exact List.Pairwise.eq_of_mem_iff (r := before) h h' hmem

/-- The list of a group without a macro that was deleted. -/
theorem list_delete (hd : t.Distinct) (group name : Text) :
    (t.delete group name).2.list group = (t.list group).filter fun r => r.name ≠ name := by
  refine eq_of_ascending (pairwise_list hd.delete group) ((pairwise_list hd group).filter _)
    fun r => ?_
  have hrow : r ∈ (t.delete group name).2.rows ↔ r ∈ t.rows ∧ r.key ≠ (group, name) := by
    show r ∈ t.rows.filter (fun r => !r.isAt group name) ↔ _
    rw [List.mem_filter, Bool.not_eq_true', Row.isAt_eq_false_iff]
  rw [mem_list_iff, hrow, List.mem_filter, mem_list_iff, decide_eq_true_iff, Row.key]
  constructor
  · rintro ⟨⟨hr, hkey⟩, rfl⟩
    exact ⟨⟨hr, rfl⟩, fun hn => hkey (by rw [hn])⟩
  · rintro ⟨⟨hr, rfl⟩, hn⟩
    exact ⟨⟨hr, fun hkey => hn (Prod.mk.inj hkey).2⟩, rfl⟩

end MacroTable

end DiceBot
