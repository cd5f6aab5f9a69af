import DiceBot.Proofs.Store.Reference

/-! # Coherence of the cache

A cache reflects a look-up function if each of its entries is the macro of the row that the look-up
finds under the key (`RecencyCache.Reflects`). Every operation of a cache keeps this, and so does
dropping entries at will; a change of one key is made good by erasing this key. A store represents a map
of macros if its table mirrors the map and its cache reflects it; every step of the store answers what
the map answers and leads to a store that represents the map after it (`Represents.perform`). -/

namespace DiceBot

/-! ### Caches -/

namespace RecencyCache

variable {c : RecencyCache (Text × Text) Macro} {find find' : Text → Text → Option Row}
  {key : Text × Text} {m : Macro}

/-- Every entry is the macro of the row that the look-up finds under its key. -/
def Reflects (c : RecencyCache (Text × Text) Macro) (find : Text → Text → Option Row) : Prop :=
  ∀ e ∈ c.entries, (find e.1.1 e.1.2).map Row.toMacro = some e.2

/-- Entries were dropped from `c`. -/
def Evicts (c c' : RecencyCache (Text × Text) Macro) : Prop :=
  c'.capacity = c.capacity ∧ c'.entries.Sublist c.entries

theorem reflects_ofCapacity (n : Nat) : (ofCapacity n).Reflects find :=
  fun _ h => absurd h List.not_mem_nil

theorem mem_of_find? {κ α : Type} [DecidableEq κ] {c : RecencyCache κ α} {key : κ} {m : α}
    (h : c.find? key = some m) : (key, m) ∈ c.entries := by
  obtain ⟨s, t, hs, -⟩ := List.lookup_eq_some_iff.mp h
  rw [hs]
  exact List.mem_append_right _ (List.mem_cons_self ..)

theorem Reflects.find? (h : c.Reflects find) (hm : c.find? key = some m) :
    (find key.1 key.2).map Row.toMacro = some m := h _ (mem_of_find? hm)

theorem Reflects.evict {c' : RecencyCache (Text × Text) Macro} (h : c.Reflects find)
    (he : c.Evicts c') : c'.Reflects find := fun e hm => h e (he.2.subset hm)

/-- Look-ups that find more do not make entries wrong. -/
theorem Reflects.mono (h : c.Reflects find)
    (hf : ∀ g n r, find g n = some r → find' g n = some r) : c.Reflects find' := by
  intro e he
  obtain ⟨r, hr, hmacro⟩ := Option.map_eq_some_iff.mp (h e he)
  exact Option.map_eq_some_iff.mpr ⟨r, hf _ _ r hr, hmacro⟩

/-- Without the entry of a key the cache reflects every look-up that differs at this key only. -/
theorem Reflects.erase (h : c.Reflects find)
    (hf : ∀ g n, (g, n) ≠ key → find' g n = find g n) : (c.erase key).Reflects find' := by
  intro e he
  obtain ⟨hmem, hkey⟩ := List.mem_filter.mp he
  rw [hf _ _ (of_decide_eq_true hkey)]
  exact h e hmem

theorem Reflects.insert (h : c.Reflects find) (hm : (find key.1 key.2).map Row.toMacro = some m) :
    (c.insert key m).Reflects find := by
  intro e he
  rcases List.mem_cons.mp (List.mem_of_mem_take he) with rfl | he
  · exact hm
  · exact h.erase (fun _ _ _ => rfl) e he

theorem Reflects.touch (h : c.Reflects find) : (c.touch key).Reflects find := by
  unfold RecencyCache.touch
  split
  case h_1 m hm =>
    intro e he
    rcases List.mem_cons.mp he with rfl | he
    · exact h.find? hm
    · exact h.erase (fun _ _ _ => rfl) e he
  case h_2 => exact h

end RecencyCache

/-! ### Stores -/

/-- The table mirrors the map, and the cache reflects it. -/
structure Represents (s : CachedStore) (M : MacroMap) : Prop where
  mirrors : Mirrors s.table M
  reflects : s.cache.Reflects M.find?
  persistent : s.persistent = M.persistent

namespace Represents

variable {s : CachedStore} {M : MacroMap} {group name expression : Text}

theorem ofSize (cacheSize : Nat) (persistent : Bool) (maxId : Option Nat) :
    Represents (.ofSize cacheSize persistent maxId) (.empty persistent maxId) :=
  ⟨Mirrors.empty persistent maxId, RecencyCache.reflects_ofCapacity _, rfl⟩

/-- Every cached entry is the macro of the row of its key. -/
theorem coherent (h : Represents s M) : s.cache.Reflects s.table.find? :=
  h.reflects.mono fun g n _ hr => (h.mirrors.find g n).trans hr

theorem find (h : Represents s M) (group name : Text) :
    (s.find group name).1 = (M.find? group name).map Row.toMacro ∧
      Represents (s.find group name).2 M := by
  unfold CachedStore.find
  split
  case h_1 m hc =>
    exact ⟨(h.reflects.find? hc).symm, h.mirrors, h.reflects.touch, h.persistent⟩
  case h_2 =>
    split
    case h_1 r ht =>
      have hm : (M.find? group name).map Row.toMacro = some r.toMacro := by
        rw [← h.mirrors.find, ht, Option.map_some]
      exact ⟨hm.symm, h.mirrors, h.reflects.insert hm, h.persistent⟩
    case h_2 ht =>
      rw [← h.mirrors.find, ht]
      exact ⟨rfl, h⟩

/-- A macro is created only if there is none, so no entry of the cache becomes wrong. -/
theorem create (h : Represents s M) (group name expression : Text) :
    (s.create group name expression).1 = (M.create group name expression).1 ∧
      Represents (s.create group name expression).2 (M.create group name expression).2 := by
  obtain ⟨hanswer, hmirrors⟩ := h.mirrors.create group name expression
  exact ⟨hanswer, hmirrors, h.reflects.mono fun _ _ _ => MacroMap.find?_create_of_some,
    h.persistent.trans (MacroMap.persistent_create ..).symm⟩

theorem list (h : Represents s M) (group : Text) :
    s.list group = (M.list group).map Row.toMacro :=
  congrArg (List.map Row.toMacro) (h.mirrors.list group)

theorem update (h : Represents s M) (group name expression : Text) :
    (s.update group name expression).1 = (M.update group name expression).1 ∧
      Represents (s.update group name expression).2 (M.update group name expression).2 := by
  obtain ⟨hanswer, hmirrors⟩ := h.mirrors.update group name expression
  exact ⟨hanswer, hmirrors, h.reflects.erase fun _ _ => MacroMap.find?_update_of_ne,
    h.persistent.trans (MacroMap.persistent_update ..).symm⟩

theorem delete (h : Represents s M) (group name : Text) :
    (s.delete group name).1 = (M.delete group name).1 ∧
      Represents (s.delete group name).2 (M.delete group name).2 := by
  obtain ⟨hanswer, hmirrors⟩ := h.mirrors.delete group name
  exact ⟨hanswer, hmirrors, h.reflects.erase fun _ _ => MacroMap.find?_delete_of_ne, h.persistent⟩

/-- Closing the store empties the cache; the table and the map are kept or lost together. -/
theorem reopen (h : Represents s M) : Represents s.reopen M.reopen := by
  unfold CachedStore.reopen MacroMap.reopen
  rw [h.persistent, h.mirrors.maxId]
  split
  case isTrue => exact ⟨h.mirrors, RecencyCache.reflects_ofCapacity _, rfl⟩
  case isFalse => exact ⟨Mirrors.empty .., RecencyCache.reflects_ofCapacity _, rfl⟩

/-- **One step of a store answers as the map.** -/
theorem perform (h : Represents s M) (step : StoreStep) :
    (s.perform step).1 = (M.perform step).1 ∧ Represents (s.perform step).2 (M.perform step).2 := by
  cases step with
  | find group name =>
    obtain ⟨hanswer, hrep⟩ := h.find group name
    exact ⟨congrArg StoreAnswer.found hanswer, hrep⟩
  | create group name expression =>
    obtain ⟨hanswer, hrep⟩ := h.create group name expression
    exact ⟨congrArg StoreAnswer.ofCreate hanswer, hrep⟩
  | update group name expression =>
    obtain ⟨hanswer, hrep⟩ := h.update group name expression
    exact ⟨congrArg StoreAnswer.changed hanswer, hrep⟩
  | delete group name =>
    obtain ⟨hanswer, hrep⟩ := h.delete group name
    exact ⟨congrArg StoreAnswer.changed hanswer, hrep⟩
  | list group => exact ⟨congrArg StoreAnswer.listed (h.list group), h⟩
  | reopen => exact ⟨rfl, h.reopen⟩

/-- **A history of a store has the answers of the map.** -/
theorem performAll (h : Represents s M) (steps : List StoreStep) :
    (s.performAll steps).1 = (M.performAll steps).1 ∧
      Represents (s.performAll steps).2 (M.performAll steps).2 := by
  induction steps generalizing s M with
  | nil => exact ⟨rfl, h⟩
  | cons step rest ih =>
    obtain ⟨hanswer, hrep⟩ := h.perform step
    obtain ⟨hanswers, hrest⟩ := ih hrep
    exact ⟨congrArg₂ List.cons hanswer hanswers, hrest⟩

end Represents

end DiceBot
