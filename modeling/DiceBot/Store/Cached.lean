import DiceBot.Store.Recency
import DiceBot.Store.Table

/-! # The cached store

A table behind a cache. A macro that was found is kept in the cache and answered from there; a change
of a macro removes it from the cache. Creating one does not touch the cache, since only macros that
exist are kept in it. -/

namespace DiceBot

/-- A table with a cache of macros that were found in it. -/
structure CachedStore where
  table : MacroTable
  cache : RecencyCache (Text × Text) Macro
  /-- Whether the table outlives the store. -/
  persistent : Bool
deriving Repr

namespace CachedStore

/-- An empty store with room for `cacheSize` macros in its cache and with ids up to `maxId`. -/
def ofSize (cacheSize : Nat) (persistent : Bool) (maxId : Option Nat) : CachedStore :=
  ⟨.empty maxId, .ofCapacity cacheSize, persistent⟩

/-- The store closed and opened again: the cache is lost, and the table unless it is persistent. -/
def reopen (s : CachedStore) : CachedStore :=
  { s with
    table := if s.persistent then s.table else .empty s.table.maxId
    cache := .ofCapacity s.cache.capacity }

/-- The macro of this group and name, from the cache if it is there. -/
def find (s : CachedStore) (group name : Text) : Option Macro × CachedStore :=
  match s.cache.find? (group, name) with
  | some m => (some m, { s with cache := s.cache.touch (group, name) })
  | none =>
    match s.table.find? group name with
    | some r => (some r.toMacro, { s with cache := s.cache.insert (group, name) r.toMacro })
    | none => (none, s)

/-- A look-up leaves the table as it is. -/
theorem find_table (s : CachedStore) (group name : Text) : (s.find group name).2.table = s.table := by
  unfold find
  split
  · rfl
  · split <;> rfl

theorem find_persistent (s : CachedStore) (group name : Text) :
    (s.find group name).2.persistent = s.persistent := by
  unfold find
  split
  · rfl
  · split <;> rfl

/-- Adds a macro to the table. -/
def create (s : CachedStore) (group name expression : Text) : Except ServiceError Bool × CachedStore :=
  match s.table.create group name expression with
  | (answer, table) => (answer, { s with table })

/-- Changes a macro in the table and removes it from the cache. -/
def update (s : CachedStore) (group name expression : Text) : Bool × CachedStore :=
  match s.table.update group name expression with
  | (answer, table) => (answer, { s with table, cache := s.cache.erase (group, name) })

/-- Removes a macro from the table and from the cache. -/
def delete (s : CachedStore) (group name : Text) : Bool × CachedStore :=
  match s.table.delete group name with
  | (answer, table) => (answer, { s with table, cache := s.cache.erase (group, name) })

/-- The macros of a group, from the table. -/
def list (s : CachedStore) (group : Text) : List Macro := (s.table.list group).map Row.toMacro

end CachedStore

/-- A store that always answers, unless the table refuses a macro. -/
instance : Store CachedStore where
  find s group name :=
    let (answer, s) := s.find group name
    (.ok answer, s)
  create s group name expression := s.create group name expression
  update s group name expression :=
    let (answer, s) := s.update group name expression
    (.ok answer, s)
  delete s group name :=
    let (answer, s) := s.delete group name
    (.ok answer, s)
  list s group := (.ok (s.list group), s)

end DiceBot
