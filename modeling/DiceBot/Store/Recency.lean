/-! # A cache by recency of use

A cache holds at most `capacity` entries, the one used last in front. A look-up that succeeds moves its
entry to the front; when a new entry finds the cache full, the entry at the back is dropped. -/

namespace DiceBot

/-- The entries of a cache, the one used last in front. -/
structure RecencyCache (κ α : Type) where
  capacity : Nat
  entries : List (κ × α)
deriving Repr

namespace RecencyCache

variable {κ α : Type} [DecidableEq κ]

/-- A cache without entries. There is always room for one. -/
def ofCapacity (capacity : Nat) : RecencyCache κ α := ⟨max capacity 1, []⟩

/-- The value under a key. -/
def find? (c : RecencyCache κ α) (key : κ) : Option α := c.entries.lookup key

/-- The cache without the entry of a key. -/
def erase (c : RecencyCache κ α) (key : κ) : RecencyCache κ α :=
  { c with entries := c.entries.filter fun e => e.1 ≠ key }

/-- The cache with an entry in front. -/
def insert (c : RecencyCache κ α) (key : κ) (value : α) : RecencyCache κ α :=
  { c with entries := ((key, value) :: (c.erase key).entries).take c.capacity }

/-- The cache after a look-up. -/
def touch (c : RecencyCache κ α) (key : κ) : RecencyCache κ α :=
  match c.find? key with
  | some value => { c with entries := (key, value) :: (c.erase key).entries }
  | none => c

end RecencyCache

end DiceBot
