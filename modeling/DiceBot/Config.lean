import DiceBot.Expr.Limits
import DiceBot.Toml.Document
import DiceBot.Toml.Writer

/-! # The configuration

The bot is configured by a TOML file. An entry that is missing or cannot be used is replaced by its
default, in the configuration and in the file; all other entries of the file are kept. The list of
allowed groups is optional and never filled in. -/

namespace DiceBot

/-- The configuration of the bot. -/
structure Config where
  dbPath : Text
  dbQueueSize : Nat
  cacheSize : Nat
  rngWorkers : Nat
  rngReseedSeconds : Nat
  maxRepeats : UInt32
  maxSides : UInt32
  commandPrefix : Text
  allowlistPath : Option Text
  consoleGroup : Text
deriving Repr, DecidableEq

namespace Config

/-- The limits of rolls. -/
def limits (c : Config) : Limits := ⟨some c.maxRepeats, some c.maxSides⟩

/-! ### Entries with a default -/

/-- An integer from 0 to `bound`, if the entry is one. -/
def natEntry? (bound : Nat) (es : Toml.Entries) (key : Text) : Option Nat :=
  match (Toml.lookup? key es).bind Toml.integer? with
  | some n => if 0 ≤ n ∧ n ≤ bound then some n.toNat else none
  | none => none

/-- A string, if the entry is one. -/
def textEntry? (es : Toml.Entries) (key : Text) : Option Text :=
  (Toml.lookup? key es).bind Toml.string?

/-- The integer under a key and the entries with it; `default` if there is none that can be used. -/
def natOr (bound : Nat) (key : String) (default : Nat) (es : Toml.Entries) : Nat × Toml.Entries :=
  match natEntry? bound es key.toList with
  | some n => (n, es)
  | none => (default, Toml.insert key.toList (.integer default) es)

/-- The string under a key and the entries with it; `default` if there is none. -/
def textOr (key default : String) (es : Toml.Entries) : Text × Toml.Entries :=
  match textEntry? es key.toList with
  | some s => (s, es)
  | none => (default.toList, Toml.insert key.toList (.string default.toList) es)

/-- The greatest number of 32 bits. -/
def maxWord : Nat := 0xffffffff

/-- The greatest number of 64 bits. -/
def maxLong : Nat := 0xffffffffffffffff

/-- The configuration that entries give, and the entries completed by defaults. -/
def ofEntries (es : Toml.Entries) : Config × Toml.Entries :=
  let allowlistPath := textEntry? es "allowlist_path".toList
  let (dbPath, es) := textOr "db_path" "macros.db" es
  let (dbQueueSize, es) := natOr maxLong "db_queue_size" 64 es
  let (cacheSize, es) := natOr maxLong "cache_size" 256 es
  let (rngWorkers, es) := natOr maxWord "rng_workers" 4 es
  let (rngReseedSeconds, es) := natOr maxLong "rng_reseed_s" 300 es
  let (maxRepeats, es) := natOr maxWord "max_repeats" 20 es
  let (maxSides, es) := natOr maxWord "max_sides" 200 es
  let (commandPrefix, es) := textOr "command_prefix" "/" es
  let (consoleGroup, es) := textOr "console_group" "console" es
  ({ dbPath, dbQueueSize, cacheSize, rngWorkers, rngReseedSeconds
     maxRepeats := UInt32.ofNat maxRepeats, maxSides := UInt32.ofNat maxSides
     commandPrefix, allowlistPath, consoleGroup }, es)

/-! ### The file -/

/-- The entries of a file; none if there is no file or it cannot be read as TOML. -/
def entriesOf (content : Option (List UInt8)) : Toml.Entries :=
  ((content.bind Toml.ofBytes?).getD [])

/-- The file after it was completed: as it was if the entries cannot be written. -/
def completed (content : Option (List UInt8)) (es : Toml.Entries) : Option (List UInt8) :=
  match Toml.documentText? es with
  | some s => some (Text.toUtf8 s)
  | none => content

/-- Loads the configuration from the content of its file, and completes the file. A path for the
database given from outside is used instead of that in the file, but not written to it. -/
def load (content : Option (List UInt8)) (dbPath : Option Text) : Config × Option (List UInt8) :=
  let (config, es) := ofEntries (entriesOf content)
  ({ config with dbPath := dbPath.getD config.dbPath }, completed content es)

end Config

end DiceBot
