import DiceBot.Console.Conversation
import DiceBot.Random.Xoshiro
import DiceBot.Store.Snapshot

/-! # The console program

Reads the configuration, opens the file of macros and answers the lines of the standard input. The
allowlist is read again for every line, and the macros are written back after every line that changed
them. -/

namespace DiceBot.Program

open DiceBot

/-- The content of a file, if it can be read. -/
def readFile (path : Text) : IO (Option (List UInt8)) := do
  try
    return some (← IO.FS.readBinFile (String.ofList path)).toList
  catch _ => return none

/-- Writes a file; answers whether that was possible. -/
def writeFile (path : Text) (content : List UInt8) : IO Bool := do
  try
    IO.FS.writeBinFile (String.ofList path) content.toByteArray
    return true
  catch _ => return false

/-- A generator with a seed from outside. -/
def freshGenerator : IO Xoshiro := do
  let bytes ← IO.getRandomBytes 8
  return Xoshiro.ofSeed (bytes.toList.foldl (fun n b => n * 256 + b.toUInt64) 0)

/-- The path of the file that a database is kept in, if there is one. -/
def keptPath? : DatabasePlace → Option Text
  | .transient => none
  | .file path _ => Text.ofUtf8? path

/-- The table of macros of a database that is kept in a file, if it can be opened. -/
def openFile (path : Text) (mayCreate : Bool) : IO (Option MacroTable) := do
  let content ← readFile path
  match if content.isSome || mayCreate then MacroTable.ofBytes? (content.getD []) else none with
  | none => return none
  | some t =>
    match t.toBytes? with
    | none => return none
    | some content => return if ← writeFile path content then some t else none

/-- The table of macros of a database, if it can be opened. -/
def openTable : DatabasePlace → IO (Option MacroTable)
  | .transient => return some (.empty (some maxRowId))
  | .file path mayCreate =>
    match Text.ofUtf8? path with
    | some path => openFile path mayCreate
    | none => return none

/-- Writes the table of macros back. -/
def keepTable (place : DatabasePlace) (t : MacroTable) : IO Unit := do
  if let some path := keptPath? place then
    if let some content := t.toBytes? then
      let _ ← writeFile path content

/-- The bytes up to the next line feed, which is among them unless the input ends before it. -/
partial def readLine (input : IO.FS.Stream) (line : ByteArray) : IO ByteArray := do
  let next ← input.read 1
  if next.isEmpty then return line
  let line := line ++ next
  if next.toList = [0x0a] then return line else readLine input line

/-- Answers the lines of the input. -/
partial def converse (config : Config) (place : DatabasePlace) (b : Bot CachedStore)
    (input output : IO.FS.Stream) : IO Unit := do
  match Console.lines (← readLine input .empty).toList with
  | [] => return
  | line :: _ =>
    let allowlist ← match config.allowlistPath with
      | some path => readFile path
      | none => pure none
    let b := b.setAllowlist allowlist
    if let some (text, next) := Console.answer? config.consoleGroup b (← freshGenerator) line then
      output.putStr (String.ofList text)
      output.flush
      if next.store.table ≠ b.store.table then keepTable place next.store.table
      converse config place next input output

end DiceBot.Program

open DiceBot DiceBot.Program in
/-- Runs the bot with the configuration file that is named, or that of the default name. -/
def main (args : List String) : IO UInt32 := do
  let path := (args.head?.map String.toList).getD Console.defaultConfigPath
  let content ← readFile path
  let (config, completed) := Config.load content ((← IO.getEnv "DB_PATH").map String.toList)
  if let some file := completed then
    let _ ← writeFile path file
  match DatabasePlace.ofText? config.dbPath with
  | none => return 1
  | some place =>
    match ← openTable place with
    | none => return 1
    | some table =>
      let store : CachedStore := ⟨table, .ofCapacity config.cacheSize, (keptPath? place).isSome⟩
      let access := Console.access config fun _ => none
      converse config place (Console.bot config access store) (← IO.getStdin) (← IO.getStdout)
      return 0
