import DiceBot.Bot.Reply
import DiceBot.Bot.Session
import DiceBot.Config
import DiceBot.Console.Database
import DiceBot.Store.Cached

/-! # Conversations on a console

On a console every line is a message of the same group, and the answers are written one after another,
each with a line feed behind it. A line that is not UTF-8 ends the conversation. `Console.run` describes
a whole run: the configuration is loaded and its file completed, the database is opened, and the lines
of the input are answered. -/

namespace DiceBot.Console

/-! ### Lines -/

/-- The bytes of a line without the carriage return it may end in. -/
def dropReturn (line : List UInt8) : List UInt8 :=
  if line.getLast? = some 0x0d then line.dropLast else line

/-- The lines of an input, each without the line feed or the carriage return and line feed at its end.
The last line may end with the input; a carriage return there is part of the line. -/
def lines (input : List UInt8) : List (List UInt8) :=
  match h : input.dropWhile (· ≠ 0x0a) with
  | [] => if input = [] then [] else [input]
  | _ :: rest =>
    have : rest.length < input.length := by
      have hle := (List.dropWhile_suffix (l := input) (· ≠ (0x0a : UInt8))).length_le
      rw [h, List.length_cons] at hle
      omega
    dropReturn (input.takeWhile (· ≠ 0x0a)) :: lines rest
termination_by input.length

/-! ### The conversation -/

/-- The file that is read if no other is named. -/
def defaultConfigPath : Text := "dicemancer.toml".toList

/-- Who may use the bot, with the allowlist as it is now. -/
def access (config : Config) (read : List UInt8 → Option (List UInt8)) : Access :=
  match config.allowlistPath with
  | some path => .allowlist (read (Text.toUtf8 path))
  | none => .everyone

/-- The bot of a configuration with a store. -/
def bot {σ : Type} (config : Config) (access : Access) (store : σ) : Bot σ :=
  ⟨config.commandPrefix, ⟨config.limits, true⟩, access, store⟩

/-- What is written for a line, and the bot after it; nothing if the conversation ends. -/
def answer? {σ γ : Type} [Store σ] [WordSource γ] (group : Text) (b : Bot σ) (g : γ)
    (line : List UInt8) : Option (Text × Bot σ) :=
  (Text.ofUtf8? line).map fun message =>
    match b.answer g group message with
    | (some result, b) => (reply b.commandPrefix b.executor.limits result ++ ['\n'], b)
    | (none, b) => ([], b)

/-- What is written for lines, the `k`-th of which has the generator `generators k`. -/
def transcript {σ γ : Type} [Store σ] [WordSource γ] (group : Text) (generators : Nat → γ) :
    (k : Nat) → Bot σ → List (List UInt8) → Text
  | _, _, [] => []
  | k, b, line :: rest =>
    match answer? group b (generators k) line with
    | some (text, b) => text ++ transcript group generators (k + 1) b rest
    | none => []

/-! ### A whole run -/

/-- How a run ends: the exit code, all that was written, and the files. -/
structure Ending where
  exitCode : Nat
  output : Text
  directory : Directory

/-- The configuration in a directory, and the directory with the file completed. -/
def configure (d : Directory) (path : List UInt8) (dbPath : Option Text) : Config × Directory :=
  match Config.load (d.read path) dbPath with
  | (config, some content) => (config, d.write path content)
  | (config, none) => (config, d)

/-- Opens the database at a path, which may be no place for a database. -/
def openDatabase (d : Directory) (dbPath : Text) : Bool × Directory :=
  match DatabasePlace.ofText? dbPath with
  | some place => d.openDatabase place
  | none => (false, d)

/-- A run of the bot in a directory. -/
def run {γ : Type} [WordSource γ] (d : Directory) (path : List UInt8) (dbPath : Option Text)
    (generators : Nat → γ) (input : List UInt8) : Ending :=
  match configure d path dbPath with
  | (config, d) =>
    match openDatabase d config.dbPath with
    | (true, d) =>
      let store := CachedStore.ofSize config.cacheSize true (some maxRowId)
      let b := bot config (access config d.read) store
      ⟨0, transcript config.consoleGroup generators 0 b (lines input), d⟩
    | (false, d) => ⟨1, [], d⟩

end DiceBot.Console
