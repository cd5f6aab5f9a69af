import DiceBot.Json.Reader
import DiceBot.Store.Macro

/-! # The allowlist

A bot may be open to everyone or only to the groups of an allowlist. The list is a file with a JSON
object whose key `allowedServers` holds an array of group names; other keys are passed over. An array
with that one value in it stands for the object. A file that cannot be read or is of another form
gives access to nobody. -/

namespace DiceBot

namespace Allowlist

/-- The key of the list. -/
def key : Text := "allowedServers".toList

/-- The texts of an array of strings. -/
def texts? : Json → Option (List Text)
  | .array items => items.mapM fun
    | .string units => units.decode?
    | _ => none
  | _ => none

/-- The members of an object with their keys as texts. -/
def namedMembers? (members : List (JsonString × Json)) : Option (List (Text × Json)) :=
  members.mapM fun (k, v) => (JsonString.decode? k).map fun name => (name, v)

/-- The groups that a JSON value lists. The key must stand in the object exactly once. -/
def ofJson? : Json → Option (List Text)
  | .array [v] => texts? v
  | .object members => do
    let named ← namedMembers? members
    match named.filter fun m => m.1 = key with
    | [(_, v)] => texts? v
    | _ => none
  | _ => none

/-- The groups that the bytes of a file list. -/
def ofBytes? (content : List UInt8) : Option (List Text) := (Json.ofDocument? content).bind ofJson?

end Allowlist

/-- Who may use the bot. -/
inductive Access where
  | everyone
  /-- The groups of an allowlist, with the content of its file, if there is one. -/
  | allowlist (content : Option (List UInt8))
deriving Repr, DecidableEq

/-- Whether a group may use the bot. -/
def Access.allows (access : Access) (group : Text) : Except ServiceError Bool :=
  match access with
  | .everyone => .ok true
  | .allowlist none => .error .io
  | .allowlist (some content) =>
    match Allowlist.ofBytes? content with
    | some groups => .ok (groups.contains group)
    | none => .error .json

end DiceBot
