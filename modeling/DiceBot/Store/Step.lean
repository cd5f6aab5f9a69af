import DiceBot.Store.Cached

/-! # Histories of a store

A history of a store is a list of steps, each with an answer. Closing and opening the store again is a
step, too. -/

namespace DiceBot

/-- A step in the history of a store. -/
inductive StoreStep where
  | find (group name : Text)
  | create (group name expression : Text)
  | update (group name expression : Text)
  | delete (group name : Text)
  | list (group : Text)
  | reopen
deriving Repr, DecidableEq

/-- The answer to a step. -/
inductive StoreAnswer where
  | found (result : Option Macro)
  /-- Whether the step changed anything. -/
  | changed (result : Bool)
  | listed (macros : List Macro)
  | reopened
  | failed (error : ServiceError)
deriving Repr, DecidableEq

/-- The answer to a step that makes a macro, if it is not refused. -/
def StoreAnswer.ofCreate : Except ServiceError Bool → StoreAnswer
  | .ok created => .changed created
  | .error e => .failed e

namespace CachedStore

/-- Carries out a step. -/
def perform (s : CachedStore) : StoreStep → StoreAnswer × CachedStore
  | .find group name =>
    match s.find group name with
    | (m, s) => (.found m, s)
  | .create group name expression =>
    match s.create group name expression with
    | (b, s) => (.ofCreate b, s)
  | .update group name expression =>
    match s.update group name expression with
    | (b, s) => (.changed b, s)
  | .delete group name =>
    match s.delete group name with
    | (b, s) => (.changed b, s)
  | .list group => (.listed (s.list group), s)
  | .reopen => (.reopened, s.reopen)

/-- Carries out steps one after another: the answers, and the store after them. -/
def performAll (s : CachedStore) : List StoreStep → List StoreAnswer × CachedStore
  | [] => ([], s)
  | step :: rest =>
    match s.perform step with
    | (answer, s) =>
      match s.performAll rest with
      | (answers, s) => (answer :: answers, s)

end CachedStore

end DiceBot
