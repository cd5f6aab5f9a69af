import DiceBot.Bot.Allowlist
import DiceBot.Bot.Plan

/-! # The bot

A message that is a command is answered if its group may use the bot. Each message has a generator of
its own, for the one evaluation that it may ask for. A session is a list of messages, between which the
allowlist may change. -/

namespace DiceBot

/-- What the bot is made of: its prefix, its executor, who may use it, and its store. -/
structure Bot (σ : Type) where
  commandPrefix : Text
  executor : Executor
  access : Access
  store : σ
deriving Repr

namespace Bot

variable {σ γ : Type} [Store σ] [WordSource γ]

/-- Carries out a command for a group; a service that does not answer makes it a failure. -/
def perform (b : Bot σ) (g : γ) (group : Text) (c : Command) : Answer × Bot σ :=
  match (c.plan b.executor g).run group b.store with
  | (.ok result, store) => (result, { b with store })
  | (.error _, store) => (.failure, { b with store })

/-- Answers a message of a group; a message that is no command has no answer. -/
def answer (b : Bot σ) (g : γ) (group message : Text) : Option Answer × Bot σ :=
  match Command.parse b.commandPrefix message with
  | none => (none, b)
  | some c =>
    match b.access.allows group with
    | .ok true =>
      match b.perform g group c with
      | (result, b) => (some result, b)
    | .ok false => (some .accessDenied, b)
    | .error _ => (some .accessUnknown, b)

/-- The bot with another allowlist, if it has one. -/
def setAllowlist (b : Bot σ) (content : Option (List UInt8)) : Bot σ :=
  match b.access with
  | .everyone => b
  | .allowlist _ => { b with access := .allowlist content }

end Bot

/-! ### Sessions -/

/-- What happens in a session. -/
inductive Event where
  | message (group text : Text)
  /-- The file of the allowlist gets another content or is removed. -/
  | setAllowlist (content : Option (List UInt8))
deriving Repr, DecidableEq

namespace Bot

variable {σ γ : Type} [Store σ] [WordSource γ]

/-- The answer to an event, if it has one, and the bot after it. -/
def handle (b : Bot σ) (g : γ) : Event → Option Answer × Bot σ
  | .message group text => b.answer g group text
  | .setAllowlist content => (none, b.setAllowlist content)

/-- The answers to events one after another, each with its generator, and the bot after them. -/
def session (b : Bot σ) : List (Event × γ) → List (Option Answer) × Bot σ
  | [] => ([], b)
  | (event, g) :: rest =>
    match b.handle g event with
    | (result, b) =>
      match b.session rest with
      | (results, b) => (result :: results, b)

end Bot

end DiceBot
