import DiceBot.Bot.Command
import DiceBot.Bot.Executor
import DiceBot.Bot.Answer

/-! # What a command asks of the store

A command is worked off as a plan: a sequence of calls to the store, each of which may depend on the
answers before, and a result at the end. Everything else that a command needs, such as rolling its
dice, happens between the calls. `Plan.run` makes all calls of a plan to one store without a pause. -/

namespace DiceBot

/-- The calls of a command to the store, and its result. -/
inductive Plan where
  | done (result : Except ServiceError Answer)
  | find (name : Text) (next : Option Macro → Plan)
  | create (name expression : Text) (next : Bool → Plan)
  | update (name expression : Text) (next : Bool → Plan)
  | delete (name : Text) (next : Bool → Plan)
  | list (next : List Macro → Plan)

namespace Plan

/-- A plan that calls nothing. -/
def answer (r : Answer) : Plan := .done (.ok r)

/-- Makes the calls of a plan for a group. A call that fails ends the plan. -/
def run {σ : Type} [Store σ] (group : Text) :
    Plan → σ → Except ServiceError Answer × σ
  | .done r, s => (r, s)
  | .find name next, s =>
    match Store.find s group name with
    | (.ok a, s) => run group (next a) s
    | (.error e, s) => (.error e, s)
  | .create name expression next, s =>
    match Store.create s group name expression with
    | (.ok a, s) => run group (next a) s
    | (.error e, s) => (.error e, s)
  | .update name expression next, s =>
    match Store.update s group name expression with
    | (.ok a, s) => run group (next a) s
    | (.error e, s) => (.error e, s)
  | .delete name next, s =>
    match Store.delete s group name with
    | (.ok a, s) => run group (next a) s
    | (.error e, s) => (.error e, s)
  | .list next, s =>
    match Store.list s group with
    | (.ok a, s) => run group (next a) s
    | (.error e, s) => (.error e, s)

end Plan

namespace Command

variable {σ : Type} [WordSource σ]

/-- The result of rolling an expression. An expression without a value is a result, too. -/
def rollResult (ex : Executor) (g : σ) (expression : Text) : Except ServiceError Answer :=
  match ex.roll g expression with
  | .ok outcome => .ok (.rolled expression (.ok outcome))
  | .error (.eval e) => .ok (.rolled expression (.error e))
  | .error e => .error e

/-- The reason for which a template is refused, if there is one. A template with invalid tokens is
named as it was written, not as it was filled in to try it out. -/
def refusal? (ex : Executor) (g : σ) (template : Text) : Except ServiceError (Option EvalError) :=
  match ex.validate g template with
  | .ok () => .ok none
  | .error (.eval (.invalidToken _)) => .ok (some (.invalidToken template))
  | .error (.eval e) => .ok (some e)
  | .error e => .error e

/-- Goes on with `next` if the template is accepted. -/
def ifAccepted (ex : Executor) (g : σ) (template : Text) (next : Plan) : Plan :=
  match refusal? ex g template with
  | .ok none => next
  | .ok (some e) => .answer (.templateRefused e)
  | .error e => .done (.error e)

/-- The plan of a command, with the generator for its dice. -/
def plan (ex : Executor) (g : σ) : Command → Plan
  | .help => .answer .help
  | .roll expression => .done (rollResult ex g expression)
  | .make name expression =>
    if nameFits name then
      .find name fun
        | some _ => .answer (.nameTaken name)
        | none =>
          ifAccepted ex g expression <| .create name expression fun created =>
            .answer (if created then .created name expression else .nameTaken name)
    else .answer (.nameRefused name)
  | .edit name expression =>
    ifAccepted ex g expression <| .update name expression fun updated =>
      .answer (if updated then .updated name expression else .unknownName name)
  | .rollMacro name inputs =>
    .find name fun
      | some m => .done (rollResult ex g (Template.fill m.expression inputs))
      | none => .answer (.unknownName name)
  | .list => .list fun ms => .answer (.listed (ms.map fun m => (m.name, m.expression)))
  | .view name =>
    .find name fun
      | some m => .answer (.viewed m.name m.expression)
      | none => .answer (.unknownName name)
  | .delete name =>
    .delete name fun deleted =>
      .answer (if deleted then .deleted name else .unknownName name)

end Command

end DiceBot
