import DiceBot.Bot.Session
import DiceBot.Store.Failing
import DiceBot.Proofs.Store.Coherence

/-! # Serving requests

A request is a command with all that its answer depends on apart from the store: what the check of its
access finds, its executor and its generator. Its plan is worked off call by call (`Plan.call`), and
the calls one after another are the run of the plan (`Plan.run_call`); a bot answers a command as its
request is served alone (`Bot.answer_of_parse`).

In a store of which some calls fail a call is made to the store or changes nothing (`Plan.call_faulty`), so
what calls keep holds at the end of a run, whichever of them fail (`Plan.run_invariant`). A plan cannot
tell a store from the map that it represents (`Represents.run`), and every bot that can be reached has a
store that represents a map (`Bot.Reachable.represents`). -/

namespace DiceBot

/-! ### Plans call by call -/

namespace Plan

variable {σ : Type} [Store σ]

/-- What is left of a plan after the answer to a call. A call that fails ends the plan. -/
def resume {α : Type} (next : α → Plan) : Except ServiceError α → Plan
  | .ok a => next a
  | .error e => .done (.error e)

/-- Makes the next call of a plan for a group. -/
def call (group : Text) : Plan → σ → Plan × σ
  | .done r, s => (.done r, s)
  | .find name next, s => (Store.find s group name).map (resume next) id
  | .create name expression next, s => (Store.create s group name expression).map (resume next) id
  | .update name expression next, s => (Store.update s group name expression).map (resume next) id
  | .delete name next, s => (Store.delete s group name).map (resume next) id
  | .list next, s => (Store.list s group).map (resume next) id

/-- The answer in a result; a service that does not answer makes it a failure. -/
def answerOf : Except ServiceError Answer → Answer
  | .ok a => a
  | .error _ => .failure

/-- The answer, if there are no calls left. -/
def settled? : Plan → Option Answer
  | .done r => some (answerOf r)
  | _ => none

/-- What holds of a plan after every answer holds of what is left of it, if it holds of a failure. -/
theorem resume_rec {α : Type} {motive : Plan → Prop} {next : α → Plan}
    (failed : ∀ e, motive (.done (.error e))) (answered : ∀ a, motive (next a))
    (answer : Except ServiceError α) : motive (resume next answer) := by
  cases answer with
  | error e => exact failed e
  | ok a => exact answered a

/-- Every plan is either at its end or goes on with a call: induction over the calls. -/
theorem call_induction (σ : Type) [Store σ] (group : Text) {motive : Plan → Prop}
    (done : ∀ r, motive (.done r))
    (call : ∀ plan, (∀ s : σ, motive (plan.call group s).1) → motive plan) (plan : Plan) :
    motive plan := by
  induction plan with
  | done r => exact done r
  | find name next ih => exact call _ fun s => resume_rec (fun e => done _) ih _
  | create name x next ih => exact call _ fun s => resume_rec (fun e => done _) ih _
  | update name x next ih => exact call _ fun s => resume_rec (fun e => done _) ih _
  | delete name next ih => exact call _ fun s => resume_rec (fun e => done _) ih _
  | list next ih => exact call _ fun s => resume_rec (fun e => done _) ih _

/-- The calls that are left after the first one lead to the same end. -/
theorem run_call (plan : Plan) (group : Text) (s : σ) :
    (plan.call group s).1.run group (plan.call group s).2 = plan.run group s := by
  cases plan with
  | done r => rfl
  | find name next =>
    simp only [call, run]
    rcases Store.find s group name with ⟨_ | a, s⟩ <;> rfl
  | create name x next =>
    simp only [call, run]
    rcases Store.create s group name x with ⟨_ | a, s⟩ <;> rfl
  | update name x next =>
    simp only [call, run]
    rcases Store.update s group name x with ⟨_ | a, s⟩ <;> rfl
  | delete name next =>
    simp only [call, run]
    rcases Store.delete s group name with ⟨_ | a, s⟩ <;> rfl
  | list next =>
    simp only [call, run]
    rcases Store.list s group with ⟨_ | a, s⟩ <;> rfl

/-- A plan without calls left has run. -/
theorem run_of_settled {plan : Plan} {a : Answer} (h : plan.settled? = some a) (group : Text) (s : σ) :
    answerOf (plan.run group s).1 = a ∧ (plan.run group s).2 = s := by
  cases plan with
  | done r => exact ⟨Option.some.inj h, rfl⟩
  | find | create | update | delete | list => cases h

end Plan

/-! ### Calls that fail -/

/-- A call fails and changes nothing, or it is made to the store. -/
theorem FaultyStore.attempt_cases {σ α : Type} (s : FaultyStore σ) (f : σ → Except ServiceError α × σ) :
    (∃ e faults, s.attempt f = (.error e, ⟨s.store, faults⟩)) ∨
      ∃ faults, s.attempt f = ((f s.store).1, ⟨(f s.store).2, faults⟩) := by
  unfold attempt
  split
  case h_1 e faults hfaults => exact Or.inl ⟨e, faults, rfl⟩
  case h_2 => exact Or.inr ⟨s.faults.tail, rfl⟩

namespace Plan

variable {σ α : Type} {group : Text}

theorem resume_attempt (next : α → Plan) (s : FaultyStore σ) (f : σ → Except ServiceError α × σ) :
    (∃ e faults, (s.attempt f).map (resume next) id = (.done (.error e), ⟨s.store, faults⟩)) ∨
      ∃ faults, (s.attempt f).map (resume next) id =
        (resume next (f s.store).1, ⟨(f s.store).2, faults⟩) := by
  obtain ⟨e, faults, h⟩ | ⟨faults, h⟩ := s.attempt_cases f
  · rw [h]
    exact Or.inl ⟨e, faults, rfl⟩
  · rw [h]
    exact Or.inr ⟨faults, rfl⟩

variable [Store σ]

/-- The next call fails, which ends the plan and changes nothing, or it is made to the store. -/
theorem call_faulty (plan : Plan) (group : Text) (s : FaultyStore σ) :
    (plan.settled? = none ∧ ∃ e faults, plan.call group s = (.done (.error e), ⟨s.store, faults⟩)) ∨
      ∃ faults, plan.call group s =
        ((plan.call group s.store).1, ⟨(plan.call group s.store).2, faults⟩) := by
  cases plan with
  | done r => exact Or.inr ⟨s.faults, rfl⟩
  | find name next =>
    exact (resume_attempt next s fun t => Store.find t group name).imp_left fun h => ⟨rfl, h⟩
  | create name x next =>
    exact (resume_attempt next s fun t => Store.create t group name x).imp_left fun h => ⟨rfl, h⟩
  | update name x next =>
    exact (resume_attempt next s fun t => Store.update t group name x).imp_left fun h => ⟨rfl, h⟩
  | delete name next =>
    exact (resume_attempt next s fun t => Store.delete t group name).imp_left fun h => ⟨rfl, h⟩
  | list next =>
    exact (resume_attempt next s fun t => Store.list t group).imp_left fun h => ⟨rfl, h⟩

/-- **What calls keep holds at the end of a run**, whichever of them fail, if it does not break when a call
that is left fails. -/
theorem run_invariant {inv : Plan → σ → Prop}
    (hcall : ∀ plan s, inv plan s → inv (plan.call group s).1 (plan.call group s).2)
    (hfail : ∀ plan s e, plan.settled? = none → inv plan s → inv (.done (.error e)) s)
    (plan : Plan) {s : FaultyStore σ} (h : inv plan s.store) :
    inv (.done (plan.run group s).1) (plan.run group s).2.store := by
  induction plan using call_induction (FaultyStore σ) group generalizing s with
  | done r => exact h
  | call plan ih =>
    rw [← run_call plan group s]
    refine ih s ?_
    obtain ⟨hleft, e, faults, heq⟩ | ⟨faults, heq⟩ := plan.call_faulty group s
    · rw [heq]
      exact hfail plan s.store e hleft h
    · rw [heq]
      exact hcall plan s.store h

/-- Without faults a plan runs as on the store. -/
theorem run_faultless (plan : Plan) (group : Text) (store : σ) :
    plan.run group (⟨store, []⟩ : FaultyStore σ) =
      ((plan.run group store).1, ⟨(plan.run group store).2, []⟩) := by
  induction plan using call_induction σ group generalizing store with
  | done r => rfl
  | call plan ih =>
    have hcall : plan.call group (⟨store, []⟩ : FaultyStore σ) =
        ((plan.call group store).1, ⟨(plan.call group store).2, []⟩) := by
      cases plan <;> rfl
    rw [← run_call plan group (⟨store, []⟩ : FaultyStore σ), ← run_call plan group store, hcall]
    exact ih store _

end Plan

/-! ### Ids that are given -/

namespace Plan

variable (plan : Plan) (group : Text) (s : CachedStore)

/-- A call takes the next id or none. -/
theorem call_ahead : (plan.call group s).2.table.Ahead s.table := by
  cases plan with
  | done | list => exact .refl _
  | find name next =>
    show (s.find group name).2.table.Ahead s.table
    rw [CachedStore.find_table]
    exact .refl _
  | create => exact s.table.create_ahead ..
  | update => exact s.table.update_ahead ..
  | delete => exact s.table.delete_ahead ..

theorem run_ahead : (plan.run group s).2.table.Ahead s.table := by
  induction plan using call_induction CachedStore group generalizing s with
  | done r => exact .refl _
  | call plan ih =>
    rw [← run_call plan group s]
    exact (ih s _).trans (plan.call_ahead group s)

end Plan

/-! ### Requests -/

/-- A command of a group as it is met: with what the check of its access finds, with the executor and
with a generator for its dice. -/
structure Request (γ : Type) where
  group : Text
  command : Command
  access : Except ServiceError Bool
  executor : Executor
  generator : γ

namespace Request

variable {σ γ : Type} [Store σ] [WordSource γ]

/-- What a request asks of the store. -/
def plan (r : Request γ) : Plan :=
  match r.access with
  | .ok true => r.command.plan r.executor r.generator
  | .ok false => .answer .accessDenied
  | .error _ => .answer .accessUnknown

/-- Serves a request without a pause: the answer, and the store after it. -/
def serve (r : Request γ) (s : σ) : Answer × σ :=
  match r.plan.run r.group s with
  | (result, s) => (Plan.answerOf result, s)

/-- Serves requests one after another. -/
def serveAll (s : σ) : List (Request γ) → List Answer × σ
  | [] => ([], s)
  | r :: rest =>
    match r.serve s with
    | (a, s) =>
      match serveAll s rest with
      | (as, s) => (a :: as, s)

/-- Without faults a request is served as by the store. -/
theorem serve_faultless (r : Request γ) (store : σ) :
    r.serve (⟨store, []⟩ : FaultyStore σ) = ((r.serve store).1, ⟨(r.serve store).2, []⟩) := by
  rw [serve, Plan.run_faultless, serve]

theorem serve_ahead (r : Request γ) (s : CachedStore) : (r.serve s).2.table.Ahead s.table :=
  r.plan.run_ahead r.group s

theorem serveAll_ahead (s : CachedStore) (requests : List (Request γ)) :
    (serveAll s requests).2.table.Ahead s.table := by
  induction requests generalizing s with
  | nil => exact .refl _
  | cons r rest ih => exact (ih _).trans (r.serve_ahead s)

end Request

namespace Bot

theorem setAllowlist_store {σ : Type} (b : Bot σ) (content : Option (List UInt8)) :
    (b.setAllowlist content).store = b.store := by
  unfold setAllowlist
  split <;> rfl

variable {σ γ : Type} [Store σ] [WordSource γ]

/-- The request that a command of a group makes to a bot. -/
def request (b : Bot σ) (g : γ) (group : Text) (c : Command) : Request γ :=
  ⟨group, c, b.access.allows group, b.executor, g⟩

theorem answer_of_parse_eq_none {b : Bot σ} {message : Text}
    (h : Command.parse b.commandPrefix message = none) (g : γ) (group : Text) :
    b.answer g group message = (none, b) := by
  rw [answer, h]

/-- **A bot serves the requests of its messages.** -/
theorem answer_of_parse {b : Bot σ} {message : Text} {c : Command}
    (h : Command.parse b.commandPrefix message = some c) (g : γ) (group : Text) :
    b.answer g group message =
      (some ((b.request g group c).serve b.store).1,
        { b with store := ((b.request g group c).serve b.store).2 }) := by
  simp only [answer, h, request, Request.serve, Request.plan]
  cases b.access.allows group with
  | error => rfl
  | ok allowed =>
    cases allowed with
    | false => rfl
    | true =>
      simp only [perform]
      rcases (c.plan b.executor g).run group b.store with ⟨_ | a, s⟩ <;> rfl

/-- A group that has access gets the answer of the plan. -/
theorem answer_of_allows {b : Bot σ} {group message : Text} {c : Command}
    (hparse : Command.parse b.commandPrefix message = some c)
    (haccess : b.access.allows group = .ok true) (g : γ) :
    b.answer g group message =
      (some (Plan.answerOf ((c.plan b.executor g).run group b.store).1),
        { b with store := ((c.plan b.executor g).run group b.store).2 }) := by
  rw [answer_of_parse hparse]
  simp only [request, Request.serve, Request.plan, haccess]

/-- An event leaves the store as it is, or a request is served for a message. -/
theorem store_handle (b : Bot σ) (g : γ) (event : Event) :
    (b.handle g event).2.store = b.store ∨
      ∃ group message c, Command.parse b.commandPrefix message = some c ∧
        (b.handle g event).2.store = ((b.request g group c).serve b.store).2 := by
  cases event with
  | setAllowlist content => exact Or.inl (b.setAllowlist_store content)
  | message group text =>
    rw [handle]
    cases hparse : Command.parse b.commandPrefix text with
    | none =>
      rw [answer_of_parse_eq_none hparse]
      exact Or.inl rfl
    | some c =>
      rw [answer_of_parse hparse]
      exact Or.inr ⟨group, text, c, hparse, rfl⟩

end Bot

/-! ### Stores of which calls fail -/

namespace Bot

variable {σ γ : Type} [Store σ] [WordSource γ]

/-- The bot while some of the next calls to its store fail. -/
def withFaults (b : Bot σ) (faults : List (Option ServiceError)) : Bot (FaultyStore σ) :=
  { b with store := ⟨b.store, faults⟩ }

/-- The bot when no more calls to its store fail. -/
def repaired (b : Bot (FaultyStore σ)) : Bot σ := { b with store := b.store.store }

/-- Without faults a message is answered as by the bot itself. -/
theorem answer_faultless (b : Bot σ) (g : γ) (group message : Text) :
    (b.withFaults []).answer g group message =
      ((b.answer g group message).1, (b.answer g group message).2.withFaults []) := by
  cases hparse : Command.parse b.commandPrefix message with
  | none =>
    rw [answer_of_parse_eq_none hparse, answer_of_parse_eq_none (b := b.withFaults []) hparse]
  | some c =>
    rw [answer_of_parse hparse, answer_of_parse (b := b.withFaults []) hparse]
    have hserve := (b.request g group c).serve_faultless b.store
    rw [show ((b.withFaults []).request g group c).serve (b.withFaults []).store = _ from hserve]
    rfl

/-- Without faults an event is handled as by the bot itself. -/
theorem repaired_handle_faultless (b : Bot σ) (g : γ) (event : Event) :
    ((b.withFaults []).handle g event).2.repaired = (b.handle g event).2 := by
  cases event with
  | message group text =>
    rw [handle, answer_faultless]
    rfl
  | setAllowlist content =>
    rw [handle, handle]
    obtain ⟨commandPrefix, executor, access, store⟩ := b
    cases access <;> rfl

end Bot

/-! ### Plans on the plain map -/

/-- A plain map that always answers, unless it refuses a macro. -/
instance : Store MacroMap where
  find M group name := (.ok ((M.find? group name).map Row.toMacro), M)
  create M group name expression := M.create group name expression
  update M group name expression :=
    let (answer, M) := M.update group name expression
    (.ok answer, M)
  delete M group name :=
    let (answer, M) := M.delete group name
    (.ok answer, M)
  list M group := (.ok ((M.list group).map Row.toMacro), M)

namespace Represents

variable {s : CachedStore} {M : MacroMap}

/-- One call of a plan goes on as on the map. -/
theorem call (h : Represents s M) (plan : Plan) (group : Text) :
    (plan.call group s).1 = (plan.call group M).1 ∧
      Represents (plan.call group s).2 (plan.call group M).2 := by
  cases plan with
  | done r => exact ⟨rfl, h⟩
  | find name next =>
    obtain ⟨hanswer, hrep⟩ := h.find group name
    exact ⟨congrArg next hanswer, hrep⟩
  | create name x next =>
    obtain ⟨hanswer, hrep⟩ := h.create group name x
    exact ⟨congrArg (Plan.resume next) hanswer, hrep⟩
  | update name x next =>
    obtain ⟨hanswer, hrep⟩ := h.update group name x
    exact ⟨congrArg next hanswer, hrep⟩
  | delete name next =>
    obtain ⟨hanswer, hrep⟩ := h.delete group name
    exact ⟨congrArg next hanswer, hrep⟩
  | list next => exact ⟨congrArg next (h.list group), h⟩

/-- **A plan cannot tell a store from the map that it represents.** -/
theorem run (h : Represents s M) (plan : Plan) (group : Text) :
    (plan.run group s).1 = (plan.run group M).1 ∧
      Represents (plan.run group s).2 (plan.run group M).2 := by
  induction plan using Plan.call_induction CachedStore group generalizing s M with
  | done r => exact ⟨rfl, h⟩
  | call plan ih =>
    obtain ⟨hplan, hrep⟩ := h.call plan group
    rw [← Plan.run_call plan group s, ← Plan.run_call plan group M, ← hplan]
    exact ih s hrep

theorem serve {γ : Type} [WordSource γ] (h : Represents s M) (r : Request γ) :
    (r.serve s).1 = (r.serve M).1 ∧ Represents (r.serve s).2 (r.serve M).2 := by
  obtain ⟨hresult, hrep⟩ := h.run r.plan r.group
  exact ⟨congrArg Plan.answerOf hresult, hrep⟩

/-- A store represents a map after a run, whichever of its calls fail. -/
theorem exists_run_faulty (h : Represents s M) (plan : Plan) (group : Text)
    (faults : List (Option ServiceError)) :
    ∃ M', Represents (plan.run group (⟨s, faults⟩ : FaultyStore CachedStore)).2.store M' := by
  let inv (_ : Plan) (s : CachedStore) : Prop := ∃ M, Represents s M
  have hcall (plan : Plan) (s : CachedStore) (h : inv plan s) :
      inv (plan.call group s).1 (plan.call group s).2 := by
    obtain ⟨M, hM⟩ := h
    exact ⟨_, (hM.call plan group).2⟩
  exact Plan.run_invariant hcall (fun _ _ _ _ h => h) plan (s := ⟨s, faults⟩) ⟨M, h⟩

end Represents

/-! ### Bots -/

namespace Bot

/-- The bots that there can be: a bot is opened with an empty store, handles events, of which some may meet
calls to the store that fail, has its executor stopped, or is closed, after which another bot may open its
store again. -/
inductive Reachable : Bot CachedStore → Prop where
  | opened (commandPrefix : Text) (executor : Executor) (access : Access) (cacheSize : Nat)
      (persistent : Bool) (maxId : Option Nat) :
      Reachable ⟨commandPrefix, executor, access, .ofSize cacheSize persistent maxId⟩
  | handled {b : Bot CachedStore} {γ : Type} [WordSource γ] (h : Reachable b) (g : γ) (event : Event) :
      Reachable (b.handle g event).2
  | disturbed {b : Bot CachedStore} {γ : Type} [WordSource γ] (h : Reachable b)
      (faults : List (Option ServiceError)) (g : γ) (event : Event) :
      Reachable ((b.withFaults faults).handle g event).2.repaired
  | stopped {b : Bot CachedStore} (h : Reachable b) :
      Reachable { b with executor.running := false }
  | reopened {b : Bot CachedStore} (h : Reachable b) (commandPrefix : Text) (executor : Executor)
      (access : Access) : Reachable ⟨commandPrefix, executor, access, b.store.reopen⟩

variable {b : Bot CachedStore} {M : MacroMap} {γ : Type} [WordSource γ]

/-- The store of a bot represents a map after every event, whichever calls fail. -/
theorem exists_represents_disturbed (h : Represents b.store M) (faults : List (Option ServiceError))
    (g : γ) (event : Event) :
    ∃ M', Represents ((b.withFaults faults).handle g event).2.store.store M' := by
  obtain hstore | ⟨group, message, c, -, hstore⟩ := (b.withFaults faults).store_handle g event
  · rw [hstore]
    exact ⟨M, h⟩
  · rw [hstore]
    exact h.exists_run_faulty _ group faults

theorem exists_represents_handle (h : Represents b.store M) (g : γ) (event : Event) :
    ∃ M', Represents (b.handle g event).2.store M' := by
  rw [← repaired_handle_faultless]
  exact exists_represents_disturbed h [] g event

/-- **The store of a bot that can be reached represents a map.** -/
theorem Reachable.represents (h : b.Reachable) : ∃ M, Represents b.store M := by
  induction h with
  | opened _ _ _ cacheSize persistent maxId => exact ⟨_, .ofSize cacheSize persistent maxId⟩
  | handled _ g event ih =>
    obtain ⟨M, hM⟩ := ih
    exact exists_represents_handle hM g event
  | disturbed _ faults g event ih =>
    obtain ⟨M, hM⟩ := ih
    exact exists_represents_disturbed hM faults g event
  | stopped _ ih => exact ih
  | reopened _ _ _ _ ih =>
    obtain ⟨M, hM⟩ := ih
    exact ⟨_, hM.reopen⟩

/-- An event takes the next id or none. -/
theorem handle_ahead (b : Bot CachedStore) (g : γ) (event : Event) :
    (b.handle g event).2.store.table.Ahead b.store.table := by
  obtain hstore | ⟨group, message, c, -, hstore⟩ := b.store_handle g event
  · rw [hstore]
    exact .refl _
  · rw [hstore]
    exact (b.request g group c).serve_ahead b.store

theorem session_ahead (b : Bot CachedStore) (events : List (Event × γ)) :
    (b.session events).2.store.table.Ahead b.store.table := by
  induction events generalizing b with
  | nil => exact .refl _
  | cons e rest ih => exact (ih _).trans (b.handle_ahead e.2 e.1)

/-- Every session leads to a bot that can be reached. -/
theorem Reachable.session (h : b.Reachable) (events : List (Event × γ)) :
    (b.session events).2.Reachable := by
  induction events generalizing b with
  | nil => exact h
  | cons e rest ih => exact ih (h.handled e.2 e.1)

end Bot

end DiceBot
