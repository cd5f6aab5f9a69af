import DiceBot.Proofs.Bot.Serving

/-! # Groups are isolated

Two maps are the same for a group if it sees the same names with the same expressions in both
(`MacroMap.SameFor`); the ids may differ, since all groups share one counter, which may be ahead in the
first. A plan of the group that does not look at ids (`Plan.IdFree`) has the same end on both and leaves
them the same for the group, as long as there are ids in the first; a plan of another group leaves
everything that the group sees. No command looks at ids, so the answers to a group do not depend on the
messages of other groups, unless these use up the ids. -/

namespace DiceBot

/-! ### What a group sees -/

/-- What a group sees of a macro. -/
def Macro.content (m : Macro) : Text × Text := (m.name, m.expression)

namespace MacroMap

/-- What a group sees under a name. -/
def seen (M : MacroMap) (group name : Text) : Option (Text × Text) :=
  ((M.find? group name).map Row.toMacro).map Macro.content

/-- The group sees the same macros in both maps, of which the first may have given more of the ids. -/
structure SameFor (group : Text) (M M' : MacroMap) : Prop where
  seen_eq : ∀ name, M.seen group name = M'.seen group name
  counter_le : M'.counter ≤ M.counter
  maxId_eq : M'.maxId = M.maxId

variable {group name expression : Text} {M M' M'' : MacroMap}

theorem isSome_seen : (M.seen group name).isSome = (M.find? group name).isSome := by
  rw [seen, Option.isSome_map, Option.isSome_map]

namespace SameFor

theorem refl (group : Text) (M : MacroMap) : SameFor group M M := ⟨fun _ => rfl, le_rfl, rfl⟩

theorem trans (h : SameFor group M M') (h' : SameFor group M' M'') : SameFor group M M'' :=
  ⟨fun name => (h.seen_eq name).trans (h'.seen_eq name), h'.counter_le.trans h.counter_le,
    h'.maxId_eq.trans h.maxId_eq⟩

theorem isSome_eq (h : SameFor group M M') (name : Text) :
    (M.find? group name).isSome = (M'.find? group name).isSome := by
  rw [← isSome_seen, h.seen_eq, isSome_seen]

theorem names_eq (h : SameFor group M M') : M.names group = M'.names group := by
  ext name
  rw [mem_names, mem_names, h.isSome_eq]

theorem list_eq (h : SameFor group M M') :
    ((M.list group).map Row.toMacro).map Macro.content =
      ((M'.list group).map Row.toMacro).map Macro.content := by
  simp only [list, h.names_eq, List.map_filterMap]
  exact List.filterMap_congr fun name _ => h.seen_eq name

/-- If there is an id in the first map there is one in the second. -/
theorem hasId (h : SameFor group M M') (hid : M.hasId = true) : M'.hasId = true := by
  rw [MacroMap.hasId] at hid ⊢
  rw [h.maxId_eq]
  cases hmax : M.maxId with
  | none => rfl
  | some n =>
    rw [hmax] at hid
    exact decide_eq_true (h.counter_le.trans_lt (of_decide_eq_true hid))

theorem add (h : SameFor group M M') (name expression : Text) :
    SameFor group (M.add group name expression) (M'.add group name expression) := by
  refine ⟨fun n => ?_, Nat.succ_le_succ h.counter_le, h.maxId_eq⟩
  rw [seen, seen, find?_add, find?_add]
  split_ifs
  · rfl
  · exact h.seen_eq n

theorem create (h : SameFor group M M') (hid : M.hasId = true) (name expression : Text) :
    (M.create group name expression).1 = (M'.create group name expression).1 ∧
      SameFor group (M.create group name expression).2 (M'.create group name expression).2 := by
  have hsome := h.isSome_eq name
  cases hM : M.find? group name with
  | some row =>
    rw [hM] at hsome
    obtain ⟨row', hM'⟩ := Option.isSome_iff_exists.mp hsome.symm
    rw [create_of_some hM, create_of_some hM']
    exact ⟨rfl, h⟩
  | none =>
    rw [hM] at hsome
    have hM' : M'.find? group name = none := Option.isNone_iff_eq_none.mp (by simpa using hsome.symm)
    rw [create_of_hasId hM hid, create_of_hasId hM' (h.hasId hid)]
    exact ⟨rfl, h.add name expression⟩

theorem update (h : SameFor group M M') (name expression : Text) :
    (M.update group name expression).1 = (M'.update group name expression).1 ∧
      SameFor group (M.update group name expression).2 (M'.update group name expression).2 := by
  have hseen (N : MacroMap) (n : Text) : (N.update group name expression).2.seen group n =
      if (group, n) = (group, name) then (N.seen group name).map fun c => (c.1, expression)
      else N.seen group n := by
    rw [seen, find?_update]
    split_ifs
    · rw [seen]
      cases N.find? group name <;> rfl
    · rfl
  refine ⟨by rw [update_fst, update_fst, h.isSome_eq], fun n => ?_, ?_, ?_⟩
  · rw [hseen, hseen, h.seen_eq, h.seen_eq]
  · rw [counter_update, counter_update]
    exact h.counter_le
  · rw [maxId_update, maxId_update]
    exact h.maxId_eq

theorem delete (h : SameFor group M M') (name : Text) :
    (M.delete group name).1 = (M'.delete group name).1 ∧
      SameFor group (M.delete group name).2 (M'.delete group name).2 := by
  refine ⟨by rw [delete_fst, delete_fst, h.isSome_eq], fun n => ?_, h.counter_le, h.maxId_eq⟩
  rw [seen, seen, find?_delete, find?_delete]
  split_ifs
  · rfl
  · exact h.seen_eq n

end SameFor

end MacroMap

/-! ### Plans -/

namespace Plan

/-- What the plan does after a look-up or a list does not depend on the ids in it. -/
def IdFree : Plan → Prop
  | .done _ => True
  | .find _ next =>
    (∀ a a' : Option Macro, a.map Macro.content = a'.map Macro.content → next a = next a') ∧
      ∀ a, (next a).IdFree
  | .create _ _ next | .update _ _ next | .delete _ next => ∀ a, (next a).IdFree
  | .list next =>
    (∀ ms ms' : List Macro, ms.map Macro.content = ms'.map Macro.content → next ms = next ms') ∧
      ∀ ms, (next ms).IdFree

variable {group other : Text} {plan : Plan} {M M' : MacroMap}

/-- A plan that does not look at ids goes on alike on maps that are the same for its group, as long as there
is an id. -/
theorem IdFree.call (hp : plan.IdFree) (h : M.SameFor group M') (hid : M.hasId = true) :
    (plan.call group M).1 = (plan.call group M').1 ∧
      (plan.call group M).2.SameFor group (plan.call group M').2 ∧ (plan.call group M).1.IdFree := by
  cases plan with
  | done r => exact ⟨rfl, h, hp⟩
  | find name next => exact ⟨hp.1 _ _ (h.seen_eq name), h, hp.2 _⟩
  | create name x next =>
    obtain ⟨hanswer, hsame⟩ := h.create hid name x
    exact ⟨congrArg (resume next) hanswer, hsame, resume_rec (fun _ => trivial) hp _⟩
  | update name x next =>
    obtain ⟨hanswer, hsame⟩ := h.update name x
    exact ⟨congrArg next hanswer, hsame, hp _⟩
  | delete name next =>
    obtain ⟨hanswer, hsame⟩ := h.delete name
    exact ⟨congrArg next hanswer, hsame, hp _⟩
  | list next => exact ⟨hp.1 _ _ h.list_eq, h, hp.2 _⟩

/-- A call for one group leaves what another group sees. -/
theorem call_sameFor (hne : group ≠ other) (plan : Plan) (M : MacroMap) :
    (plan.call other M).2.SameFor group M := by
  have hkey (n name : Text) : (group, n) ≠ (other, name) := fun h => hne (congrArg Prod.fst h)
  cases plan with
  | done | find | list => exact .refl group M
  | create name x next =>
    refine ⟨fun n => ?_, M.counter_le_create other name x, (M.maxId_create other name x).symm⟩
    show (((M.create other name x).2.find? group n).map Row.toMacro).map Macro.content = _
    rw [MacroMap.find?_create_of_ne (hkey n name), MacroMap.seen]
  | update name x next =>
    refine ⟨fun n => ?_, (M.counter_update other name x).ge, (M.maxId_update other name x).symm⟩
    show (((M.update other name x).2.find? group n).map Row.toMacro).map Macro.content = _
    rw [MacroMap.find?_update_of_ne (hkey n name), MacroMap.seen]
  | delete name next =>
    refine ⟨fun n => ?_, le_rfl, rfl⟩
    show (((M.delete other name).2.find? group n).map Row.toMacro).map Macro.content = _
    rw [MacroMap.find?_delete_of_ne (hkey n name), MacroMap.seen]

theorem run_sameFor (hne : group ≠ other) (plan : Plan) (M : MacroMap) :
    (plan.run other M).2.SameFor group M := by
  induction plan using call_induction MacroMap other generalizing M with
  | done r => exact .refl group M
  | call plan ih =>
    rw [← run_call plan other M]
    exact (ih M _).trans (call_sameFor hne plan M)

end Plan

/-! ### Requests -/

variable {γ : Type} [WordSource γ] {group : Text}

theorem Command.idFree_ifAccepted {ex : Executor} {g : γ} {template : Text} {next : Plan}
    (h : next.IdFree) : (ifAccepted ex g template next).IdFree := by
  unfold ifAccepted
  split
  · exact h
  · trivial
  · trivial

/-- **No command looks at ids.** -/
theorem Command.idFree_plan (c : Command) (ex : Executor) (g : γ) : (c.plan ex g).IdFree := by
  cases c with
  | help | roll => trivial
  | make name x =>
    simp only [plan]
    split
    case isFalse => trivial
    case isTrue =>
      refine ⟨?_, ?_⟩
      · rintro (_ | m) (_ | m') h
        · rfl
        · cases h
        · cases h
        · rfl
      · rintro (_ | m)
        · exact idFree_ifAccepted fun _ => trivial
        · trivial
  | edit name x => exact idFree_ifAccepted fun _ => trivial
  | rollMacro name inputs =>
    refine ⟨?_, ?_⟩
    · rintro (_ | m) (_ | m') h
      · rfl
      · cases h
      · cases h
      · have hx : m.expression = m'.expression := congrArg Prod.snd (Option.some.inj h)
        simp only [hx]
    · rintro (_ | m) <;> trivial
  | view name =>
    refine ⟨?_, ?_⟩
    · rintro (_ | m) (_ | m') h
      · rfl
      · cases h
      · cases h
      · have hcontent : m.content = m'.content := Option.some.inj h
        have hname : m.name = m'.name := congrArg Prod.fst hcontent
        have hx : m.expression = m'.expression := congrArg Prod.snd hcontent
        simp only [hname, hx]
    · rintro (_ | m) <;> trivial
  | list => exact ⟨fun ms ms' h => congrArg (fun l => Plan.answer (.listed l)) h, fun _ => trivial⟩
  | delete name => exact fun _ => trivial

theorem Request.idFree_plan (r : Request γ) : r.plan.IdFree := by
  unfold plan
  split
  · exact r.command.idFree_plan r.executor r.generator
  · trivial
  · trivial

/-- Two stores in which the group sees the same macros, of which the first may have given more of the ids. -/
def CachedStore.SameFor (group : Text) (s s' : CachedStore) : Prop :=
  ∃ M M', Represents s M ∧ Represents s' M' ∧ M.SameFor group M'

namespace CachedStore.SameFor

variable {s s' : CachedStore} {r : Request γ}

/-- A plan that does not look at ids has the same end on both stores, if there are ids in the first. -/
theorem run (h : SameFor group s s') {plan : Plan} (hp : plan.IdFree)
    (hid : (plan.run group s).2.table.hasId = true) :
    (plan.run group s).1 = (plan.run group s').1 ∧
      SameFor group (plan.run group s).2 (plan.run group s').2 := by
  induction plan using Plan.call_induction CachedStore group generalizing s s' with
  | done r => exact ⟨rfl, h⟩
  | call plan ih =>
    obtain ⟨M, M', hs, hs', hsame⟩ := h
    -- an id that is there after the run is there before it
    have hidM : M.hasId = true := hs.mirrors.hasId ▸ (plan.run_ahead group s).hasId hid
    obtain ⟨hplan, hrep⟩ := hs.call plan group
    obtain ⟨hplan', hrep'⟩ := hs'.call plan group
    obtain ⟨hnext, hafter, hfree⟩ := hp.call hsame hidM
    have hcall : (plan.call group s).1 = (plan.call group s').1 := by rw [hplan, hplan', hnext]
    rw [← Plan.run_call plan group s] at hid ⊢
    rw [← Plan.run_call plan group s', ← hcall]
    exact ih s ⟨_, _, hrep, hrep', hafter⟩ (hplan ▸ hfree) hid

/-- A request of the group is answered alike, if there are ids in the first store. -/
theorem serve (h : SameFor r.group s s') (hid : (r.serve s).2.table.hasId = true) :
    (r.serve s).1 = (r.serve s').1 ∧ SameFor r.group (r.serve s).2 (r.serve s').2 := by
  obtain ⟨hresult, hafter⟩ := h.run r.idFree_plan hid
  exact ⟨congrArg Plan.answerOf hresult, hafter⟩

/-- A request of another group does not matter. -/
theorem serve_other (h : SameFor group s s') (hne : r.group ≠ group) :
    SameFor group (r.serve s).2 s' := by
  obtain ⟨M, M', hs, hs', hsame⟩ := h
  exact ⟨_, M', (hs.serve r).2, hs', (Plan.run_sameFor hne.symm r.plan M).trans hsame⟩

end CachedStore.SameFor

/-- The answers to the requests of a group among others. -/
def Request.answersTo (group : Text) (s : CachedStore) (requests : List (Request γ)) : List Answer :=
  ((requests.zip (serveAll s requests).1).filter fun x => x.1.group = group).map Prod.snd

/-- The requests of other groups do not matter, as long as there are ids. -/
theorem Request.answersTo_eq {s s' : CachedStore} (h : s.SameFor group s')
    {requests : List (Request γ)} (hid : (serveAll s requests).2.table.hasId = true) :
    answersTo group s requests = (serveAll s' (requests.filter fun r => r.group = group)).1 := by
  induction requests generalizing s s' with
  | nil => rfl
  | cons r rest ih =>
    have hcons : answersTo group s (r :: rest) =
        (if r.group = group then [(r.serve s).1] else []) ++ answersTo group (r.serve s).2 rest := by
      simp only [answersTo, serveAll, List.zip_cons_cons, List.filter_cons]
      split <;> simp_all
    have hrest : (serveAll (r.serve s).2 rest).2.table.hasId = true := hid
    rw [hcons]
    by_cases hr : r.group = group
    · subst hr
      obtain ⟨hanswer, hafter⟩ := h.serve ((serveAll_ahead (r.serve s).2 rest).hasId hrest)
      rw [if_pos rfl, List.filter_cons_of_pos (by simp), ih hafter hrest, hanswer]
      rfl
    · rw [if_neg hr, List.filter_cons_of_neg (by simpa using hr)]
      exact ih (h.serve_other hr) hrest

/-! ### Sessions -/

/-- The event is a message of the group. -/
def Event.isFrom (group : Text) : Event → Bool
  | .message g _ => g = group
  | .setAllowlist _ => false

/-- The event is no message of another group. -/
def Event.concerns (group : Text) : Event → Bool
  | .message g _ => g = group
  | .setAllowlist _ => true

namespace Bot

/-- The answers to the messages of a group in a session. -/
def answersTo (group : Text) (b : Bot CachedStore) (events : List (Event × γ)) : List (Option Answer) :=
  ((events.zip (b.session events).1).filter fun x => x.1.1.isFrom group).map Prod.snd

variable {b : Bot CachedStore} {s : CachedStore}

theorem answersTo_cons (group : Text) (b : Bot CachedStore) (event : Event) (g : γ)
    (rest : List (Event × γ)) :
    b.answersTo group ((event, g) :: rest) =
      (if event.isFrom group then [(b.handle g event).1] else []) ++
        (b.handle g event).2.answersTo group rest := by
  simp only [answersTo, session, List.zip_cons_cons, List.filter_cons]
  split <;> rfl

theorem setAllowlist_withStore (b : Bot CachedStore) (s : CachedStore)
    (content : Option (List UInt8)) :
    setAllowlist { b with store := s } content = { b.setAllowlist content with store := s } := by
  obtain ⟨commandPrefix, executor, access, store⟩ := b
  cases access <;> rfl

/-- A message of the group has the same answer, and the stores stay the same for it, as long as there are
ids. -/
theorem exists_answer_eq (h : b.store.SameFor group s) (g : γ) (text : Text)
    (hid : (b.answer g group text).2.store.table.hasId = true) :
    ∃ a s₁ s₂, b.answer g group text = (a, { b with store := s₁ }) ∧
      answer { b with store := s } g group text = (a, { b with store := s₂ }) ∧
      s₁.SameFor group s₂ := by
  cases hparse : Command.parse b.commandPrefix text with
  | none =>
    exact ⟨none, b.store, s, answer_of_parse_eq_none hparse g group,
      answer_of_parse_eq_none (b := { b with store := s }) hparse g group, h⟩
  | some c =>
    rw [answer_of_parse hparse] at hid
    obtain ⟨hanswer, hafter⟩ := CachedStore.SameFor.serve (r := b.request g group c) h hid
    have hright := answer_of_parse (b := { b with store := s }) hparse g group
    refine ⟨_, _, _, answer_of_parse hparse g group, ?_, hafter⟩
    rw [hanswer]
    exact hright

/-- A message of another group leaves the stores the same for the group. -/
theorem exists_answer_other {other : Text} (h : b.store.SameFor group s) (hne : other ≠ group)
    (g : γ) (text : Text) :
    ∃ s₁, (b.answer g other text).2 = { b with store := s₁ } ∧ s₁.SameFor group s := by
  cases hparse : Command.parse b.commandPrefix text with
  | none =>
    rw [answer_of_parse_eq_none hparse]
    exact ⟨b.store, rfl, h⟩
  | some c =>
    rw [answer_of_parse hparse]
    exact ⟨_, rfl, h.serve_other (r := b.request g other c) hne⟩

/-- The messages of other groups do not matter, as long as there are ids. -/
theorem answersTo_eq (h : b.store.SameFor group s) {events : List (Event × γ)}
    (hid : (b.session events).2.store.table.hasId = true) :
    b.answersTo group events =
      answersTo group { b with store := s } (events.filter fun e => e.1.concerns group) := by
  induction events generalizing b s with
  | nil => rfl
  | cons e rest ih =>
    obtain ⟨event, g⟩ := e
    have hrest : ((b.handle g event).2.session rest).2.store.table.hasId = true := hid
    rw [answersTo_cons]
    cases event with
    | setAllowlist content =>
      have hstore : (b.setAllowlist content).store.SameFor group s := by
        rwa [setAllowlist_store]
      rw [List.filter_cons_of_pos (by rfl), answersTo_cons, handle, handle,
        setAllowlist_withStore b s]
      exact congrArg ([] ++ ·) (ih hstore hrest)
    | message sender text =>
      rw [handle] at hrest ⊢
      by_cases hsender : sender = group
      · subst hsender
        obtain ⟨a, s₁, s₂, hleft, hright, hafter⟩ :=
          exists_answer_eq h g text ((session_ahead _ rest).hasId hrest)
        rw [hleft] at hrest
        rw [List.filter_cons_of_pos (by simp [Event.concerns]), answersTo_cons, handle, hleft, hright]
        exact congrArg (_ ++ ·) (ih hafter hrest)
      · obtain ⟨s₁, hleft, hafter⟩ := exists_answer_other h hsender g text
        rw [hleft] at hrest
        rw [List.filter_cons_of_neg (by simpa [Event.concerns] using hsender), hleft,
          if_neg (by simpa [Event.isFrom] using hsender)]
        exact ih hafter hrest

/-- **Groups are isolated.** In every session, on a store with any history behind it, the answers to a
group are those in the session without the messages of all other groups. So they are for requests
served one after another, whatever the check of the access of each finds. Only when the ids are used up
may the answers differ, since all groups draw on them. -/
theorem session_isolated (cacheSize : Nat) (persistent : Bool) (maxId : Option Nat)
    (history : List StoreStep) (group : Text) :
    let store := ((CachedStore.ofSize cacheSize persistent maxId).performAll history).2
    (∀ (commandPrefix : Text) (executor : Executor) (access : Access) (events : List (Event × γ)),
      answersTo group ⟨commandPrefix, executor, access, store⟩ events =
        answersTo group ⟨commandPrefix, executor, access, store⟩
          (events.filter fun e => e.1.concerns group) ∨
      ∃ n ∈ maxId,
        n < (session ⟨commandPrefix, executor, access, store⟩ events).2.store.table.nextId) ∧
    ∀ requests : List (Request γ),
      Request.answersTo group store requests =
        (Request.serveAll store (requests.filter fun r => r.group = group)).1 ∨
      ∃ n ∈ maxId, n < (Request.serveAll store requests).2.table.nextId := by
  intro store
  have hrep := ((Represents.ofSize cacheSize persistent maxId).performAll history).2
  have hsame : store.SameFor group store := ⟨_, _, hrep, hrep, .refl group _⟩
  have hmaxId : store.table.maxId = maxId := by
    rw [hrep.mirrors.maxId, MacroMap.maxId_performAll]
    rfl
  refine ⟨fun commandPrefix executor access events => ?_, fun requests => ?_⟩
  · have hahead := session_ahead ⟨commandPrefix, executor, access, store⟩ events
    cases hid : (session ⟨commandPrefix, executor, access, store⟩ events).2.store.table.hasId with
    | true => exact Or.inl (answersTo_eq hsame hid)
    | false =>
      rw [MacroTable.hasId_eq_false_iff, hahead.maxId_eq, hmaxId] at hid
      exact Or.inr hid
  · have hahead := Request.serveAll_ahead store requests
    cases hid : (Request.serveAll store requests).2.table.hasId with
    | true => exact Or.inl (Request.answersTo_eq hsame hid)
    | false =>
      rw [MacroTable.hasId_eq_false_iff, hahead.maxId_eq, hmaxId] at hid
      exact Or.inr hid

end Bot

end DiceBot
