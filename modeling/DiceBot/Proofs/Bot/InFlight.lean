import DiceBot.Proofs.Bot.Serving
import Mathlib.Logic.Function.Basic

/-! # Requests in flight

Requests in flight share a store and take turns: in its turn a request makes its next call, and
whatever it does before, such as having its access checked or its template tried out, may take any
time. A schedule says whose turn it is, turn after turn; every interleaving is one, and a request that
takes its turns without a pause is served (`InFlight.serve_eq_of_replicate`). The history of a schedule
lists the answers in the order of the calls that settle them (`InFlight.mem_history_iff`); two turns
are enough for every request (`InFlight.answer?_of_two_le_count`). -/

namespace DiceBot

/-! ### Turns -/

/-- Requests in flight: the store, their groups, and what is left of their plans. -/
structure InFlight (ι : Type) where
  store : CachedStore
  group : ι → Text
  plan : ι → Plan

namespace InFlight

variable {ι γ : Type} [DecidableEq ι] [WordSource γ]

/-- Requests none of which has made a call. -/
def start (store : CachedStore) (requests : ι → Request γ) : InFlight ι :=
  ⟨store, fun i => (requests i).group, fun i => (requests i).plan⟩

/-- The answer to a request, once it is settled. -/
def answer? (s : InFlight ι) (i : ι) : Option Answer := (s.plan i).settled?

/-- The next call of a request, if it has one. -/
def turn (s : InFlight ι) (i : ι) : InFlight ι :=
  { s with
    store := ((s.plan i).call (s.group i) s.store).2
    plan := Function.update s.plan i ((s.plan i).call (s.group i) s.store).1 }

/-- The turns of a schedule. -/
def after (s : InFlight ι) (schedule : List ι) : InFlight ι := schedule.foldl turn s

/-- The answer that a request gets in its next turn. -/
def gets? (s : InFlight ι) (i : ι) : Option Answer :=
  match s.answer? i with
  | none => (s.turn i).answer? i
  | some _ => none

/-- The answers that are settled in the turns of a schedule, each with its request. -/
def history (s : InFlight ι) : List ι → List (ι × Answer)
  | [] => []
  | i :: rest => ((s.gets? i).map fun a => (i, a)).toList ++ (s.turn i).history rest

variable {s : InFlight ι} {i j : ι} {a : Answer} {schedule : List ι}

@[simp] theorem after_nil : s.after [] = s := rfl

@[simp] theorem after_cons : s.after (i :: schedule) = (s.turn i).after schedule := rfl

theorem after_append (before rest : List ι) : s.after (before ++ rest) = (s.after before).after rest :=
  List.foldl_append

/-- The history of a schedule begins with that of each part that it begins with. -/
theorem history_append (before rest : List ι) :
    s.history (before ++ rest) = s.history before ++ (s.after before).history rest := by
  induction before generalizing s with
  | nil => rfl
  | cons i before ih =>
    rw [List.cons_append, history, history, ih, List.append_assoc]
    rfl

@[simp] theorem turn_plan_self : (s.turn i).plan i = ((s.plan i).call (s.group i) s.store).1 :=
  Function.update_self ..

theorem turn_plan_of_ne (h : j ≠ i) : (s.turn i).plan j = s.plan j := Function.update_of_ne h ..

theorem answer?_turn_of_ne (h : j ≠ i) : (s.turn i).answer? j = s.answer? j :=
  congrArg Plan.settled? (turn_plan_of_ne h)

/-- A turn takes the next id or none. -/
theorem turn_ahead (s : InFlight ι) (i : ι) : (s.turn i).store.table.Ahead s.store.table :=
  (s.plan i).call_ahead (s.group i) s.store

theorem after_ahead (s : InFlight ι) (schedule : List ι) :
    (s.after schedule).store.table.Ahead s.store.table := by
  induction schedule generalizing s with
  | nil => exact .refl _
  | cons i rest ih => exact (ih (s.turn i)).trans (s.turn_ahead i)

/-- A request whose answer is settled lets its turns pass. -/
theorem turn_of_answer? (h : s.answer? i = some a) : s.turn i = s := by
  have hcall : (s.plan i).call (s.group i) s.store = (s.plan i, s.store) := by
    unfold answer? at h
    cases hplan : s.plan i with
    | done r => rfl
    | find | create | update | delete | list =>
      rw [hplan] at h
      cases h
  unfold turn
  rw [hcall, Function.update_eq_self]

theorem answer?_turn (h : s.answer? i = some a) (j : ι) : (s.turn j).answer? i = some a := by
  by_cases hij : i = j
  · subst hij
    rw [turn_of_answer? h]
    exact h
  · rw [answer?_turn_of_ne hij]
    exact h

/-- A settled answer stays. -/
theorem answer?_after (h : s.answer? i = some a) (schedule : List ι) :
    (s.after schedule).answer? i = some a := by
  induction schedule generalizing s with
  | nil => exact h
  | cons j rest ih => exact ih (answer?_turn h j)

theorem answer?_eq_none_of_turn (h : (s.turn j).answer? i = none) : s.answer? i = none := by
  cases hs : s.answer? i with
  | none => rfl
  | some a =>
    rw [answer?_turn hs j] at h
    cases h

theorem answer?_eq_none_of_after (h : (s.after schedule).answer? i = none) : s.answer? i = none := by
  cases hs : s.answer? i with
  | none => rfl
  | some a =>
    rw [answer?_after hs schedule] at h
    cases h

theorem gets?_of_none (h : s.answer? i = none) : s.gets? i = (s.turn i).answer? i := by
  rw [gets?, h]

theorem gets?_of_some (h : s.answer? i = some a) : s.gets? i = none := by
  rw [gets?, h]

theorem gets?_eq_some_iff : s.gets? i = some a ↔ s.answer? i = none ∧ (s.turn i).answer? i = some a := by
  cases h : s.answer? i with
  | none => rw [gets?_of_none h]; exact (and_iff_right rfl).symm
  | some b => rw [gets?_of_some h]; simp

/-- Turns of one request without a pause make the run of its plan. -/
theorem run_after_replicate (s : InFlight ι) (i : ι) (n : Nat) :
    ((s.after (List.replicate n i)).plan i).run (s.group i) (s.after (List.replicate n i)).store =
      (s.plan i).run (s.group i) s.store := by
  induction n generalizing s with
  | zero => rfl
  | succ n ih =>
    rw [List.replicate_succ, after_cons, ← Plan.run_call (s.plan i), ← turn_plan_self]
    exact ih (s.turn i)

/-- **A request that takes its turns without a pause is served.** -/
theorem serve_eq_of_replicate {store : CachedStore} {requests : ι → Request γ} {n : Nat}
    (h : ((start store requests).after (List.replicate n i)).answer? i = some a) :
    (requests i).serve store = (a, ((start store requests).after (List.replicate n i)).store) := by
  have hrun := run_after_replicate (start store requests) i n
  obtain ⟨ha, hstore⟩ := Plan.run_of_settled h ((start store requests).group i)
    ((start store requests).after (List.replicate n i)).store
  rw [hrun] at ha hstore
  exact Prod.ext ha hstore

/-- **The history has the answers that are settled in its turns.** -/
theorem mem_history_iff :
    (i, a) ∈ s.history schedule ↔ s.answer? i = none ∧ (s.after schedule).answer? i = some a := by
  induction schedule generalizing s with
  | nil =>
    rw [after_nil]
    constructor
    · exact fun h => absurd h List.not_mem_nil
    · rintro ⟨hnone, hsome⟩
      rw [hnone] at hsome
      cases hsome
  | cons j rest ih =>
    have hhead : (i, a) ∈ ((s.gets? j).map fun a => (j, a)).toList ↔ j = i ∧ s.gets? i = some a := by
      rw [Option.mem_toList, Option.map_eq_some_iff]
      constructor
      · rintro ⟨b, hb, heq⟩
        obtain ⟨rfl, rfl⟩ := Prod.mk.inj heq
        exact ⟨rfl, hb⟩
      · rintro ⟨rfl, ha⟩
        exact ⟨a, ha, rfl⟩
    rw [history, List.mem_append, hhead, ih, gets?_eq_some_iff, after_cons]
    constructor
    · rintro (⟨rfl, hnone, hsome⟩ | ⟨hnone, hsome⟩)
      · exact ⟨hnone, answer?_after hsome rest⟩
      · exact ⟨answer?_eq_none_of_turn hnone, hsome⟩
    · rintro ⟨hnone, hsome⟩
      cases hturn : (s.turn j).answer? i with
      | none => exact .inr ⟨rfl, hsome⟩
      | some b =>
        -- the answer came in this turn, so it was the turn of `i`
        have hji : j = i := by
          by_contra hne
          rw [answer?_turn_of_ne (Ne.symm hne), hnone] at hturn
          cases hturn
        subst hji
        have hb := answer?_after hturn rest
        rw [hsome] at hb
        exact .inl ⟨rfl, hnone, by rw [hturn, hb]⟩

/-- No request is answered twice. -/
theorem nodup_history (s : InFlight ι) (schedule : List ι) :
    ((s.history schedule).map Prod.fst).Nodup := by
  induction schedule generalizing s with
  | nil => exact List.nodup_nil
  | cons i rest ih =>
    rw [history]
    cases hgets : s.gets? i with
    | none => exact ih (s.turn i)
    | some a =>
      refine List.nodup_cons.mpr ⟨fun hmem => ?_, ih (s.turn i)⟩
      obtain ⟨⟨j, b⟩, hb, rfl⟩ := List.mem_map.mp hmem
      have hnone := (mem_history_iff.mp hb).1
      rw [(gets?_eq_some_iff.mp hgets).2] at hnone
      cases hnone

end InFlight

/-! ### Everything is answered -/

namespace Plan

/-- The plan makes at most `n` calls. -/
def Within : Nat → Plan → Prop
  | _, .done _ => True
  | n + 1, .find _ next => ∀ a, (next a).Within n
  | n + 1, .create _ _ next => ∀ a, (next a).Within n
  | n + 1, .update _ _ next => ∀ a, (next a).Within n
  | n + 1, .delete _ next => ∀ a, (next a).Within n
  | n + 1, .list next => ∀ ms, (next ms).Within n
  | 0, _ => False

variable {plan : Plan} {n : Nat}

theorem within_done (n : Nat) (result : Except ServiceError Answer) : (Plan.done result).Within n := by
  cases n <;> trivial

theorem Within.call (h : plan.Within (n + 1)) (group : Text) (s : CachedStore) :
    (plan.call group s).1.Within n := by
  cases plan with
  | done r => exact within_done n r
  | create => exact resume_rec (fun e => within_done n _) h _
  | find | update | delete | list => exact h _

theorem Within.settled (h : plan.Within 0) : plan.settled? ≠ none := by
  cases plan with
  | done r => exact Option.some_ne_none _
  | find | create | update | delete | list => exact absurd h id

end Plan

namespace Command

variable {γ : Type} [WordSource γ] {ex : Executor} {g : γ} {template : Text} {n : Nat}

theorem within_ifAccepted {next : Plan} (h : next.Within n) :
    (ifAccepted ex g template next).Within n := by
  unfold ifAccepted
  split
  · exact h
  · exact Plan.within_done n _
  · exact Plan.within_done n _

/-- **A command makes at most two calls.** -/
theorem within_plan (c : Command) (ex : Executor) (g : γ) : (c.plan ex g).Within 2 := by
  cases c with
  | help | roll => exact Plan.within_done 2 _
  | make name expression =>
    simp only [plan]
    split
    case isTrue =>
      rintro (_ | m)
      · exact within_ifAccepted fun _ => trivial
      · exact Plan.within_done 1 _
    case isFalse => exact Plan.within_done 2 _
  | edit name expression => exact within_ifAccepted fun _ => trivial
  | rollMacro name inputs => rintro (_ | m) <;> exact Plan.within_done 1 _
  | view name => rintro (_ | m) <;> exact Plan.within_done 1 _
  | list | delete => exact fun _ => trivial

end Command

theorem Request.within_plan {γ : Type} [WordSource γ] (r : Request γ) : r.plan.Within 2 := by
  unfold plan
  split
  · exact r.command.within_plan r.executor r.generator
  · exact Plan.within_done 2 _
  · exact Plan.within_done 2 _

namespace InFlight

variable {ι γ : Type} [DecidableEq ι] [WordSource γ] {s : InFlight ι} {i : ι} {n : Nat}

theorem answer?_after_of_within (h : (s.plan i).Within n) {schedule : List ι}
    (hcount : n ≤ schedule.count i) : (s.after schedule).answer? i ≠ none := by
  induction schedule generalizing s n with
  | nil =>
    rw [List.count_nil, Nat.le_zero] at hcount
    subst hcount
    exact h.settled
  | cons j rest ih =>
    cases n with
    | zero => exact fun hnone => h.settled (answer?_eq_none_of_after hnone)
    | succ n =>
      by_cases hji : j = i
      · subst hji
        rw [List.count_cons_self, Nat.succ_le_succ_iff] at hcount
        refine ih (s := s.turn j) ?_ hcount
        rw [turn_plan_self]
        exact h.call _ _
      · rw [List.count_cons_of_ne hji] at hcount
        refine ih (s := s.turn j) ?_ hcount
        rw [turn_plan_of_ne (Ne.symm hji)]
        exact h

/-- **Two turns are enough for an answer.** -/
theorem answer?_of_two_le_count (store : CachedStore) (requests : ι → Request γ) {schedule : List ι}
    (h : 2 ≤ schedule.count i) : ((start store requests).after schedule).answer? i ≠ none :=
  answer?_after_of_within (requests i).within_plan h

end InFlight

end DiceBot
