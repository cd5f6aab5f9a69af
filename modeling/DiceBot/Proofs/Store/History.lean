import DiceBot.Proofs.Store.Freshness

/-! # Histories of a store

Steps that are made one after another, each answered before the next is made. The queue and the worker
then leave no trace: a service that is at rest answers as the plain map and is at rest again, with a
store that represents the map after the step (`Quiet.run`). `CachedStore.performAll` is one such
history, for every size of the queue and of the cache (`Quiet.exists_sequential`); with a cache that
drops entries in between there are others, and all of them have the answers of the map. -/

namespace DiceBot

open CallEvent

namespace Service

/-- The service closed and opened again. -/
def reopened (s : Service) : Service := opened s.room s.store.reopen

/-- Steps made one after another, with their answers; in between the store may be closed and opened
again. -/
inductive Sequential : Service → List StoreStep → List StoreAnswer → Service → Prop where
  | done {s} : Sequential s [] [] s
  | call {s t u c op a ops answers}
    (hrun : Run s [.called c op, .decided c op a, .answered c op a] t)
    (hrest : Sequential t ops answers u) : Sequential s (op :: ops) (a :: answers) u
  | reopen {s u ops answers} (hrest : Sequential s.reopened ops answers u) :
    Sequential s (.reopen :: ops) (.reopened :: answers) u

variable {M : MacroMap} {es : List CallEvent} {s t u : Service} {c : Nat} {op : StoreStep}
  {a : StoreAnswer}

/-! ### One step alone -/

/-- **A step made alone is answered by the map**, and the service comes to rest again. -/
theorem Quiet.run (hq : s.Quiet) (h : Represents s.store M)
    (hrun : Run s [.called c op, .decided c op a, .answered c op a] t) :
    a = (M.perform op).1 ∧ t.Quiet ∧ Represents t.store (M.perform op).2 := by
  have ht := (hq.tracks h).run hrun
  have hclients : ∀ d, t.clients d = .idle := by
    refine fun d => Progress.eq_idle_of_fits (ht.recorded d) fun e he => ?_
    by_cases hd : c = d
    · refine ⟨op, a, ?_⟩
      simpa [lastOf, client, hd, eq_comm] using he
    · simp [lastOf, client, hd] at he
  have hquiet := ht.orderly.quiet (hrun.keeps.1 ▸ hq.room) hclients
  have htable := ht.sound.table
  rw [hquiet.work] at htable
  have hpersistent : t.store.persistent = (M.perform op).2.persistent := by
    rw [hrun.keeps.2, h.persistent, M.persistent_perform]
  exact ⟨(ht.linearized [.called c op] (.decided c op a) [.answered c op a] rfl).2, hquiet, htable,
    ht.sound.reflects, hpersistent⟩

/-- A job that is to be sent to a worker at rest gets into its hands. -/
theorem Run.exists_taken (h : Run s es t) (hc : t.clients c = .sending op) (hroom : 0 < t.room)
    (hqueue : t.queue = []) (hwork : t.work = .idle) :
    ∃ u, Run s es u ∧ u.work = .taken c op ∧ u.store = t.store := by
  have hsend := h.silent (.send hc (by rw [hqueue]; exact hroom))
  exact ⟨_, hsend.silent (.take hwork (by rw [toward, hqueue]; rfl)), rfl, rfl⟩

/-- An answer that is decided is given. -/
theorem Run.exists_answered (h : Run s es t) (hs : Step t [.decided c op a] (u.toDecided c op a)) :
    ∃ v, Run s (es ++ [.decided c op a, .answered c op a]) v ∧ v.store = u.store := by
  have hanswered := (h.next hs).next (.answer (toward_self u c (.decided op a)))
  rw [List.append_assoc] at hanswered
  exact ⟨_, hanswered, rfl⟩

/-- Every step can be made alone, with the answer and the effect that it has on the store. -/
theorem Quiet.exists_run (hq : s.Quiet) (c : Nat) (hop : op ≠ .reopen) :
    ∃ t, Run s [.called c op, .decided c op (s.store.perform op).1,
      .answered c op (s.store.perform op).1] t ∧ t.store = (s.store.perform op).2 := by
  have hcall := Run.start.next (Step.call (hq.clients c) hop)
  have hjob (hstart : Progress.start op = .sending op) :
      ∃ u, Run s [.called c op] u ∧ u.work = .taken c op ∧ u.store = s.store :=
    hcall.exists_taken ((toward_self ..).trans hstart) hq.room hq.queue hq.work
  cases op with
  | find g n =>
    have hlooking : (s.toward c (.looking g n)).clients c = .looking g n := toward_self ..
    cases hm : s.store.cache.find? (g, n) with
    | some m =>
      obtain ⟨v, hrun, hstore⟩ := hcall.exists_answered (.hit hlooking hm)
      have hperform : s.store.perform (.find g n) =
          (.found (some m), { s.store with cache := s.store.cache.touch (g, n) }) := by
        simp only [CachedStore.perform, CachedStore.find, hm]
      rw [hperform]
      exact ⟨v, hrun, hstore⟩
    | none =>
      have hmiss := hcall.silent (.miss hlooking hm)
      obtain ⟨u, hu, hwork, hstore⟩ :=
        hmiss.exists_taken (toward_self ..) hq.room hq.queue hq.work
      have hstore : u.store = s.store := hstore
      obtain ⟨v, hrun, hv⟩ := (hu.silent (.read hwork)).exists_answered (.keep rfl)
      have hperform : s.store.perform (.find g n) =
          (.found ((s.store.table.find? g n).map Row.toMacro),
            { s.store with
              cache := kept s.store.cache (g, n) ((s.store.table.find? g n).map Row.toMacro) }) := by
        simp only [CachedStore.perform, CachedStore.find, hm]
        cases s.store.table.find? g n <;> rfl
      rw [hperform, ← hstore]
      exact ⟨v, hrun, hv⟩
  | create g n x =>
    obtain ⟨u, hu, hwork, hstore⟩ := hjob rfl
    rw [← hstore]
    exact hu.exists_answered (.create hwork)
  | update g n x =>
    obtain ⟨u, hu, hwork, hstore⟩ := hjob rfl
    rw [← hstore]
    exact (hu.silent (.update hwork)).exists_answered (.remove rfl)
  | delete g n =>
    obtain ⟨u, hu, hwork, hstore⟩ := hjob rfl
    rw [← hstore]
    exact (hu.silent (.delete hwork)).exists_answered (.remove rfl)
  | list g =>
    obtain ⟨u, hu, hwork, hstore⟩ := hjob rfl
    rw [← hstore]
    exact hu.exists_answered (u := { u with work := .idle }) (.list hwork)
  | reopen => exact absurd rfl hop

/-! ### All steps -/

/-- The answers of a history are those of the map. -/
theorem Sequential.answers_eq {ops : List StoreStep} {answers : List StoreAnswer}
    (hs : Sequential s ops answers t) (hq : s.Quiet) (h : Represents s.store M) :
    answers = (M.performAll ops).1 ∧ Represents t.store (M.performAll ops).2 := by
  induction hs generalizing M with
  | done => exact ⟨rfl, h⟩
  | call hrun _ ih =>
    obtain ⟨rfl, hquiet, hrep⟩ := hq.run h hrun
    obtain ⟨rfl, hrest⟩ := ih hquiet hrep
    exact ⟨rfl, hrest⟩
  | reopen _ ih =>
    obtain ⟨rfl, hrest⟩ := ih (quiet_opened ..) h.reopen
    exact ⟨rfl, hrest⟩

/-- What a store answers to steps is a history of its service. -/
theorem Quiet.exists_sequential (hq : s.Quiet) (h : Represents s.store M) (ops : List StoreStep) :
    ∃ t, Sequential s ops (s.store.performAll ops).1 t ∧
      t.store = (s.store.performAll ops).2 := by
  induction ops generalizing s M with
  | nil => exact ⟨s, .done, rfl⟩
  | cons op ops ih =>
    by_cases hop : op = .reopen
    · subst hop
      obtain ⟨t, hrest, hstore⟩ := ih (s := s.reopened) (quiet_opened ..) h.reopen
      exact ⟨t, .reopen hrest, hstore⟩
    · obtain ⟨u, hrun, hu⟩ := hq.exists_run 0 hop
      obtain ⟨-, hquiet, hrep⟩ := hq.run h hrun
      obtain ⟨t, hrest, hstore⟩ := ih hquiet hrep
      rw [hu] at hrest hstore
      exact ⟨t, .call hrun hrest, hstore⟩

end Service

/-- In a history of fewer than 2³¹ steps no id needs more than 31 bits. -/
theorem MacroMap.toInt_id_of_performAll {persistent : Bool} {maxId : Option Nat} {ops : List StoreStep}
    (hops : ops.length < 2 ^ 31) {group name : Text} {row : Row}
    (hrow : ((empty persistent maxId).performAll ops).2.find? group name = some row) :
    row.toMacro.id.toInt = row.id := by
  have hid := (counted_empty persistent maxId).performAll ops group name row hrow
  have hcounter := counter_performAll_le (empty persistent maxId) ops
  refine Row.toInt_id_toMacro_of_lt (lt_of_le_of_lt (hid.trans hcounter) ?_)
  rwa [empty, Nat.zero_add]

/-- **A store answers as a plain map.** For every size of the cache and of the queue, and with as many ids
as there are, the answers to steps made one after another are those of the map, whatever the cache drops in
between; the cache then holds macros of rows of the table only. The map answers an id by its low 32 bits,
and in a history of fewer than 2³¹ steps these are the id. -/
theorem performAll_eq_map (cacheSize queueSize : Nat) (persistent : Bool) (maxId : Option Nat)
    (ops : List StoreStep) :
    ((CachedStore.ofSize cacheSize persistent maxId).performAll ops).1 =
        ((MacroMap.empty persistent maxId).performAll ops).1 ∧
      (∃ s, Service.Sequential (.opened queueSize (.ofSize cacheSize persistent maxId)) ops
        ((CachedStore.ofSize cacheSize persistent maxId).performAll ops).1 s ∧
        s.store = ((CachedStore.ofSize cacheSize persistent maxId).performAll ops).2) ∧
      (∀ answers s,
        Service.Sequential (.opened queueSize (.ofSize cacheSize persistent maxId)) ops answers s →
          answers = ((MacroMap.empty persistent maxId).performAll ops).1 ∧
          s.store.cache.Reflects s.store.table.find?) ∧
      (ops.length < 2 ^ 31 → ∀ group name row,
        ((MacroMap.empty persistent maxId).performAll ops).2.find? group name = some row →
          row.toMacro.id.toInt = row.id) := by
  have hq := Service.quiet_opened queueSize (.ofSize cacheSize persistent maxId)
  have hrep := Represents.ofSize cacheSize persistent maxId
  refine ⟨(hrep.performAll ops).1, hq.exists_sequential hrep ops, fun answers s hs => ?_,
    fun hops _ _ _ hrow => MacroMap.toInt_id_of_performAll hops hrow⟩
  obtain ⟨hanswers, hend⟩ := hs.answers_eq hq hrep
  exact ⟨hanswers, hend.coherent⟩

/-- There are two ids. A macro is changed and deleted while it is in the cache; the next one of its name has
a new id and outlives the store, and one more macro is refused. -/
theorem performAll_eq_map_recreated :
    let ops : List StoreStep := [.create ['g'] ['n'] ['1'], .find ['g'] ['n'], .update ['g'] ['n'] ['2'],
      .find ['g'] ['n'], .delete ['g'] ['n'], .find ['g'] ['n'], .create ['g'] ['n'] ['3'], .reopen,
      .find ['g'] ['n'], .create ['g'] ['m'] ['4']]
    ((MacroMap.empty true (some 2)).performAll ops).1 =
        [.changed true, .found (some ⟨1, ['g'], ['n'], ['1']⟩), .changed true,
          .found (some ⟨1, ['g'], ['n'], ['2']⟩), .changed true, .found none, .changed true, .reopened,
          .found (some ⟨2, ['g'], ['n'], ['3']⟩), .failed .database] ∧
      (∃ answers s, Service.Sequential (.opened 1 (.ofSize 1 true (some 2))) ops answers s ∧
        s.store.cache.Reflects s.store.table.find?) ∧
      ∀ group name row, ((MacroMap.empty true (some 2)).performAll ops).2.find? group name = some row →
        row.toMacro.id.toInt = row.id := by
  intro ops
  obtain ⟨hmap, ⟨s, hs, -⟩, hall, hids⟩ := performAll_eq_map 1 1 true (some 2) ops
  exact ⟨hmap.symm.trans (by decide), ⟨_, s, hs, (hall _ s hs).2⟩, hids (by decide)⟩

end DiceBot
