import DiceBot.Proofs.Store.Coherence

/-! # The store as a service

The cached store as its clients meet it. A look-up tries the cache on the client's own account; if the
cache has no entry, and for every other call, a job enters the queue, as soon as there is room in it.
A worker takes the jobs out in their order, one at a time. A look-up takes it two steps: it reads the
row, then it keeps it in the cache. So does a change: it changes the table, then it removes the entry
of the key from the cache. Creating and listing take one step. The cache may drop entries between any
two steps.

A run is recorded by its events: a client called, the answer to its call was decided, the client got
the answer. A look-up is decided where the cache answers it, or where the worker keeps the row; a change
where its key is removed from the cache. -/

namespace DiceBot

/-- How far the call of a client is. -/
inductive Progress where
  | idle
  /-- A look-up that has not tried the cache yet. -/
  | looking (group name : Text)
  /-- A job that is not in the queue yet. -/
  | sending (step : StoreStep)
  /-- A job that is in the queue or with the worker. -/
  | waiting (step : StoreStep)
  /-- The answer is decided and on its way. -/
  | decided (step : StoreStep) (answer : StoreAnswer)

/-- What a client does first. -/
def Progress.start : StoreStep → Progress
  | .find group name => .looking group name
  | step => .sending step

/-- What the worker has in hand. -/
inductive Work where
  | idle
  /-- A job that has not been begun. -/
  | taken (client : Nat) (step : StoreStep)
  /-- A look-up with what was read; it has to be kept in the cache. -/
  | read (client : Nat) (group name : Text) (result : Option Macro)
  /-- A change of the table; the key has to be removed from the cache. -/
  | changed (client : Nat) (step : StoreStep) (group name : Text) (answer : Bool)

/-- The job that the worker has in hand. -/
def Work.job? : Work → Option (Nat × StoreStep)
  | .idle => none
  | .taken client step => some (client, step)
  | .read client group name _ => some (client, .find group name)
  | .changed client step _ _ _ => some (client, step)

/-- A store with its queue, its worker and its clients. -/
structure Service where
  store : CachedStore
  /-- The number of jobs that the queue has room for. -/
  room : Nat
  queue : List (Nat × StoreStep)
  work : Work
  clients : Nat → Progress

/-- What is recorded of a run. -/
inductive CallEvent where
  | called (client : Nat) (step : StoreStep)
  | decided (client : Nat) (step : StoreStep) (answer : StoreAnswer)
  | answered (client : Nat) (step : StoreStep) (answer : StoreAnswer)
deriving DecidableEq

/-- The client that an event is about. -/
def CallEvent.client : CallEvent → Nat
  | .called client _ | .decided client _ _ | .answered client _ _ => client

namespace Service

/-- A store with an empty queue, before its first call. -/
def opened (queueSize : Nat) (store : CachedStore) : Service :=
  ⟨store, max queueSize 1, [], .idle, fun _ => .idle⟩

/-- Nothing is under way. -/
structure Quiet (s : Service) : Prop where
  room : 0 < s.room
  queue : s.queue = []
  work : s.work = .idle
  clients : ∀ c, s.clients c = .idle

theorem quiet_opened (queueSize : Nat) (store : CachedStore) : (opened queueSize store).Quiet :=
  ⟨Nat.lt_of_lt_of_le Nat.one_pos (Nat.le_max_right ..), rfl, rfl, fun _ => rfl⟩

/-- The service when a client got on. -/
def toward (s : Service) (c : Nat) (p : Progress) : Service :=
  { s with clients := Function.update s.clients c p }

theorem toward_self (s : Service) (c : Nat) (p : Progress) : (s.toward c p).clients c = p :=
  Function.update_self ..

theorem toward_of_ne {c d : Nat} (h : d ≠ c) (s : Service) (p : Progress) :
    (s.toward c p).clients d = s.clients d := Function.update_of_ne h ..

/-- The service when the answer to a client is decided. -/
def toDecided (s : Service) (c : Nat) (step : StoreStep) (answer : StoreAnswer) : Service :=
  s.toward c (.decided step answer)

/-- What the worker keeps of a look-up in the cache. -/
def kept (cache : RecencyCache (Text × Text) Macro) (key : Text × Text) :
    Option Macro → RecencyCache (Text × Text) Macro
  | some m => cache.insert key m
  | none => cache

/-- One step of a client, of the worker or of the cache, with the events in it. -/
inductive Step : Service → List CallEvent → Service → Prop where
  | call {s c step} (hc : s.clients c = .idle) (hstep : step ≠ .reopen) :
    Step s [.called c step] (s.toward c (.start step))
  | hit {s c g n m} (hc : s.clients c = .looking g n) (hm : s.store.cache.find? (g, n) = some m) :
    Step s [.decided c (.find g n) (.found (some m))]
      ({ s with store.cache := s.store.cache.touch (g, n) }.toDecided c (.find g n) (.found (some m)))
  | miss {s c g n} (hc : s.clients c = .looking g n) (hm : s.store.cache.find? (g, n) = none) :
    Step s [] (s.toward c (.sending (.find g n)))
  | send {s c step} (hc : s.clients c = .sending step) (hroom : s.queue.length < s.room) :
    Step s [] ({ s with queue := s.queue ++ [(c, step)] }.toward c (.waiting step))
  | take {s c step rest} (hw : s.work = .idle) (hq : s.queue = (c, step) :: rest) :
    Step s [] { s with queue := rest, work := .taken c step }
  | read {s c g n} (hw : s.work = .taken c (.find g n)) :
    Step s [] { s with work := .read c g n ((s.store.table.find? g n).map Row.toMacro) }
  | keep {s c g n result} (hw : s.work = .read c g n result) :
    Step s [.decided c (.find g n) (.found result)]
      ({ s with store.cache := kept s.store.cache (g, n) result, work := .idle }.toDecided
        c (.find g n) (.found result))
  | create {s c g n x} (hw : s.work = .taken c (.create g n x)) :
    Step s [.decided c (.create g n x) (.ofCreate (s.store.create g n x).1)]
      ({ s with store := (s.store.create g n x).2, work := .idle }.toDecided
        c (.create g n x) (.ofCreate (s.store.create g n x).1))
  | list {s c g} (hw : s.work = .taken c (.list g)) :
    Step s [.decided c (.list g) (.listed (s.store.list g))]
      ({ s with work := .idle }.toDecided c (.list g) (.listed (s.store.list g)))
  | update {s c g n x} (hw : s.work = .taken c (.update g n x)) :
    Step s [] { s with
      store.table := (s.store.table.update g n x).2
      work := .changed c (.update g n x) g n (s.store.table.update g n x).1 }
  | delete {s c g n} (hw : s.work = .taken c (.delete g n)) :
    Step s [] { s with
      store.table := (s.store.table.delete g n).2
      work := .changed c (.delete g n) g n (s.store.table.delete g n).1 }
  | remove {s c step g n b} (hw : s.work = .changed c step g n b) :
    Step s [.decided c step (.changed b)]
      ({ s with store.cache := s.store.cache.erase (g, n), work := .idle }.toDecided c step (.changed b))
  | answer {s c step a} (hc : s.clients c = .decided step a) :
    Step s [.answered c step a] (s.toward c .idle)
  | evict {s cache} (hcache : s.store.cache.Evicts cache) : Step s [] { s with store.cache := cache }

/-- There is at most one event in a step. -/
theorem Step.events {s t : Service} {new : List CallEvent} (h : Step s new t) :
    new = [] ∨ ∃ e, new = [e] := by
  cases h <;> simp

/-- Steps leave the room of the queue and the kind of the store as they are. -/
theorem Step.keeps {s t : Service} {new : List CallEvent} (h : Step s new t) :
    t.room = s.room ∧ t.store.persistent = s.store.persistent := by
  cases h <;> exact ⟨rfl, rfl⟩

/-- Steps one after another, with the events in them. -/
inductive Run (s : Service) : List CallEvent → Service → Prop where
  | start : Run s [] s
  | next {es new t u} : Run s es t → Step t new u → Run s (es ++ new) u

variable {s t u : Service} {es : List CallEvent}

theorem Run.keeps (h : Run s es t) : t.room = s.room ∧ t.store.persistent = s.store.persistent := by
  induction h with
  | start => exact ⟨rfl, rfl⟩
  | next _ hs ih => exact ⟨hs.keeps.1.trans ih.1, hs.keeps.2.trans ih.2⟩

/-- A step without an event goes on with a run. -/
theorem Run.silent (h : Run s es t) (hs : Step t [] u) : Run s es u := by
  have hnext := h.next hs
  rwa [List.append_nil] at hnext

end Service

end DiceBot
