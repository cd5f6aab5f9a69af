import DiceBot.Proofs.Store.Service

/-! # Concurrent calls and the plain map

The plain map goes through the decided steps in their order (`mapAfter`). A history is linearized if for
each client a call, the decision and the answer take turns (`InTurn`), and if what is decided is what
the map answers at this moment (`AgreesWith`). The invariant `Tracks` relates a service to the history
so far: the cache reflects the map, the table mirrors it except between the two steps of a change
(`Sound`), jobs are of clients that wait for them (`Orderly`), and the last event of each client fits
its progress (`Recorded`). Every step keeps the invariant. -/

namespace DiceBot

/-! ### Histories of events -/

namespace CallEvent

/-- What an event does to the plain map. -/
def effect (M : MacroMap) : CallEvent → MacroMap
  | .decided _ step _ => (M.perform step).2
  | _ => M

/-- The map after the decided steps. -/
def mapAfter (M : MacroMap) (es : List CallEvent) : MacroMap := es.foldl effect M

/-- The last event of a client. -/
def lastOf (c : Nat) (es : List CallEvent) : Option CallEvent :=
  (es.filter fun e => e.client = c).getLast?

/-- An event comes in turn after the events `es`: for each client a call, the decision, the answer. -/
def InTurn (es : List CallEvent) : CallEvent → Prop
  | .called c step =>
    step ≠ .reopen ∧ ∀ e, lastOf c es = some e → ∃ step a, e = .answered c step a
  | .decided c step _ => lastOf c es = some (.called c step)
  | .answered c step a => lastOf c es = some (.decided c step a)

/-- What is decided is what the map answers. -/
def AgreesWith (M : MacroMap) : CallEvent → Prop
  | .decided _ step a => a = (M.perform step).1
  | _ => True

/-- Every event comes in turn and agrees with the map at its moment. -/
def Linearized (M : MacroMap) (es : List CallEvent) : Prop :=
  ∀ before e after, es = before ++ e :: after →
    e.InTurn before ∧ e.AgreesWith (mapAfter M before)

variable {M : MacroMap} {es : List CallEvent} {e : CallEvent} {c : Nat}

@[simp] theorem mapAfter_nil (M : MacroMap) : mapAfter M [] = M := rfl

@[simp] theorem mapAfter_append (M : MacroMap) (es es' : List CallEvent) :
    mapAfter M (es ++ es') = mapAfter (mapAfter M es) es' := List.foldl_append

@[simp] theorem mapAfter_singleton (M : MacroMap) (e : CallEvent) : mapAfter M [e] = effect M e := rfl

theorem lastOf_append_self (h : e.client = c) : lastOf c (es ++ [e]) = some e := by
  simp [lastOf, h]

theorem lastOf_append_of_ne (h : e.client ≠ c) : lastOf c (es ++ [e]) = lastOf c es := by
  simp [lastOf, h]

theorem lastOf_append (c : Nat) (es es' : List CallEvent) :
    lastOf c (es ++ es') = (lastOf c es').or (lastOf c es) := by
  rw [lastOf, List.filter_append, List.getLast?_append]
  rfl

/-- The last event of a client, with the events of others after it. -/
theorem exists_of_lastOf (h : lastOf c es = some e) :
    ∃ early late, es = early ++ e :: late ∧ ∀ e' ∈ late, e'.client ≠ c := by
  induction es using List.reverseRecOn with
  | nil => cases h
  | append_singleton es e' ih =>
    by_cases hc : e'.client = c
    · rw [lastOf_append_self hc] at h
      cases h
      exact ⟨es, [], rfl, by simp⟩
    · rw [lastOf_append_of_ne hc] at h
      obtain ⟨early, late, rfl, hlate⟩ := ih h
      refine ⟨early, late ++ [e'], by simp, fun d hd => ?_⟩
      rcases List.mem_append.mp hd with hd | hd
      · exact hlate d hd
      · rwa [List.mem_singleton.mp hd]

theorem linearized_nil : Linearized M [] := by
  intro before e after h
  simp at h

theorem Linearized.append (h : Linearized M es) (hturn : e.InTurn es)
    (hagrees : e.AgreesWith (mapAfter M es)) : Linearized M (es ++ [e]) := by
  intro before d after hes
  rcases List.eq_nil_or_concat' after with rfl | ⟨after, last, rfl⟩
  · obtain ⟨rfl, hd⟩ := List.append_inj' hes rfl
    cases hd
    exact ⟨hturn, hagrees⟩
  · rw [← List.cons_append, ← List.append_assoc] at hes
    exact h before d after (List.append_inj' hes rfl).1

end CallEvent

open CallEvent

/-! ### Table and cache against the map -/

/-- How the table stands to the map, given what the worker has in hand. In the middle of a change the
table is ahead of the map by this change, which concerns one key only. -/
def Work.Holds (t : MacroTable) (M : MacroMap) : Work → Prop
  | .idle | .taken _ _ => Mirrors t M
  | .read _ g n result => Mirrors t M ∧ result = (M.find? g n).map Row.toMacro
  | .changed _ step g n b => Mirrors t (M.perform step).2 ∧ (M.perform step).1 = .changed b ∧
    ∀ g' n', (g', n') ≠ (g, n) → (M.perform step).2.find? g' n' = M.find? g' n'

/-- What the progress of a client says about its last event. -/
def Progress.Fits (c : Nat) (last : Option CallEvent) : Progress → Prop
  | .idle => ∀ e, last = some e → ∃ op a, e = .answered c op a
  | .looking g n => last = some (.called c (.find g n))
  | .sending op | .waiting op => last = some (.called c op)
  | .decided op a => last = some (.decided c op a)

/-- A client whose last event, if any, is an answer is idle. -/
theorem Progress.eq_idle_of_fits {p : Progress} {c : Nat} {last : Option CallEvent}
    (h : p.Fits c last) (hlast : ∀ e, last = some e → ∃ op a, e = .answered c op a) : p = .idle := by
  cases p with
  | idle => rfl
  | looking | sending | waiting | decided =>
    obtain ⟨op, a, he⟩ := hlast _ h
    cases he

theorem Progress.start_fits (c : Nat) (op : StoreStep) :
    (start op).Fits c (some (.called c op)) := by
  cases op <;> rfl

namespace Service

variable {M : MacroMap} {es new : List CallEvent} {s t : Service} {c : Nat} {op : StoreStep}
  {p q : Progress}

/-- The cache reflects the map, and the table holds it as far as the worker is. -/
structure Sound (M : MacroMap) (s : Service) : Prop where
  reflects : s.store.cache.Reflects M.find?
  table : s.work.Holds s.store.table M

theorem kept_reflects {cache : RecencyCache (Text × Text) Macro} (h : cache.Reflects M.find?)
    (g n : Text) : (kept cache (g, n) ((M.find? g n).map Row.toMacro)).Reflects M.find? := by
  cases hm : (M.find? g n).map Row.toMacro with
  | some m => exact h.insert hm
  | none => exact h

/-- **Every step keeps table and cache sound**, and what it decides is what the map answers. The map
changes where a macro is created, and for an update or a delete where its key leaves the cache. -/
theorem Sound.step (h : Sound M s) (hs : Step s new t) :
    Sound (mapAfter M new) t ∧ ∀ e ∈ new, e.AgreesWith M := by
  obtain ⟨hreflects, htable⟩ := h
  cases hs with
  | call => exact ⟨⟨hreflects, htable⟩, by simp [AgreesWith]⟩
  | hit hc hm =>
    have hfind := hreflects.find? hm
    exact ⟨⟨hreflects.touch, htable⟩, by simp [AgreesWith, MacroMap.perform, hfind]⟩
  | miss => exact ⟨⟨hreflects, htable⟩, by simp⟩
  | send => exact ⟨⟨hreflects, htable⟩, by simp⟩
  | take hw =>
    rw [hw] at htable
    exact ⟨⟨hreflects, htable⟩, by simp⟩
  | @read c g n hw =>
    rw [hw] at htable
    have hmirrors : Mirrors s.store.table M := htable
    exact ⟨⟨hreflects, hmirrors, congrArg (Option.map Row.toMacro) (hmirrors.find g n)⟩, by simp⟩
  | @keep c g n result hw =>
    rw [hw] at htable
    obtain ⟨hmirrors, rfl⟩ := htable
    exact ⟨⟨kept_reflects hreflects g n, hmirrors⟩, by simp [AgreesWith, MacroMap.perform]⟩
  | @create c g n x hw =>
    rw [hw] at htable
    obtain ⟨hanswer, hmirrors⟩ := Mirrors.create htable g n x
    have hanswer : StoreAnswer.ofCreate (s.store.create g n x).1 = .ofCreate (M.create g n x).1 :=
      congrArg StoreAnswer.ofCreate hanswer
    refine ⟨⟨hreflects.mono fun _ _ _ => MacroMap.find?_create_of_some, hmirrors⟩, ?_⟩
    simpa [AgreesWith, MacroMap.perform] using hanswer
  | @list c g hw =>
    rw [hw] at htable
    have hlist : s.store.list g = (M.list g).map Row.toMacro :=
      congrArg (List.map Row.toMacro) (Mirrors.list htable g)
    exact ⟨⟨hreflects, htable⟩, by simp [AgreesWith, MacroMap.perform, hlist]⟩
  | @update c g n x hw =>
    rw [hw] at htable
    obtain ⟨hanswer, hmirrors⟩ := Mirrors.update htable g n x
    exact ⟨⟨hreflects, hmirrors, congrArg StoreAnswer.changed hanswer.symm,
      fun _ _ => MacroMap.find?_update_of_ne⟩, by simp⟩
  | @delete c g n hw =>
    rw [hw] at htable
    obtain ⟨hanswer, hmirrors⟩ := Mirrors.delete htable g n
    exact ⟨⟨hreflects, hmirrors, congrArg StoreAnswer.changed hanswer.symm,
      fun _ _ => MacroMap.find?_delete_of_ne⟩, by simp⟩
  | remove hw =>
    rw [hw] at htable
    obtain ⟨hmirrors, hanswer, hothers⟩ := htable
    exact ⟨⟨hreflects.erase hothers, hmirrors⟩, by simp [AgreesWith, hanswer]⟩
  | answer => exact ⟨⟨hreflects, htable⟩, by simp [AgreesWith]⟩
  | evict hcache => exact ⟨⟨hreflects.evict hcache, htable⟩, by simp⟩

/-! ### The jobs and their clients -/

/-- The jobs that were sent and are not done: the one in hand, then the queue. -/
def jobs (s : Service) : List (Nat × StoreStep) := s.work.job?.toList ++ s.queue

/-- Jobs are of different clients, which wait for them. -/
structure Orderly (s : Service) : Prop where
  waiting : ∀ j ∈ s.jobs, s.clients j.1 = .waiting j.2
  distinct : (s.jobs.map Prod.fst).Nodup

theorem Orderly.of_eq (h : Orderly s) (hjobs : t.jobs = s.jobs) (hclients : t.clients = s.clients) :
    Orderly t := ⟨by rw [hjobs, hclients]; exact h.waiting, by rw [hjobs]; exact h.distinct⟩

/-- A client that does not wait has no job. -/
theorem Orderly.ne_of_mem (h : Orderly s) (hc : s.clients c = q) (hq : ∀ op, q ≠ .waiting op) :
    ∀ j ∈ s.jobs, j.1 ≠ c := by
  rintro j hj rfl
  exact hq j.2 (hc.symm.trans (h.waiting j hj))

/-- A service whose clients are idle has no jobs. -/
theorem Orderly.quiet (h : Orderly s) (hroom : 0 < s.room) (hclients : ∀ c, s.clients c = .idle) :
    s.Quiet := by
  have hjobs : s.jobs = [] := by
    refine List.eq_nil_iff_forall_not_mem.mpr fun j hj => ?_
    have hwaiting := h.waiting j hj
    rw [hclients] at hwaiting
    cases hwaiting
  obtain ⟨hwork, hqueue⟩ := List.append_eq_nil_iff.mp hjobs
  refine ⟨hroom, hqueue, ?_, hclients⟩
  cases hw : s.work with
  | idle => rfl
  | taken | read | changed => simp [hw, Work.job?] at hwork

/-- A client that does not wait may get on. -/
theorem Orderly.toward (h : Orderly s) (hc : s.clients c = q) (hq : ∀ op, q ≠ .waiting op) :
    Orderly (s.toward c p) := by
  refine ⟨fun j hj => ?_, h.distinct⟩
  exact (toward_of_ne (h.ne_of_mem hc hq j hj) ..).trans (h.waiting j hj)

/-- The client of the job in hand gets on when the job is done. -/
theorem Orderly.finish (h : Orderly s) (hw : s.work.job? = some (c, op)) (store : CachedStore) :
    Orderly ({ s with store := store, work := .idle }.toward c p) := by
  have hjobs : s.jobs = (c, op) :: s.queue := by rw [jobs, hw]; rfl
  have hdistinct := h.distinct
  rw [hjobs, List.map_cons, List.nodup_cons] at hdistinct
  refine ⟨fun j hj => ?_, hdistinct.2⟩
  have hne : j.1 ≠ c := fun hc => hdistinct.1 (hc ▸ List.mem_map.mpr ⟨j, hj, rfl⟩)
  refine (toward_of_ne hne ..).trans (h.waiting j ?_)
  rw [hjobs]
  exact List.mem_cons_of_mem _ hj

theorem Orderly.send (h : Orderly s) (hc : s.clients c = .sending op) :
    Orderly ({ s with queue := s.queue ++ [(c, op)] }.toward c (.waiting op)) := by
  have hne := h.ne_of_mem hc nofun
  have hjobs : ({ s with queue := s.queue ++ [(c, op)] }.toward c (.waiting op)).jobs =
      s.jobs ++ [(c, op)] := (List.append_assoc ..).symm
  refine ⟨fun j hj => ?_, ?_⟩
  · rw [hjobs] at hj
    rcases List.mem_append.mp hj with hj | hj
    · exact (toward_of_ne (hne j hj) ..).trans (h.waiting j hj)
    · rw [List.mem_singleton.mp hj]
      exact toward_self ..
  · rw [hjobs, List.map_append, List.nodup_append]
    refine ⟨h.distinct, List.nodup_singleton c, ?_⟩
    intro a ha b hb
    obtain ⟨j, hj, rfl⟩ := List.mem_map.mp ha
    rw [List.mem_singleton.mp hb]
    exact hne j hj

/-- **Every step keeps the jobs in order.** -/
theorem Orderly.step (h : Orderly s) (hs : Step s new t) : Orderly t := by
  cases hs with
  | call hc => exact h.toward hc nofun
  | hit hc => exact Orderly.toward (h.of_eq rfl rfl) hc nofun
  | miss hc => exact h.toward hc nofun
  | send hc => exact h.send hc
  | take hw hq =>
    refine h.of_eq ?_ rfl
    rw [jobs, jobs, hw, hq]
    rfl
  | read hw | update hw | delete hw =>
    refine h.of_eq ?_ rfl
    rw [jobs, jobs, hw]
    rfl
  | keep hw | create hw | list hw | remove hw => exact h.finish (by rw [hw]; rfl) _
  | answer hc => exact h.toward hc nofun
  | evict => exact h.of_eq rfl rfl

/-! ### The events of a client -/

/-- The last event of each client fits its progress. -/
def Recorded (es : List CallEvent) (s : Service) : Prop := ∀ c, (s.clients c).Fits c (lastOf c es)

/-- A client gets on, and the last events of the others stay the same. -/
theorem Recorded.of_toward {es' : List CallEvent} (h : Recorded es s)
    (hothers : ∀ d, d ≠ c → lastOf d es' = lastOf d es) (hp : p.Fits c (lastOf c es')) :
    Recorded es' (s.toward c p) := by
  intro d
  by_cases hd : d = c
  · subst hd
    rw [toward_self]
    exact hp
  · rw [toward_of_ne hd, hothers d hd]
    exact h d

theorem Recorded.toward (h : Recorded es s) {e : CallEvent} (he : e.client = c)
    (hp : p.Fits c (some e)) : Recorded (es ++ [e]) (s.toward c p) := by
  refine h.of_toward (fun d hd => lastOf_append_of_ne ?_) (by rwa [lastOf_append_self he])
  rw [he]
  exact Ne.symm hd

theorem Recorded.toward_silent (h : Recorded es s) (hp : p.Fits c (lastOf c es)) :
    Recorded es (s.toward c p) :=
  h.of_toward (fun _ _ => rfl) hp

/-- The last event of the client of the job in hand is its call. -/
theorem Recorded.called_of_job (h : Recorded es s) (ho : Orderly s)
    (hw : s.work.job? = some (c, op)) : lastOf c es = some (.called c op) := by
  have hmem : (c, op) ∈ s.jobs := by rw [jobs, hw]; exact List.mem_cons_self ..
  have hfits := h c
  rwa [ho.waiting _ hmem] at hfits

/-- **Every event of a client comes in turn.** -/
theorem Recorded.step (h : Recorded es s) (ho : Orderly s) (hs : Step s new t) :
    Recorded (es ++ new) t ∧ ∀ e ∈ new, e.InTurn es := by
  have hnone {u : Service} (hu : Recorded es u) :
      Recorded (es ++ []) u ∧ ∀ e ∈ ([] : List CallEvent), e.InTurn es :=
    ⟨by rwa [List.append_nil], by simp⟩
  have hsome {e : CallEvent} {u : Service} (hu : Recorded (es ++ [e]) u) (he : e.InTurn es) :
      Recorded (es ++ [e]) u ∧ ∀ e' ∈ [e], e'.InTurn es :=
    ⟨hu, fun e' h' => by rwa [List.mem_singleton.mp h']⟩
  cases hs with
  | @call c op hc hop =>
    have hfits := h c
    rw [hc] at hfits
    exact hsome (h.toward rfl (Progress.start_fits c op)) ⟨hop, hfits⟩
  | @hit c g n m hc =>
    have hfits := h c
    rw [hc] at hfits
    exact hsome (Recorded.toward h rfl rfl) hfits
  | @miss c g n hc =>
    have hfits := h c
    rw [hc] at hfits
    exact hnone (h.toward_silent hfits)
  | @send c op hc =>
    have hfits := h c
    rw [hc] at hfits
    exact hnone (Recorded.toward_silent h hfits)
  | take | read | update | delete | evict => exact hnone h
  | keep hw | create hw | list hw | remove hw =>
    exact hsome (Recorded.toward h rfl rfl) (h.called_of_job ho (by rw [hw]; rfl))
  | @answer c op a hc =>
    have hfits := h c
    rw [hc] at hfits
    exact hsome (h.toward rfl fun e he => ⟨op, a, (Option.some.inj he).symm⟩) hfits

/-! ### Runs -/

/-- What holds after the events `es` of a run that began with the map `M`. -/
structure Tracks (M : MacroMap) (es : List CallEvent) (s : Service) : Prop where
  sound : Sound (mapAfter M es) s
  orderly : Orderly s
  recorded : Recorded es s
  linearized : Linearized M es

theorem Quiet.tracks (hq : s.Quiet) (h : Represents s.store M) : Tracks M [] s where
  sound := ⟨h.reflects, by rw [hq.work]; exact h.mirrors⟩
  orderly := by
    have hjobs : s.jobs = [] := by rw [jobs, hq.work, hq.queue]; rfl
    exact ⟨by simp [hjobs], by simp [hjobs]⟩
  recorded := fun c => by
    rw [hq.clients]
    intro e he
    cases he
  linearized := linearized_nil

theorem Tracks.step (h : Tracks M es s) (hs : Step s new t) : Tracks M (es ++ new) t := by
  obtain ⟨hsound, hagrees⟩ := h.sound.step hs
  obtain ⟨hrecorded, hturn⟩ := h.recorded.step h.orderly hs
  refine ⟨by rwa [mapAfter_append], h.orderly.step hs, hrecorded, ?_⟩
  rcases hs.events with rfl | ⟨e, rfl⟩
  · rw [List.append_nil]
    exact h.linearized
  · have hmem : e ∈ [e] := List.mem_singleton_self e
    exact h.linearized.append (hturn e hmem) (hagrees e hmem)

/-- **A run keeps in step with the plain map.** -/
theorem Tracks.run (h : Tracks M [] s) (hr : Run s es t) : Tracks M es t := by
  induction hr with
  | start => exact h
  | next _ hs ih => exact ih.step hs

end Service

end DiceBot
