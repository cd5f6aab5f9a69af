import DiceBot.Proofs.Store.Linear

/-! # Answers to concurrent calls

Every client gets the answer that the plain map gives at some moment between its call and the answer
(`AnsweredInBetween`). A look-up that is called after an update or a delete of its key was answered
finds nothing older: what it finds was written by this change or by one decided after it, and a deleted
row stays deleted, since the row that is found later has a greater id (`NeverStale`). -/

namespace DiceBot

/-! ### What a step leaves under a key -/

/-- The step gives the key this expression. -/
def StoreStep.Writes (group name expression : Text) (step : StoreStep) : Prop :=
  step = .create group name expression ∨ step = .update group name expression

/-- The step replaces or deletes the macro of the key. -/
def StoreStep.Replaces (group name : Text) : StoreStep → Prop
  | .update g n _ | .delete g n => (g, n) = (group, name)
  | _ => False

namespace MacroMap

variable {M : MacroMap} {g n : Text} {row : Row} {step : StoreStep}

theorem counter_le_perform (hstep : step ≠ .reopen) : M.counter ≤ (M.perform step).2.counter := by
  cases step with
  | create => exact M.counter_le_create ..
  | update => rw [perform, counter_update]
  | find | delete | list => exact le_rfl
  | reopen => exact absurd rfl hstep

/-- What is found after a step was found before it, or the step wrote it; what was not there gets a new
id. -/
theorem find?_of_perform (h : (M.perform step).2.find? g n = some row) :
    M.find? g n = some row ∨
      (M.perform step).1 = .changed true ∧ step.Writes g n row.expression ∧
        ((∃ old, M.find? g n = some old ∧ old.id = row.id) ∨
          M.counter < row.id ∧ row.id ≤ (M.perform step).2.counter) := by
  cases step with
  | find | list => exact Or.inl h
  | create group name x =>
    obtain ⟨-, hadded⟩ | hsame := M.create_added group name x
    · rw [perform, hadded, find?_add] at h
      split_ifs at h with hk
      · cases hk
        cases h
        rw [perform, hadded]
        exact Or.inr ⟨rfl, Or.inl rfl, Or.inr ⟨Nat.lt_succ_self _, le_rfl⟩⟩
      · exact Or.inl h
    · rw [perform, hsame] at h
      exact Or.inl h
  | update group name x =>
    simp only [perform, find?_update] at h
    split_ifs at h with hk
    · cases hk
      obtain ⟨old, hold, rfl⟩ := Option.map_eq_some_iff.mp h
      refine Or.inr ⟨?_, Or.inr rfl, Or.inl ⟨old, hold, rfl⟩⟩
      rw [perform, update_fst, hold]
      rfl
    · exact Or.inl h
  | delete group name =>
    simp only [perform, find?_delete] at h
    split_ifs at h
    exact Or.inl h
  | reopen =>
    simp only [perform, reopen] at h
    split_ifs at h
    · exact Or.inl h
    · cases h

/-- What is found after a step that replaces or deletes the macro of a key was written by it. -/
theorem writes_of_replaces (hstep : step.Replaces g n)
    (h : (M.perform step).2.find? g n = some row) :
    (M.perform step).1 = .changed true ∧ step.Writes g n row.expression := by
  cases step with
  | update group name x =>
    cases hstep
    simp only [perform, find?_update, if_true] at h
    obtain ⟨old, hold, rfl⟩ := Option.map_eq_some_iff.mp h
    refine ⟨?_, Or.inr rfl⟩
    rw [perform, update_fst, hold]
    rfl
  | delete group name =>
    cases hstep
    simp [perform, find?_delete] at h
  | find | create | list | reopen => cases hstep

/-- No id in the map is above the counter. -/
def Counted (M : MacroMap) : Prop := ∀ g n r, M.find? g n = some r → r.id ≤ M.counter

theorem counted_empty (persistent : Bool) (maxId : Option Nat) : (empty persistent maxId).Counted :=
  fun _ _ _ h => by cases h

theorem Counted.perform (h : M.Counted) (step : StoreStep) : (M.perform step).2.Counted := by
  intro g n row hrow
  by_cases hstep : step = .reopen
  · subst hstep
    simp only [MacroMap.perform, reopen] at hrow ⊢
    split_ifs at hrow ⊢
    · exact h g n row hrow
    · cases hrow
  · have hcounter := counter_le_perform (M := M) hstep
    rcases find?_of_perform hrow with hold | ⟨-, -, ⟨old, hold, hid⟩ | ⟨-, hid⟩⟩
    · exact (h g n row hold).trans hcounter
    · exact hid ▸ (h g n old hold).trans hcounter
    · exact hid

theorem Counted.performAll (h : M.Counted) (steps : List StoreStep) :
    (M.performAll steps).2.Counted := by
  induction steps generalizing M with
  | nil => exact h
  | cons step rest ih => exact ih (h.perform step)

/-- A step raises the counter by one at most. -/
theorem counter_perform_le (M : MacroMap) (step : StoreStep) :
    (M.perform step).2.counter ≤ M.counter + 1 := by
  cases step with
  | create group name x =>
    obtain ⟨-, hadded⟩ | hsame := M.create_added group name x
    · rw [perform, hadded]
      exact le_rfl
    · rw [perform, hsame]
      exact Nat.le_succ _
  | update => rw [perform, counter_update]; exact Nat.le_succ _
  | find | delete | list => exact Nat.le_succ _
  | reopen =>
    simp only [perform, reopen]
    split_ifs
    · exact Nat.le_succ _
    · exact Nat.zero_le _

theorem counter_performAll_le (M : MacroMap) (steps : List StoreStep) :
    (M.performAll steps).2.counter ≤ M.counter + steps.length := by
  induction steps generalizing M with
  | nil => exact le_rfl
  | cons step rest ih =>
    have hstep := M.counter_perform_le step
    have hrest := ih (M.perform step).2
    rw [List.length_cons]
    show ((M.perform step).2.performAll rest).2.counter ≤ _
    omega

end MacroMap

/-! ### What a history leaves under a key -/

namespace CallEvent

variable {M : MacroMap} {es early seg : List CallEvent} {c : Nat} {step : StoreStep}
  {a : StoreAnswer} {g n : Text} {row : Row}

/-- One of the decided steps gave the key this expression. -/
def WrittenIn (es : List CallEvent) (group name expression : Text) : Prop :=
  ∃ c step, .decided c step (.changed true) ∈ es ∧ step.Writes group name expression

theorem WrittenIn.mono {es' : List CallEvent} {x : Text} (h : WrittenIn es g n x) (hes : es ⊆ es') :
    WrittenIn es' g n x := by
  obtain ⟨c, step, hmem, hwrites⟩ := h
  exact ⟨c, step, hes hmem, hwrites⟩

theorem Linearized.of_append (h : Linearized M (early ++ seg)) : Linearized M early :=
  fun before e after hes => h before e (after ++ seg) (by rw [hes]; simp)

/-- Nobody closes a store that is in use. -/
theorem Linearized.ne_reopen (h : Linearized M (es ++ [.decided c step a])) : step ≠ .reopen := by
  obtain ⟨early, late, rfl, -⟩ := exists_of_lastOf (h _ _ [] rfl).1
  have hcalled := h early (.called c step) (late ++ [.decided c step a]) (by simp)
  exact hcalled.1.1

theorem counted_mapAfter (hM : M.Counted) (es : List CallEvent) : (mapAfter M es).Counted := by
  induction es using List.reverseRecOn with
  | nil => exact hM
  | append_singleton es e ih =>
    rw [mapAfter_append]
    cases e with
    | decided c step a => exact ih.perform step
    | called | answered => exact ih

theorem Linearized.counter_le (h : Linearized M (early ++ seg)) :
    (mapAfter M early).counter ≤ (mapAfter M (early ++ seg)).counter := by
  induction seg using List.reverseRecOn with
  | nil => rw [List.append_nil]
  | append_singleton seg e ih =>
    rw [← List.append_assoc] at h ⊢
    have hle := ih h.of_append
    rw [mapAfter_append _ (early ++ seg)]
    cases e with
    | decided c step a => exact hle.trans (MacroMap.counter_le_perform h.ne_reopen)
    | called | answered => exact hle

/-- What is found after some events was found before them, or one of them wrote it. -/
theorem Linearized.found_or_written (h : Linearized M (early ++ seg))
    (hrow : (mapAfter M (early ++ seg)).find? g n = some row) :
    (mapAfter M early).find? g n = some row ∨ WrittenIn seg g n row.expression := by
  induction seg using List.reverseRecOn with
  | nil => exact Or.inl (by rwa [List.append_nil] at hrow)
  | append_singleton seg e ih =>
    rw [← List.append_assoc] at h hrow
    rw [mapAfter_append _ (early ++ seg)] at hrow
    have hbefore (hold : (mapAfter M (early ++ seg)).find? g n = some row) :
        (mapAfter M early).find? g n = some row ∨ WrittenIn (seg ++ [e]) g n row.expression :=
      (ih h.of_append hold).imp_right fun hw => hw.mono (List.subset_append_left ..)
    cases e with
    | decided c step a =>
      rcases MacroMap.find?_of_perform hrow with hold | ⟨hanswer, hwrites, -⟩
      · exact hbefore hold
      · have hagrees : a = _ := (h _ _ [] rfl).2
        rw [hanswer] at hagrees
        subst hagrees
        exact Or.inr ⟨c, step, List.mem_append_right _ (List.mem_singleton_self _), hwrites⟩
    | called | answered => exact hbefore hrow

/-- What is found after some events has a new id, unless there was something before them. -/
theorem Linearized.isSome_or_counter_lt (h : Linearized M (early ++ seg))
    (hrow : (mapAfter M (early ++ seg)).find? g n = some row) :
    ((mapAfter M early).find? g n).isSome ∨ (mapAfter M early).counter < row.id := by
  induction seg using List.reverseRecOn generalizing row with
  | nil => exact Or.inl (by rw [← List.append_nil early, hrow]; rfl)
  | append_singleton seg e ih =>
    rw [← List.append_assoc] at h hrow
    rw [mapAfter_append _ (early ++ seg)] at hrow
    cases e with
    | decided c step a =>
      rcases MacroMap.find?_of_perform hrow with hold | ⟨-, -, ⟨old, hold, hid⟩ | ⟨hid, -⟩⟩
      · exact ih h.of_append hold
      · exact hid ▸ ih h.of_append hold
      · exact Or.inr (h.of_append.counter_le.trans_lt hid)
    | called | answered => exact ih h.of_append hrow

/-! ### Answers -/

/-- Every client gets the answer of the plain map at a moment between its call, which is its last event
before this moment, and the answer. -/
def AnsweredInBetween (M : MacroMap) (es : List CallEvent) : Prop :=
  ∀ before c step a after, es = before ++ .answered c step a :: after →
    ∃ early late, before = early ++ .decided c step a :: late ∧ (∀ e ∈ late, e.client ≠ c) ∧
      lastOf c early = some (.called c step) ∧ a = ((mapAfter M early).perform step).1

/-- A look-up called after an update or a delete of its key was answered finds a row that is there at
the moment of its decision, with what was written by this change or later; the row that it finds after
a delete has a greater id than the row that was deleted. -/
def NeverStale (M : MacroMap) (es : List CallEvent) : Prop :=
  ∀ before between within after c d step answer g n m, step.Replaces g n →
    es = before ++ .answered c step answer :: (between ++ .called d (.find g n) ::
      (within ++ .answered d (.find g n) (.found (some m)) :: after)) →
    ∃ early late soon last row, before = early ++ .decided c step answer :: late ∧
      within = soon ++ .decided d (.find g n) (.found (some m)) :: last ∧
      (mapAfter M (early ++ .decided c step answer :: (late ++ .answered c step answer ::
        (between ++ .called d (.find g n) :: soon)))).find? g n = some row ∧
      row.toMacro = m ∧
      WrittenIn (.decided c step answer :: (late ++ .answered c step answer ::
        (between ++ .called d (.find g n) :: soon))) g n row.expression ∧
      (step = .delete g n → ∀ old, (mapAfter M early).find? g n = some old → old.id < row.id)

theorem Linearized.answeredInBetween (h : Linearized M es) : AnsweredInBetween M es := by
  intro before c step a after hes
  obtain ⟨early, late, rfl, hlate⟩ := exists_of_lastOf (h before _ after hes).1
  rw [List.append_assoc, List.cons_append] at hes
  obtain ⟨hturn, hagrees⟩ := h early _ _ hes
  exact ⟨early, late, rfl, hlate, hturn, hagrees⟩

/-- Between a call and an answer to this client lies the decision of the answer. -/
theorem Linearized.decided_in_between {before within after : List CallEvent} {op : StoreStep}
    (h : Linearized M (before ++ .called c op :: (within ++ .answered c step a :: after))) :
    ∃ soon last, within = soon ++ .decided c step a :: last ∧
      a = ((mapAfter M (before ++ .called c op :: soon)).perform step).1 := by
  have hlast : lastOf c ((before ++ [.called c op]) ++ within) = some (.decided c step a) :=
    (h _ (.answered c step a) after (by simp)).1
  rw [lastOf_append, lastOf_append_self (e := .called c op) (c := c) rfl] at hlast
  cases hwithin : lastOf c within with
  | none =>
    rw [hwithin] at hlast
    cases hlast
  | some e =>
    rw [hwithin] at hlast
    cases hlast
    obtain ⟨soon, last, rfl, -⟩ := exists_of_lastOf hwithin
    exact ⟨soon, last, rfl, (h (before ++ .called c op :: soon) (.decided c step a)
      (last ++ .answered c step a :: after) (by simp)).2⟩

/-- What is found after a change of a key was written by this change or since. -/
theorem Linearized.found_since (h : Linearized M (early ++ .decided c step a :: seg))
    (hM : M.Counted) (hstep : step.Replaces g n)
    (hrow : (mapAfter M (early ++ .decided c step a :: seg)).find? g n = some row) :
    WrittenIn (.decided c step a :: seg) g n row.expression ∧
      (step = .delete g n → ∀ old, (mapAfter M early).find? g n = some old → old.id < row.id) := by
  have hagrees : a = ((mapAfter M early).perform step).1 := (h early _ seg rfl).2
  have hmap : mapAfter M (early ++ [.decided c step a]) = ((mapAfter M early).perform step).2 :=
    mapAfter_append ..
  rw [List.append_cons] at h hrow
  constructor
  · rcases h.found_or_written hrow with hfound | hwritten
    · rw [hmap] at hfound
      obtain ⟨hanswer, hwrites⟩ := MacroMap.writes_of_replaces hstep hfound
      rw [hanswer] at hagrees
      exact ⟨c, step, hagrees ▸ List.mem_cons_self .., hwrites⟩
    · exact hwritten.mono (List.subset_cons_self ..)
  · rintro rfl old hold
    have hid := h.isSome_or_counter_lt hrow
    rw [hmap] at hid
    rcases hid with hsome | hid
    · simp [MacroMap.perform, MacroMap.find?_delete] at hsome
    · exact (counted_mapAfter hM early g n old hold).trans_lt hid

theorem Linearized.neverStale (h : Linearized M es) (hM : M.Counted) : NeverStale M es := by
  rintro before between within after c d step answer g n m hstep rfl
  obtain ⟨early, late, rfl, -⟩ := h.answeredInBetween before c step answer _ rfl
  have hlookup : Linearized M (((early ++ .decided c step answer :: late) ++
      .answered c step answer :: between) ++ .called d (.find g n) ::
      (within ++ .answered d (.find g n) (.found (some m)) :: after)) := by simpa using h
  obtain ⟨soon, last, rfl, hfound⟩ := hlookup.decided_in_between
  obtain ⟨row, hrow, hmacro⟩ := Option.map_eq_some_iff.mp (StoreAnswer.found.inj hfound).symm
  have hhistory : Linearized M ((early ++ .decided c step answer :: (late ++
      .answered c step answer :: (between ++ .called d (.find g n) :: soon))) ++
      .decided d (.find g n) (.found (some m)) :: (last ++
      .answered d (.find g n) (.found (some m)) :: after)) := by simpa using h
  have hrow : (mapAfter M (early ++ .decided c step answer :: (late ++ .answered c step answer ::
      (between ++ .called d (.find g n) :: soon)))).find? g n = some row := by simpa using hrow
  exact ⟨early, late, soon, last, row, rfl, rfl, hrow, hmacro,
    hhistory.of_append.found_since hM hstep hrow⟩

end CallEvent

open CallEvent

/-- **Concurrent calls are answered as by a plain map.** In every run of a store, with any history behind
it and however many ids there are, the decisions are those of the map in their order, one for each call;
every client gets the answer of the map at a moment between its call and the answer, and no answer is
stale. -/
theorem run_linearized (cacheSize queueSize : Nat) (persistent : Bool) (maxId : Option Nat)
    (history : List StoreStep) {es : List CallEvent} {s : Service}
    (hrun : Service.Run
      (.opened queueSize ((CachedStore.ofSize cacheSize persistent maxId).performAll history).2) es s) :
    Linearized ((MacroMap.empty persistent maxId).performAll history).2 es ∧
      AnsweredInBetween ((MacroMap.empty persistent maxId).performAll history).2 es ∧
      NeverStale ((MacroMap.empty persistent maxId).performAll history).2 es := by
  have hrep := ((Represents.ofSize cacheSize persistent maxId).performAll history).2
  have hlin := (((Service.quiet_opened queueSize _).tracks hrep).run hrun).linearized
  have hcounted := (MacroMap.counted_empty persistent maxId).performAll history
  exact ⟨hlin, hlin.answeredInBetween, hlin.neverStale hcounted⟩

/-- While an update is half done, a look-up still gets the old row from the cache; the look-up called
after the update was answered gets the new one, although the other is answered last. -/
theorem run_linearized_halfDone : ∃ es s,
    Service.Run (.opened 1 ((CachedStore.ofSize 1 false (some maxRowId)).performAll
      [.create ['g'] ['n'] ['1'], .find ['g'] ['n']]).2) es s ∧
    es = [.called 0 (.update ['g'] ['n'] ['2']), .called 1 (.find ['g'] ['n']),
      .decided 1 (.find ['g'] ['n']) (.found (some ⟨1, ['g'], ['n'], ['1']⟩)),
      .decided 0 (.update ['g'] ['n'] ['2']) (.changed true),
      .answered 0 (.update ['g'] ['n'] ['2']) (.changed true),
      .called 2 (.find ['g'] ['n']),
      .decided 2 (.find ['g'] ['n']) (.found (some ⟨1, ['g'], ['n'], ['2']⟩)),
      .answered 2 (.find ['g'] ['n']) (.found (some ⟨1, ['g'], ['n'], ['2']⟩)),
      .answered 1 (.find ['g'] ['n']) (.found (some ⟨1, ['g'], ['n'], ['1']⟩))] ∧
    NeverStale ((MacroMap.empty false (some maxRowId)).performAll
      [.create ['g'] ['n'] ['1'], .find ['g'] ['n']]).2 es := by
  let look : StoreStep := .find ['g'] ['n']
  let change : StoreStep := .update ['g'] ['n'] ['2']
  have hrun := (Service.Run.start (s := .opened 1 ((CachedStore.ofSize 1 false (some maxRowId)).performAll
      [.create ['g'] ['n'] ['1'], .find ['g'] ['n']]).2))
    |>.next (@Service.Step.call _ 0 change rfl (by decide))
    |>.next (@Service.Step.send _ 0 change rfl (by decide))
    |>.next (@Service.Step.take _ 0 change [] rfl rfl)
    |>.next (@Service.Step.update _ 0 ['g'] ['n'] ['2'] rfl)
    |>.next (@Service.Step.call _ 1 look rfl (by decide))
    |>.next (@Service.Step.hit _ 1 ['g'] ['n'] ⟨1, ['g'], ['n'], ['1']⟩ rfl rfl)
    |>.next (@Service.Step.remove _ 0 change ['g'] ['n'] true rfl)
    |>.next (@Service.Step.answer _ 0 change (.changed true) rfl)
    |>.next (@Service.Step.call _ 2 look rfl (by decide))
    |>.next (@Service.Step.miss _ 2 ['g'] ['n'] rfl rfl)
    |>.next (@Service.Step.send _ 2 look rfl (by decide))
    |>.next (@Service.Step.take _ 2 look [] rfl rfl)
    |>.next (@Service.Step.read _ 2 ['g'] ['n'] rfl)
    |>.next (@Service.Step.keep _ 2 ['g'] ['n'] (some ⟨1, ['g'], ['n'], ['2']⟩) rfl)
    |>.next (@Service.Step.answer _ 2 look (.found (some ⟨1, ['g'], ['n'], ['2']⟩)) rfl)
    |>.next (@Service.Step.answer _ 1 look (.found (some ⟨1, ['g'], ['n'], ['1']⟩)) rfl)
  exact ⟨_, _, hrun, rfl, (run_linearized 1 1 false (some maxRowId) _ hrun).2.2⟩

end DiceBot
