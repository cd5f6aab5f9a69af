import DiceBot.Proofs.Bot.Serving
import DiceBot.Proofs.Bot.Stored

/-! # Answers tell what changed

What an answer says about the rows of the table before and after it (`Answer.Effect`): a created macro
is one row more, an updated or deleted one is the only row of its key, and every other answer says that
the rows are as they were. A plan reports if the answer behind each change is the one that tells of it
(`Plan.Reports`); then each of its calls has the effect that is told when it settles the answer, and
none otherwise (`Plan.Reports.call`), and so has a run, whichever of its calls fail
(`Plan.Reports.run_faulty`). The plans of all commands report. -/

namespace DiceBot

/-! ### Rows -/

/-- The row `row` between `before` and `after` is the only one of its key. -/
structure IsOnlyRow (group name : Text) (rows before : List Row) (row : Row) (after : List Row) :
    Prop where
  rows_eq : rows = before ++ row :: after
  key_eq : row.key = (group, name)
  others : ∀ r ∈ before ++ after, r.key ≠ (group, name)

namespace MacroTable

variable {t : MacroTable} {group name expression : Text} {row : Row}

theorem exists_isOnlyRow (hd : t.Distinct) (h : t.find? group name = some row) :
    ∃ before after, IsOnlyRow group name t.rows before row after := by
  have hkey : row.key = (group, name) := key_of_find? h
  obtain ⟨before, after, hrows⟩ := List.append_of_mem (List.mem_of_find?_eq_some h)
  rw [Distinct, hrows, List.pairwise_append, List.pairwise_cons] at hd
  obtain ⟨-, ⟨hafter, -⟩, hbefore⟩ := hd
  refine ⟨before, after, hrows, hkey, fun r hr => ?_⟩
  rw [← hkey]
  rcases List.mem_append.mp hr with hr | hr
  · exact hbefore r hr row (List.mem_cons_self ..)
  · exact (hafter r hr).symm

theorem map_rewriteRow_of_ne {rows : List Row} (expression : Text)
    (h : ∀ r ∈ rows, r.key ≠ (group, name)) :
    rows.map (rewriteRow group name expression) = rows := by
  have hrow : ∀ r ∈ rows, rewriteRow group name expression r = r := fun r hr =>
    if_neg fun hat => h r hr (Row.isAt_iff.mp hat)
  rw [List.map_congr_left hrow, List.map_id'']
  exact fun _ => rfl

theorem filter_isAt_of_ne {rows : List Row} (h : ∀ r ∈ rows, r.key ≠ (group, name)) :
    rows.filter (fun r => !r.isAt group name) = rows := by
  refine List.filter_eq_self.mpr fun r hr => ?_
  rw [Row.isAt_eq_false_iff.mpr (h r hr), Bool.not_false]

/-- An update rewrites the row of its key. -/
theorem rows_update {before after : List Row} (h : IsOnlyRow group name t.rows before row after)
    (expression : Text) :
    (t.update group name expression).2.rows = before ++ { row with expression } :: after := by
  have hbefore := map_rewriteRow_of_ne expression fun r hr =>
    h.others r (List.mem_append_left _ hr)
  have hafter := map_rewriteRow_of_ne expression fun r hr =>
    h.others r (List.mem_append_right _ hr)
  have hm : rewriteRow group name expression row = { row with expression } :=
    if_pos (Row.isAt_iff.mpr h.key_eq)
  show t.rows.map (rewriteRow group name expression) = _
  rw [h.rows_eq, List.map_append, List.map_cons, hbefore, hm, hafter]

/-- A delete removes the row of its key. -/
theorem rows_delete {before after : List Row} (h : IsOnlyRow group name t.rows before row after) :
    (t.delete group name).2.rows = before ++ after := by
  have hbefore := filter_isAt_of_ne fun r hr => h.others r (List.mem_append_left _ hr)
  have hafter := filter_isAt_of_ne fun r hr => h.others r (List.mem_append_right _ hr)
  have hrow : row.isAt group name = true := Row.isAt_iff.mpr h.key_eq
  show t.rows.filter (fun r => !r.isAt group name) = _
  rw [h.rows_eq, List.filter_append, hbefore, List.filter_cons_of_neg (by simp [hrow]), hafter]

/-- Without a row of its key an update or a delete changes nothing. -/
theorem rows_of_find?_eq_none (h : t.find? group name = none) (expression : Text) :
    (t.update group name expression).2.rows = t.rows ∧ (t.delete group name).2.rows = t.rows := by
  have hne : ∀ r ∈ t.rows, r.key ≠ (group, name) := fun r hr => key_ne_of_find?_eq_none h hr
  exact ⟨map_rewriteRow_of_ne expression hne, filter_isAt_of_ne hne⟩

end MacroTable

/-! ### Answers -/

namespace Answer

/-- The answer tells of a change. -/
def isChange : Answer → Bool
  | .created _ _ | .updated _ _ | .deleted _ => true
  | _ => false

/-- What an answer to a group says about the rows before and after it. -/
def Effect (group : Text) (rows rows' : List Row) : Option Answer → Prop
  | some (.created name expression) =>
    (∀ r ∈ rows, r.key ≠ (group, name)) ∧ ∃ id, rows' = rows ++ [⟨id, group, name, expression⟩]
  | some (.updated name expression) =>
    ∃ before row after, IsOnlyRow group name rows before row after ∧
      rows' = before ++ { row with expression } :: after
  | some (.deleted name) =>
    ∃ before row after, IsOnlyRow group name rows before row after ∧ rows' = before ++ after
  | _ => rows' = rows

variable {group : Text} {rows : List Row}

theorem effect_of_not_isChange {a : Answer} (h : a.isChange = false) :
    Effect group rows rows (some a) := by
  cases a with
  | created | updated | deleted => cases h
  | _ => rfl

end Answer

open Answer

/-! ### Plans -/

namespace Plan

/-- The answer behind each change tells of it, and no other answer tells of one. -/
def Reports : Plan → Prop
  | .done r => (answerOf r).isChange = false
  | .find _ next => ∀ a, (next a).Reports
  | .create name expression next =>
    next true = .answer (.created name expression) ∧ (next false).Reports
  | .update name expression next =>
    next true = .answer (.updated name expression) ∧ (next false).Reports
  | .delete name next => next true = .answer (.deleted name) ∧ (next false).Reports
  | .list next => ∀ ms, (next ms).Reports

variable {plan : Plan} {group : Text} {rows : List Row} {s : CachedStore}

/-- The answer of a plan that reports and makes no call any more tells of no change. -/
theorem Reports.isChange_eq_false {a : Answer} (hp : plan.Reports) (ha : plan.settled? = some a) :
    a.isChange = false := by
  cases plan with
  | done r =>
    obtain rfl := Option.some.inj ha
    exact hp
  | find | create | update | delete | list => cases ha

theorem Reports.effect_refl (hp : plan.Reports) (group : Text) (rows : List Row) :
    Effect group rows rows plan.settled? := by
  cases ha : plan.settled? with
  | some a => exact effect_of_not_isChange (hp.isChange_eq_false ha)
  | none => rfl

/-- What is left of a plan tells of the change from `rows` to `rows'`: the answer that is settled has
this effect; without one nothing has changed, and the plan still reports. -/
def Tells (group : Text) (rows rows' : List Row) (plan : Plan) : Prop :=
  Effect group rows rows' plan.settled? ∧ (plan.settled? = none → plan.Reports)

theorem Reports.tells (hp : plan.Reports) (group : Text) {rows rows' : List Row}
    (hrows : rows' = rows) : plan.Tells group rows rows' := by
  subst hrows
  exact ⟨hp.effect_refl group _, fun _ => hp⟩

theorem tells_answer {rows rows' : List Row} {a : Answer} (h : Effect group rows rows' (some a)) :
    (answer a).Tells group rows rows' := by
  refine ⟨h, fun hnone => ?_⟩
  cases hnone

/-- A call that fails tells of no change, and there is none. -/
theorem tells_failed (group : Text) (rows : List Row) (e : ServiceError) :
    (Plan.done (.error e)).Tells group rows rows := by
  refine ⟨rfl, fun hnone => ?_⟩
  cases hnone

/-- **What one call changes is told by the answer that it settles.** -/
theorem Reports.call (hp : plan.Reports) (hd : s.table.Distinct) (group : Text) :
    (plan.call group s).1.Tells group s.table.rows (plan.call group s).2.table.rows := by
  cases plan with
  | done r => exact hp.tells group rfl
  | find name next =>
    exact (hp _).tells group (congrArg MacroTable.rows (s.find_table group name))
  | create name x next =>
    show (resume next (s.table.create group name x).1).Tells group _ (s.table.create group name x).2.rows
    obtain ⟨_, _, hcreate⟩ | ⟨hf, _, hcreate⟩ | ⟨_, _, hcreate⟩ := s.table.create_cases group name x
    · rw [hcreate]
      exact hp.2.tells group rfl
    · rw [hcreate, show resume next (.ok true) = next true from rfl, hp.1]
      have habsent : ∀ r ∈ s.table.rows, r.key ≠ (group, name) := fun r hr =>
        MacroTable.key_ne_of_find?_eq_none hf hr
      exact tells_answer ⟨habsent, s.table.nextId, rfl⟩
    · rw [hcreate]
      exact tells_failed group _ .database
  | update name x next =>
    show (next (s.table.update group name x).1).Tells group _ (s.table.update group name x).2.rows
    rw [MacroTable.update_fst]
    cases hf : s.table.find? group name with
    | some row =>
      obtain ⟨before, after, honly⟩ := MacroTable.exists_isOnlyRow hd hf
      rw [Option.isSome_some, hp.1]
      exact tells_answer ⟨before, row, after, honly, MacroTable.rows_update honly x⟩
    | none => exact hp.2.tells group (MacroTable.rows_of_find?_eq_none hf x).1
  | delete name next =>
    show (next (s.table.delete group name).1).Tells group _ (s.table.delete group name).2.rows
    rw [MacroTable.delete_fst]
    cases hf : s.table.find? group name with
    | some row =>
      obtain ⟨before, after, honly⟩ := MacroTable.exists_isOnlyRow hd hf
      rw [Option.isSome_some, hp.1]
      exact tells_answer ⟨before, row, after, honly, MacroTable.rows_delete honly⟩
    | none => exact hp.2.tells group (MacroTable.rows_of_find?_eq_none hf []).2
  | list next => exact (hp _).tells group rfl

/-- As long as nothing is settled the rows are as they were. -/
theorem Tells.rows_eq {rows' : List Row} (h : plan.Tells group rows rows') (hleft : plan.settled? = none) :
    rows' = rows := by
  have heffect := h.1
  rw [hleft] at heffect
  exact heffect

/-- What is left of a plan after one more call tells of all that has changed. -/
theorem Tells.call (h : plan.Tells group rows s.table.rows) (hd : s.table.Distinct) :
    (plan.call group s).1.Tells group rows (plan.call group s).2.table.rows := by
  cases hsettled : plan.settled? with
  | some a =>
    cases plan with
    | done r => exact h
    | find | create | update | delete | list => cases hsettled
  | none =>
    rw [← h.rows_eq hsettled]
    exact (h.2 hsettled).call hd group

/-- **What a run of a plan changes is told by its answer**, whichever of its calls fail. -/
theorem Reports.run_faulty {M : MacroMap} (hp : plan.Reports) (hs : Represents s M) (group : Text)
    (faults : List (Option ServiceError)) :
    Effect group s.table.rows (plan.run group (⟨s, faults⟩ : FaultyStore CachedStore)).2.store.table.rows
      (some (answerOf (plan.run group (⟨s, faults⟩ : FaultyStore CachedStore)).1)) := by
  let inv (plan : Plan) (s' : CachedStore) : Prop :=
    (∃ M, Represents s' M) ∧ plan.Tells group s.table.rows s'.table.rows
  have hcall (plan : Plan) (s' : CachedStore) (h : inv plan s') :
      inv (plan.call group s').1 (plan.call group s').2 := by
    obtain ⟨⟨M, hM⟩, htells⟩ := h
    exact ⟨⟨_, (hM.call plan group).2⟩, htells.call hM.mirrors.distinct⟩
  have hfail (plan : Plan) (s' : CachedStore) (e : ServiceError) (hleft : plan.settled? = none)
      (h : inv plan s') : inv (.done (.error e)) s' := by
    refine ⟨h.1, ?_⟩
    rw [h.2.rows_eq hleft]
    exact tells_failed group _ e
  exact (run_invariant hcall hfail plan (s := ⟨s, faults⟩) ⟨⟨M, hs⟩, hp.tells group rfl⟩).2.1

end Plan

/-! ### Commands -/

namespace Command

variable {γ : Type} [WordSource γ] {ex : Executor} {g : γ} {template : Text}

theorem reports_rollResult (ex : Executor) (g : γ) (expression : Text) :
    (Plan.done (rollResult ex g expression)).Reports := by
  unfold rollResult
  split <;> rfl

theorem reports_ifAccepted {next : Plan} (h : next.Reports) :
    (ifAccepted ex g template next).Reports := by
  unfold ifAccepted
  split
  · exact h
  · rfl
  · rfl

/-- **Every command reports what it changes.** -/
theorem reports_plan (c : Command) (ex : Executor) (g : γ) : (c.plan ex g).Reports := by
  cases c with
  | help => rfl
  | roll expression => exact reports_rollResult ex g expression
  | make name expression =>
    simp only [plan]
    split
    case isTrue =>
      rintro (_ | m)
      · exact reports_ifAccepted ⟨rfl, rfl⟩
      · rfl
    case isFalse => rfl
  | edit name expression => exact reports_ifAccepted ⟨rfl, rfl⟩
  | rollMacro name inputs =>
    rintro (_ | m)
    · rfl
    · exact reports_rollResult ex g _
  | list => exact fun _ => rfl
  | view name => rintro (_ | m) <;> rfl
  | delete name => exact ⟨rfl, rfl⟩

end Command

theorem Request.reports_plan {γ : Type} [WordSource γ] (r : Request γ) : r.plan.Reports := by
  unfold plan
  split
  · exact r.command.reports_plan r.executor r.generator
  · rfl
  · rfl

/-! ### Bots -/

namespace Bot

variable {γ : Type} [WordSource γ] {b : Bot CachedStore}

/-- **A message changes what its answer tells.** Whatever bot is reached, the rows after a message are
those that its answer says: only a created, updated or deleted macro changes them, in its own row. So it is
also if some of the calls to the store fail. -/
theorem answer_effect (hb : b.Reachable) (g : γ) (group message : Text) :
    Effect group b.store.table.rows (b.answer g group message).2.store.table.rows
        (b.answer g group message).1 ∧
      ∀ faults : List (Option ServiceError),
        Effect group b.store.table.rows
          ((b.withFaults faults).answer g group message).2.store.store.table.rows
          ((b.withFaults faults).answer g group message).1 := by
  obtain ⟨M, hM⟩ := hb.represents
  have hfaulty (faults : List (Option ServiceError)) :
      Effect group b.store.table.rows
        ((b.withFaults faults).answer g group message).2.store.store.table.rows
        ((b.withFaults faults).answer g group message).1 := by
    cases hparse : Command.parse b.commandPrefix message with
    | none =>
      rw [answer_of_parse_eq_none (b := b.withFaults faults) hparse]
      rfl
    | some c =>
      rw [answer_of_parse (b := b.withFaults faults) hparse]
      exact (b.request g group c).reports_plan.run_faulty hM group faults
  refine ⟨?_, hfaulty⟩
  have hfaultless := hfaulty []
  rwa [answer_faultless] at hfaultless

/-- Two groups have a macro of the same name; one of them edits it and leaves that of the other. The other
asks to delete its own, but the store fails: it stays, and the answer is a failure. -/
theorem answer_effect_edited :
    let b : Bot CachedStore :=
      ⟨['!'], ⟨⟨none, none⟩, true⟩, .everyone, CachedStore.ofSize 1 false (some maxRowId)⟩
    let met := (b.session [(.message ['g'] "!make-macro atk 1d20".toList, (⟨[7]⟩ : Script)),
      (.message ['h'] "!make-macro atk 1d8".toList, ⟨[7]⟩),
      (.message ['g'] "!view-macro atk".toList, ⟨[]⟩)]).2
    let edited := met.answer (⟨[]⟩ : Script) ['g'] "!edit-macro atk 6*7".toList
    let failed := (met.withFaults [some .database]).answer (⟨[]⟩ : Script) ['h']
      "!delete-macro atk".toList
    met.store.table.rows =
        [⟨1, ['g'], "atk".toList, "1d20".toList⟩, ⟨2, ['h'], "atk".toList, "1d8".toList⟩] ∧
      edited.2.store.table.rows =
        [⟨1, ['g'], "atk".toList, "6*7".toList⟩, ⟨2, ['h'], "atk".toList, "1d8".toList⟩] ∧
      Effect ['g'] met.store.table.rows edited.2.store.table.rows edited.1 ∧
      failed.1 = some .failure ∧
      Effect ['h'] met.store.table.rows failed.2.store.store.table.rows failed.1 := by
  intro b met edited failed
  have hreached : met.Reachable := Reachable.session (.opened _ _ _ _ _ _) _
  have haccess : met.access.allows ['h'] = .ok true := by
    rw [show met.access = .everyone by decide +kernel]
    rfl
  have hparse : Command.parse met.commandPrefix "!delete-macro atk".toList =
      some (.delete "atk".toList) := by
    decide +kernel
  have hfailed : failed.1 = some .failure := by
    rw [show failed = _ from answer_of_allows (b := met.withFaults [some .database]) hparse haccess _]
    rfl
  exact ⟨by decide +kernel, by decide +kernel, (answer_effect hreached _ _ _).1, hfailed,
    (answer_effect hreached _ _ _).2 _⟩

end Bot

end DiceBot
