import DiceBot.Proofs.Bot.Lives

/-! # Makers of one macro

A maker of a key is a make command that only a taken name can turn down, or the want of an id
(`Request.Makes`). It looks for the macro before it creates it, and between the two calls other requests
may take their turns. Of the makers in flight while the key has no row and no request is about to delete
it, the first to create the macro wins, and all others find the name taken, whether they look or create
after it; if the ids are used up before, there is no winner (`InFlight.Race`). -/

namespace DiceBot

/-! ### What requests can answer -/

namespace Plan

/-- Every answer that the plan can come to is in `P`. -/
def Answers (P : Answer → Prop) : Plan → Prop
  | .done r => P (answerOf r)
  | .find _ next => ∀ a, (next a).Answers P
  | .create _ _ next => ∀ a, (next a).Answers P
  | .update _ _ next => ∀ a, (next a).Answers P
  | .delete _ next => ∀ a, (next a).Answers P
  | .list next => ∀ ms, (next ms).Answers P

/-- What is left of the plan of a maker: to look for the macro and to create it, or only the latter. -/
inductive Making (name expression : Text) : Plan → Prop where
  | creating {next : Bool → Plan} (hcreated : next true = .answer (.created name expression))
      (htaken : next false = .answer (.nameTaken name)) :
      Making name expression (.create name expression next)
  | looking {next : Option Macro → Plan} (htaken : ∀ m, next (some m) = .answer (.nameTaken name))
      (hfree : Making name expression (next none)) : Making name expression (.find name next)

variable {plan : Plan} {P : Answer → Prop} {group name expression : Text} {s : CachedStore}
  {M : MacroMap} {a : Answer}

theorem Answers.call (h : plan.Answers P) (hfailure : P .failure) (group : Text) (s : CachedStore) :
    (plan.call group s).1.Answers P := by
  cases plan with
  | done r => exact h
  | create => exact resume_rec (fun _ => hfailure) h _
  | find | update | delete | list => exact h _

theorem Answers.of_settled (h : plan.Answers P) (ha : plan.settled? = some a) : P a := by
  cases plan with
  | done r => exact Option.some.inj ha ▸ h
  | find | create | update | delete | list => cases ha

/-- If the key has no row, a maker goes on, or it creates the macro, or there is no id for it. -/
theorem Making.call_of_free (h : plan.Making name expression) (hs : Represents s M)
    (hfree : hasKey (group, name) s.table.rows = false) :
    (plan.call group s).1.Making name expression ∨
      (s.table.hasId = true ∧ (plan.call group s).1.settled? = some (.created name expression)) ∨
      (s.table.hasId = false ∧ (plan.call group s).1.settled? = some .failure) := by
  have hnone : s.table.find? group name = none := by
    rw [← Option.isNone_iff_eq_none, ← Option.not_isSome, MacroTable.isSome_find?, hfree]
    rfl
  cases h with
  | @creating next hcreated htaken =>
    right
    show (_ ∧ (resume next (s.table.create group name expression).1).settled? = _) ∨
      (_ ∧ (resume next (s.table.create group name expression).1).settled? = _)
    cases hid : s.table.hasId with
    | true =>
      rw [MacroTable.create_of_hasId hnone hid, resume, hcreated]
      exact Or.inl ⟨rfl, rfl⟩
    | false =>
      rw [MacroTable.create_of_not_hasId hnone hid]
      exact Or.inr ⟨rfl, rfl⟩
  | @looking next htaken hfree =>
    left
    show (next (s.find group name).1).Making name expression
    rw [(hs.find group name).1, ← hs.mirrors.find, hnone]
    exact hfree

/-- If the key has a row, a maker finds the name taken. -/
theorem Making.call_of_taken (h : plan.Making name expression) (hs : Represents s M)
    (htaken : hasKey (group, name) s.table.rows = true) :
    (plan.call group s).1.settled? = some (.nameTaken name) := by
  obtain ⟨m, hm⟩ : ∃ m, s.table.find? group name = some m := by
    rw [← Option.isSome_iff_exists, MacroTable.isSome_find?, htaken]
  cases h with
  | @creating next hcreated htaken =>
    show (resume next (s.table.create group name expression).1).settled? = _
    rw [MacroTable.create_of_some hm, resume, htaken]
    rfl
  | @looking next htaken hfree =>
    show (next (s.find group name).1).settled? = _
    rw [(hs.find group name).1, ← hs.mirrors.find, hm, Option.map_some, htaken]
    rfl

theorem Making.settled?_eq_none (h : plan.Making name expression) : plan.settled? = none := by
  cases h <;> rfl

end Plan

namespace Request

variable {γ : Type} [WordSource γ] {r : Request γ} {key : Text × Text} {expression : Text} {a : Answer}

/-- The request is to make a macro of this key, and nothing but the store can turn it down: its group may
use the bot, the name is valid, and the template is accepted. -/
structure Makes (r : Request γ) (key : Text × Text) (expression : Text) : Prop where
  group_eq : r.group = key.1
  command_eq : r.command = .make key.2 expression
  allowed : r.access = .ok true
  fits : nameFits key.2
  accepted : Command.refusal? r.executor r.generator expression = .ok none

/-- The request is to delete the macro of this key. -/
structure Deletes (r : Request γ) (key : Text × Text) : Prop where
  group_eq : r.group = key.1
  command_eq : r.command = .delete key.2

/-- An answer that a request can get: it tells of a created macro only if the request makes it, and of
a deleted one only if the request deletes it. -/
structure CanGet (r : Request γ) (a : Answer) : Prop where
  makes : ∀ name expression, a = .created name expression → r.Makes (r.group, name) expression
  deletes : ∀ name, a = .deleted name → r.Deletes (r.group, name)

theorem canGet_of_not_isChange (r : Request γ) (h : a.isChange = false) : r.CanGet a := by
  constructor
  · rintro name expression rfl
    cases h
  · rintro name rfl
    cases h

theorem canGet_rollResult (r : Request γ) (expression : Text) :
    (Plan.done (Command.rollResult r.executor r.generator expression)).Answers r.CanGet :=
  r.canGet_of_not_isChange (Command.reports_rollResult r.executor r.generator expression)

theorem canGet_ifAccepted {template : Text} {next : Plan}
    (h : Command.refusal? r.executor r.generator template = .ok none → next.Answers r.CanGet) :
    (Command.ifAccepted r.executor r.generator template next).Answers r.CanGet := by
  unfold Command.ifAccepted
  split
  case h_1 haccepted => exact h haccepted
  case h_2 => exact r.canGet_of_not_isChange rfl
  case h_3 => exact r.canGet_of_not_isChange rfl

/-- **Only a maker of a macro creates it, and only a delete command deletes it.** -/
theorem canGet_plan (r : Request γ) : r.plan.Answers r.CanGet := by
  have hplain {a : Answer} (ha : a.isChange = false) : (Plan.answer a).Answers r.CanGet :=
    r.canGet_of_not_isChange ha
  unfold plan
  split
  case h_1 hallowed =>
    cases hcommand : r.command with
    | help => exact hplain rfl
    | roll expression => exact r.canGet_rollResult expression
    | make name expression =>
      simp only [Command.plan]
      split
      case isTrue hfits =>
        rintro (_ | m)
        · refine canGet_ifAccepted fun haccepted created => ?_
          cases created with
          | false => exact hplain rfl
          | true =>
            show r.CanGet (.created name expression)
            constructor
            · rintro _ _ ⟨⟩
              exact ⟨rfl, hcommand, hallowed, hfits, haccepted⟩
            · intro _ h
              cases h
        · exact hplain rfl
      case isFalse => exact hplain rfl
    | edit name expression =>
      refine canGet_ifAccepted fun _ updated => ?_
      cases updated with
      | false => exact hplain rfl
      | true =>
        show r.CanGet (.updated name expression)
        constructor
        · intro _ _ h
          cases h
        · intro _ h
          cases h
    | rollMacro name inputs =>
      rintro (_ | m)
      · exact hplain rfl
      · exact r.canGet_rollResult _
    | list => exact fun _ => hplain rfl
    | view name => rintro (_ | m) <;> exact hplain rfl
    | delete name =>
      rintro (_ | _)
      · exact hplain rfl
      · show r.CanGet (.deleted name)
        constructor
        · intro _ _ h
          cases h
        · rintro _ ⟨⟩
          exact ⟨rfl, hcommand⟩
  case h_2 => exact hplain rfl
  case h_3 => exact hplain rfl

/-- The plan of a maker. -/
theorem Makes.making (h : r.Makes key expression) : r.plan.Making key.2 expression := by
  unfold plan
  rw [h.allowed, h.command_eq]
  simp only [Command.plan, if_pos h.fits, Command.ifAccepted, h.accepted]
  exact .looking (fun m => rfl) (.creating rfl rfl)

end Request

/-! ### The race for a key -/

namespace InFlight

variable {ι γ : Type} [WordSource γ] {requests : ι → Request γ} {s met : InFlight ι} {i : ι}
  {key : Text × Text} {winner : Option ι} {expression : Text}

/-- The requests are those in flight: each gets only answers that it can get, and what is left of a
maker is to make its macro. -/
structure Serves (requests : ι → Request γ) (s : InFlight ι) : Prop where
  sound : s.Sound
  group_eq : ∀ i, s.group i = (requests i).group
  canGet : ∀ i, (s.plan i).Answers (requests i).CanGet
  making : ∀ i key expression, (requests i).Makes key expression → s.answer? i = none →
    (s.plan i).Making key.2 expression

theorem serves_start {store : CachedStore} {M : MacroMap} (h : Represents store M)
    (requests : ι → Request γ) : (start store requests).Serves requests :=
  ⟨sound_start h requests, fun _ => rfl, fun i => (requests i).canGet_plan,
    fun _ _ _ hmakes _ => hmakes.making⟩

variable [DecidableEq ι]

theorem Serves.turn (h : s.Serves requests) (i : ι) : (s.turn i).Serves requests := by
  refine ⟨h.sound.turn i, h.group_eq, fun j => ?_, fun j key expression hmakes hnone => ?_⟩
  · by_cases hj : j = i
    · subst hj
      rw [turn_plan_self]
      exact (h.canGet j).call ((requests j).canGet_of_not_isChange rfl) _ _
    · rw [turn_plan_of_ne hj]
      exact h.canGet j
  · have hmaking := h.making j key expression hmakes (answer?_eq_none_of_turn hnone)
    by_cases hj : j = i
    · subst hj
      obtain ⟨M, hM⟩ := h.sound.represents
      rw [answer?, turn_plan_self] at hnone
      rw [turn_plan_self]
      cases hhas : hasKey (s.group j, key.2) s.store.table.rows with
      | true => rw [hmaking.call_of_taken hM hhas] at hnone; cases hnone
      | false =>
        rcases hmaking.call_of_free hM hhas with hmaking | ⟨-, hsettled⟩ | ⟨-, hsettled⟩
        · exact hmaking
        · rw [hsettled] at hnone; cases hnone
        · rw [hsettled] at hnone; cases hnone
    · rw [turn_plan_of_ne hj]
      exact hmaking

theorem Serves.after (h : s.Serves requests) (schedule : List ι) :
    (s.after schedule).Serves requests := by
  induction schedule generalizing s with
  | nil => exact h
  | cons i rest ih => exact ih (h.turn i)

/-- The turn of a request that neither makes nor deletes a macro of the key leaves its row there or
not. -/
theorem Serves.has_turn (h : s.Serves requests) (hmakes : ∀ x, ¬ (requests i).Makes key x)
    (hdeletes : ¬ (requests i).Deletes key) : (s.turn i).has key = s.has key := by
  have hcan {a : Answer} (ha : s.gets? i = some a) : (requests i).CanGet a :=
    ((h.turn i).canGet i).of_settled (gets?_eq_some_iff.mp ha).2
  refine (h.sound.transition_turn key i).has_eq (fun hcreated => ?_) (fun hdeleted => ?_)
  · obtain ⟨a, ha, hchange⟩ := Option.bind_eq_some_iff.mp hcreated
    obtain ⟨hgroup, x, rfl⟩ := Answer.change?_eq_created_iff.mp hchange
    have hmaker := (hcan ha).makes key.2 x rfl
    rw [← h.group_eq, hgroup] at hmaker
    exact hmakes x hmaker
  · obtain ⟨a, ha, hchange⟩ := Option.bind_eq_some_iff.mp hdeleted
    obtain ⟨hgroup, rfl⟩ := Answer.change?_eq_deleted_iff.mp hchange
    have hdelete := (hcan ha).deletes key.2 rfl
    rw [← h.group_eq, hgroup] at hdelete
    exact hdeletes hdelete

/-- A maker that takes its turn while the key has a row finds the name taken. -/
theorem Serves.turn_of_taken (h : s.Serves requests) (hmakes : (requests i).Makes key expression)
    (hnone : s.answer? i = none) (htaken : s.has key = true) :
    (s.turn i).answer? i = some (.nameTaken key.2) ∧ (s.turn i).has key = true := by
  obtain ⟨M, hM⟩ := h.sound.represents
  have hgroup : s.group i = key.1 := (h.group_eq i).trans hmakes.group_eq
  have hanswer : (s.turn i).answer? i = some (.nameTaken key.2) := by
    rw [answer?, turn_plan_self, hgroup]
    exact (h.making i key expression hmakes hnone).call_of_taken hM htaken
  have htransition := h.sound.transition_turn key i
  rw [gets?_of_none hnone, hanswer, htaken] at htransition
  exact ⟨hanswer, Transition.has_of_none htransition⟩

/-- A maker that takes its turn while the key has no row goes on, or it creates the macro, or there is no id
for it. -/
theorem Serves.turn_of_free (h : s.Serves requests) (hmakes : (requests i).Makes key expression)
    (hnone : s.answer? i = none) (hfree : s.has key = false) :
    ((s.turn i).answer? i = none ∧ (s.turn i).has key = false) ∨
      (s.store.table.hasId = true ∧ (s.turn i).answer? i = some (.created key.2 expression) ∧
        (s.turn i).has key = true) ∨
      (s.store.table.hasId = false ∧ (s.turn i).answer? i = some .failure ∧
        (s.turn i).has key = false) := by
  obtain ⟨M, hM⟩ := h.sound.represents
  have hgroup : s.group i = key.1 := (h.group_eq i).trans hmakes.group_eq
  have hrows : hasKey (key.1, key.2) s.store.table.rows = false := hfree
  have hcall := (h.making i key expression hmakes hnone).call_of_free hM hrows
  have htransition := h.sound.transition_turn key i
  rw [gets?_of_none hnone, hfree] at htransition
  rw [← hgroup, ← turn_plan_self (s := s)] at hcall
  rcases hcall with hmaking | ⟨hid, hcreated⟩ | ⟨hid, hfailed⟩
  · have hanswer : (s.turn i).answer? i = none := hmaking.settled?_eq_none
    rw [hanswer] at htransition
    exact Or.inl ⟨hanswer, htransition.has_of_none⟩
  · have hanswer : (s.turn i).answer? i = some (.created key.2 expression) := hcreated
    have hchange : Answer.change? key (s.group i) (.created key.2 expression) = some .created :=
      Answer.change?_eq_created_iff.mpr ⟨hgroup, expression, rfl⟩
    rw [hanswer, Option.bind_some, hchange] at htransition
    exact Or.inr (Or.inl ⟨hid, hanswer, htransition.has_of_created⟩)
  · have hanswer : (s.turn i).answer? i = some .failure := hfailed
    rw [hanswer] at htransition
    exact Or.inr (Or.inr ⟨hid, hanswer, Transition.has_of_none htransition⟩)

/-- The request is a maker of the key that is in flight. -/
structure Racing (met : InFlight ι) (requests : ι → Request γ) (key : Text × Text) (i : ι)
    (expression : Text) : Prop where
  inFlight : met.answer? i = none
  makes : (requests i).Makes key expression

/-- A maker of the key has lost: the winner has taken the name, or there is no winner since the ids are used
up. -/
def Lost (s : InFlight ι) (key : Text × Text) (winner : Option ι) (j : ι) : Prop :=
  (winner.isSome ∧ s.answer? j = some (.nameTaken key.2)) ∨
    (winner = none ∧ s.store.table.hasId = false ∧ s.answer? j = some .failure)

/-- How far the race of the makers in flight at `met` is: a winner has created the macro, and the others
are in flight or have lost. -/
structure Race (met : InFlight ι) (requests : ι → Request γ) (key : Text × Text) (winner : Option ι)
    (s : InFlight ι) : Prop where
  has_eq : s.has key = winner.isSome
  won : ∀ k, winner = some k →
    ∃ x, Racing met requests key k x ∧ s.answer? k = some (.created key.2 x)
  others : ∀ j x, Racing met requests key j x → winner ≠ some j →
    s.answer? j = none ∨ s.Lost key winner j

/-- Who has lost stays so. -/
theorem Lost.turn {j : ι} (h : s.Lost key winner j) (i : ι) : (s.turn i).Lost key winner j := by
  rcases h with ⟨hwinner, htaken⟩ | ⟨hwinner, hid, hfailed⟩
  · exact Or.inl ⟨hwinner, answer?_turn htaken i⟩
  · exact Or.inr ⟨hwinner, (s.turn_ahead i).hasId_eq_false hid, answer?_turn hfailed i⟩

/-- A turn that leaves the row there or not, and in which a maker at most loses. -/
theorem Race.keep (h : Race met requests key winner s) (hhas : (s.turn i).has key = s.has key)
    (hi : ∀ x, Racing met requests key i x → winner ≠ some i →
      (s.turn i).answer? i = none ∨ (s.turn i).Lost key winner i) :
    Race met requests key winner (s.turn i) := by
  refine ⟨hhas.trans h.has_eq, fun k hk => ?_, fun j x hj hne => ?_⟩
  · obtain ⟨x, hracing, hcreated⟩ := h.won k hk
    exact ⟨x, hracing, answer?_turn hcreated i⟩
  · by_cases hji : j = i
    · subst hji
      exact hi x hj hne
    · rw [answer?_turn_of_ne hji]
      exact (h.others j x hj hne).imp_right fun hlost => hlost.turn i

/-- **One turn of the race.** -/
theorem Race.turn (h : Race met requests key winner s) (hs : s.Serves requests)
    (hmet : ∀ j, s.answer? j = none → met.answer? j = none)
    (hi : met.answer? i = none → ¬ (requests i).Deletes key) :
    ∃ winner', Race met requests key winner' (s.turn i) := by
  cases hanswer : s.answer? i with
  | some a =>
    rw [turn_of_answer? hanswer]
    exact ⟨winner, h⟩
  | none =>
    by_cases hmakes : ∃ x, (requests i).Makes key x
    · obtain ⟨x, hx⟩ := hmakes
      cases winner with
      | some k =>
        obtain ⟨htaken, hhas⟩ := hs.turn_of_taken hx hanswer h.has_eq
        exact ⟨some k, h.keep (hhas.trans h.has_eq.symm) fun _ _ _ =>
          Or.inr (Or.inl ⟨rfl, htaken⟩)⟩
      | none =>
        rcases hs.turn_of_free hx hanswer h.has_eq with
          ⟨hnone, hhas⟩ | ⟨hid, hcreated, hhas⟩ | ⟨hid, hfailed, hhas⟩
        · exact ⟨none, h.keep (hhas.trans h.has_eq.symm) fun _ _ _ => Or.inl hnone⟩
        · -- the request creates the macro, and the other makers are still in flight: there was an id
          refine ⟨some i, hhas, fun k hk => ?_, fun j z hj hne => ?_⟩
          · obtain rfl := Option.some.inj hk
            exact ⟨x, ⟨hmet i hanswer, hx⟩, hcreated⟩
          · rw [answer?_turn_of_ne fun hji => hne (congrArg some hji.symm)]
            rcases h.others j z hj (Option.some_ne_none j).symm with hnone | ⟨hsome, -⟩ | ⟨-, hused, -⟩
            · exact Or.inl hnone
            · cases hsome
            · rw [hid] at hused
              cases hused
        · exact ⟨none, h.keep (hhas.trans h.has_eq.symm) fun _ _ _ =>
            Or.inr (Or.inr ⟨rfl, (s.turn_ahead i).hasId_eq_false hid, hfailed⟩)⟩
    · have hhas := hs.has_turn (not_exists.mp hmakes) (hi (hmet i hanswer))
      exact ⟨winner, h.keep hhas fun x hracing => absurd ⟨x, hracing.makes⟩ hmakes⟩

/-- **The race goes on in every turn**, as long as no request in flight deletes the macro. -/
theorem Race.after {before : List ι} (h : Race met requests key winner (met.after before))
    (hs : met.Serves requests) {rest : List ι}
    (hrest : ∀ i ∈ rest, met.answer? i = none → ¬ (requests i).Deletes key) :
    ∃ winner', Race met requests key winner' ((met.after before).after rest) := by
  induction rest generalizing before winner with
  | nil => exact ⟨winner, h⟩
  | cons i rest ih =>
    obtain ⟨winner', hrace⟩ := h.turn (i := i) (hs.after before)
      (fun j hj => answer?_eq_none_of_after hj) (hrest i (List.mem_cons_self ..))
    have hnext : (met.after before).turn i = met.after (before ++ [i]) := by
      rw [after_append, after_cons, after_nil]
    rw [after_cons, hnext]
    rw [hnext] at hrace
    exact ih hrace fun j hj => hrest j (List.mem_cons_of_mem _ hj)

/-- **One maker wins**, unless the ids are used up and none does. -/
theorem exists_winner (hs : met.Serves requests) (hfree : met.has key = false) {rest : List ι}
    (hrest : ∀ i ∈ rest, met.answer? i = none → ¬ (requests i).Deletes key)
    (hracing : Racing met requests key i expression)
    (hanswer : (met.after rest).answer? i ≠ none) :
    (∃ k x, Racing met requests key k x ∧
      (met.after rest).answer? k = some (.created key.2 x) ∧
      ∀ j y, Racing met requests key j y → j ≠ k →
        (met.after rest).answer? j = none ∨ (met.after rest).answer? j = some (.nameTaken key.2)) ∨
    ((met.after rest).store.table.hasId = false ∧
      ∀ j y, Racing met requests key j y →
        (met.after rest).answer? j = none ∨ (met.after rest).answer? j = some .failure) := by
  have hstart : Race met requests key none (met.after []) :=
    ⟨hfree, fun k hk => absurd hk.symm (Option.some_ne_none k), fun j x hj _ => Or.inl hj.inFlight⟩
  obtain ⟨winner, hrace⟩ := hstart.after hs hrest
  rw [after_nil] at hrace
  cases winner with
  | none =>
    right
    have hothers (j : ι) (y : Text) (hj : Racing met requests key j y) :
        (met.after rest).answer? j = none ∨
          (met.after rest).store.table.hasId = false ∧ (met.after rest).answer? j = some .failure := by
      rcases hrace.others j y hj (Option.some_ne_none j).symm with hnone | ⟨hsome, -⟩ | ⟨-, hfailed⟩
      · exact Or.inl hnone
      · cases hsome
      · exact Or.inr hfailed
    obtain ⟨hid, -⟩ := (hothers i expression hracing).resolve_left hanswer
    exact ⟨hid, fun j y hj => (hothers j y hj).imp_right And.right⟩
  | some k =>
    left
    obtain ⟨x, hk, hcreated⟩ := hrace.won k rfl
    refine ⟨k, x, hk, hcreated, fun j y hj hne => ?_⟩
    rcases hrace.others j y hj (fun h => hne (Option.some.inj h).symm) with
      hnone | ⟨-, htaken⟩ | ⟨hnone, -⟩
    · exact Or.inl hnone
    · exact Or.inr htaken
    · cases hnone

theorem has_iff_changes (hs : s.Sound) (hfree : s.has key = false) (schedule : List ι) :
    (s.after schedule).has key = true ↔
      .created ∈ s.changes key schedule ∧ (s.changes key schedule).getLast? ≠ some .deleted := by
  have hnil : Leads [] (s.has key) := hfree ▸ .nil
  exact (hs.leads hnil schedule).has_iff

/-- The history of a schedule has all answers that tell of a change. -/
theorem mem_history_of_isChange (store : CachedStore) (requests : ι → Request γ) {a : Answer}
    (ha : a.isChange) (i : ι) (schedule : List ι) :
    (i, a) ∈ (start store requests).history schedule ↔
      ((start store requests).after schedule).answer? i = some a := by
  rw [mem_history_iff, and_iff_right_iff_imp]
  intro hafter
  cases hstart : (start store requests).answer? i with
  | none => rfl
  | some b =>
    -- an answer without a call tells of no change
    have hb := answer?_after hstart schedule
    rw [hafter] at hb
    obtain rfl := Option.some.inj hb
    rw [(requests i).reports_plan.isChange_eq_false hstart] at ha
    cases ha

/-- **Answers tell the lives of macros.** Whatever requests are in flight at a store that was empty, and
in whatever order they take their turns: two turns are enough for an answer; the history has the
answers that tell of changes, none of them twice; for every key they tell a life, of which each part
of the schedule tells the beginning, and there is a row if one was created and the last change was
none that deleted it. Of the makers that are in flight while the key has no row, with no request about
to delete it, one creates the macro as soon as one of them is answered, and all others find the name
taken; only when the ids are used up may all of them fail. -/
theorem answers_tell_lives (cacheSize : Nat) (persistent : Bool) (maxId : Option Nat)
    (requests : ι → Request γ) (before rest : List ι) (key : Text × Text) :
    let begun := start (CachedStore.ofSize cacheSize persistent maxId) requests
    let met := begun.after before
    let ended := met.after rest
    (∀ i, 2 ≤ (before ++ rest).count i → ended.answer? i ≠ none) ∧
    (∀ i (a : Answer), a.isChange →
      ((i, a) ∈ begun.history (before ++ rest) ↔ ended.answer? i = some a)) ∧
    ((begun.history (before ++ rest)).map Prod.fst).Nodup ∧
    IsLife (begun.changes key (before ++ rest)) ∧
    begun.changes key before <+: begun.changes key (before ++ rest) ∧
    (met.has key = true ↔
      .created ∈ begun.changes key before ∧ (begun.changes key before).getLast? ≠ some .deleted) ∧
    (met.has key = false → (∀ i ∈ rest, met.answer? i = none → ¬ (requests i).Deletes key) →
      ∀ i x, Racing met requests key i x → ended.answer? i ≠ none →
        (∃ k y, Racing met requests key k y ∧ ended.answer? k = some (.created key.2 y) ∧
          ∀ j z, Racing met requests key j z → j ≠ k →
            ended.answer? j = none ∨ ended.answer? j = some (.nameTaken key.2)) ∨
        ((∃ n ∈ maxId, n < ended.store.table.nextId) ∧ ∀ j z, Racing met requests key j z →
          ended.answer? j = none ∨ ended.answer? j = some .failure)) := by
  intro begun met ended
  have hbegun : begun.Serves requests := serves_start (.ofSize cacheSize persistent maxId) requests
  have hfree : begun.has key = false := rfl
  have hended : ended = begun.after (before ++ rest) := (after_append before rest).symm
  have hnil : Leads [] (begun.has key) := .nil
  have hlife := (hbegun.sound.leads hnil (before ++ rest)).isLife
  refine ⟨fun i hi => ?_, fun i a ha => ?_, nodup_history .., hlife, ?_,
    has_iff_changes hbegun.sound hfree before, fun hmet hrest i x hracing hanswer => ?_⟩
  · rw [hended]
    exact answer?_of_two_le_count _ requests hi
  · rw [hended]
    exact mem_history_of_isChange _ requests ha i _
  · rw [changes, changes, history_append, List.filterMap_append]
    exact List.prefix_append ..
  · have hmaxId : ended.store.table.maxId = maxId := hended ▸ (begun.after_ahead (before ++ rest)).maxId_eq
    rcases exists_winner (hbegun.after before) hmet hrest hracing hanswer with hwon | ⟨hid, hfailed⟩
    · exact Or.inl hwon
    · rw [MacroTable.hasId_eq_false_iff] at hid
      exact Or.inr ⟨hmaxId ▸ hid, hfailed⟩

/-- Four requests for one key. The second finds no macro, creates it after the first has and the third
has deleted it again, and so wins against the fourth. -/
theorem answers_tell_lives_overtaken :
    let ex : Executor := ⟨⟨none, none⟩, true⟩
    let requests : Fin 4 → Request Script := fun
      | 0 => ⟨['g'], .make "atk".toList "1d20".toList, .ok true, ex, ⟨[7]⟩⟩
      | 1 => ⟨['g'], .make "atk".toList "1d8".toList, .ok true, ex, ⟨[7]⟩⟩
      | 2 => ⟨['g'], .delete "atk".toList, .ok true, ex, ⟨[]⟩⟩
      | 3 => ⟨['g'], .make "atk".toList "6*7".toList, .ok true, ex, ⟨[]⟩⟩
    let begun := start (CachedStore.ofSize 1 false (some maxRowId)) requests
    let met := begun.after [0, 1, 0, 2]
    let ended := met.after [3, 1, 3]
    let key := (['g'], "atk".toList)
    begun.changes key ([0, 1, 0, 2] ++ [3, 1, 3]) = [.created, .deleted, .created] ∧
      IsLife (begun.changes key ([0, 1, 0, 2] ++ [3, 1, 3])) ∧
      ended.answer? 3 ≠ none ∧
      ((2, .deleted key.2) ∈ begun.history ([0, 1, 0, 2] ++ [3, 1, 3]) ↔
        ended.answer? 2 = some (.deleted key.2)) ∧
      ∃ k y, Racing met requests key k y ∧ ended.answer? k = some (.created key.2 y) ∧
        ∀ j z, Racing met requests key j z → j ≠ k →
          ended.answer? j = none ∨ ended.answer? j = some (.nameTaken key.2) := by
  intro ex requests begun met ended key
  obtain ⟨htwo, hhistory, -, hlife, -, -, hwinner⟩ :=
    answers_tell_lives 1 false (some maxRowId) requests [0, 1, 0, 2] [3, 1, 3] key
  have hracing : Racing met requests key 1 "1d8".toList :=
    ⟨Option.isNone_iff_eq_none.mp (by decide +kernel), rfl, rfl, rfl, by decide, by decide +kernel⟩
  have hdeletes : ∀ i ∈ [3, 1, 3], (requests i).command ≠ .delete "atk".toList := by decide
  have hleft : ended.store.table.nextId ≤ maxRowId := by decide +kernel
  refine ⟨by decide +kernel, hlife, htwo 3 (by decide), hhistory 2 _ rfl,
    (hwinner (by decide +kernel) ?_ 1 _ hracing ?_).resolve_right ?_⟩
  · exact fun i hi _ h => hdeletes i hi h.command_eq
  · exact Option.isSome_iff_ne_none.mp (by decide +kernel)
  · rintro ⟨⟨n, hn, hlt⟩, -⟩
    obtain rfl := Option.some.inj hn
    exact absurd hlt (Nat.not_lt.mpr hleft)

end InFlight

end DiceBot
