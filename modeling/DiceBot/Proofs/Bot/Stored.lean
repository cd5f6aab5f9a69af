import DiceBot.Proofs.Bot.Parsing
import DiceBot.Proofs.Bot.Serving
import DiceBot.Proofs.Template.Validation

/-! # What a session stores

A plan stores names and expressions of a kind if each of its calls does, whatever the answers before it
(`Plan.Stores`); the rows of a store then stay of this kind (`Plan.Stores.run`). The plan of a command
that was parsed creates names that fit only, and writes expressions that were accepted only. So every
macro of a session has a valid name and an expression that can be rolled. -/

namespace DiceBot

/-! ### Names and expressions of macros -/

/-- The name of a macro: up to 128 characters, all of them name characters and none of them blank. -/
structure IsMacroName (name : Text) : Prop where
  length_pos : 1 ≤ name.length
  length_le : name.length ≤ 128
  chars : ∀ c ∈ name, Text.isNameChar c ∧ Text.isBlank c = false

/-- The expression of a macro: not empty, without blanks around it, and if every placeholder stands for
a `1`, it is parsed and, with any dice, has a value or fails for its arithmetic. -/
structure IsMacroBody (limits : Limits) (expression : Text) : Prop where
  ne_nil : expression ≠ []
  trimmed : Text.trim expression = expression
  parsed : ∃ p, parse limits (Template.fill expression Template.trialArgs) = .ok p
  ends : ∀ (τ : Type) [WordSource τ] (k : τ),
    (Template.evaluate limits expression Template.trialArgs).EndsIn EvalError.IsArithmetic k

theorem isMacroName_of_fits {name : Text} (h : Command.IsNameText name) (hfits : nameFits name) :
    IsMacroName name := by
  simp only [nameFits, Bool.and_eq_true, decide_eq_true_eq] at hfits
  exact ⟨hfits.1, hfits.2, fun c hc => ⟨h.2 c hc, Text.isBlank_of_isNameChar (h.2 c hc)⟩⟩

theorem isMacroBody_of_accepted {σ : Type} [WordSource σ] {limits : Limits} {expression : Text}
    {g g' : σ} (h : Command.IsExpressionText expression)
    (haccepted : (Template.validate limits expression).Yields g () g') :
    IsMacroBody limits expression := by
  obtain ⟨out, hout⟩ := Template.yields_validate_iff.mp haccepted
  obtain ⟨p, hp, -⟩ := yields_evaluate_iff.mp hout
  exact ⟨h.1, h.2, ⟨p, hp⟩, fun τ _ k => evaluate_endsIn_of_yields hout k⟩

/-! ### Plans -/

namespace Plan

/-- Every macro that the plan creates has a name in `N` and an expression in `E`, and every update gives
a macro an expression in `E`. -/
def Stores (N E : Text → Prop) : Plan → Prop
  | .done _ => True
  | .find _ next => ∀ a, (next a).Stores N E
  | .create name expression next => N name ∧ E expression ∧ ∀ a, (next a).Stores N E
  | .update _ expression next => E expression ∧ ∀ a, (next a).Stores N E
  | .delete _ next => ∀ a, (next a).Stores N E
  | .list next => ∀ a, (next a).Stores N E

variable {N E : Text → Prop} {plan : Plan} {s : CachedStore}

/-- **A call keeps the rows of their kind.** -/
theorem Stores.call (h : plan.Stores N E) (group : Text)
    (hs : ∀ r ∈ s.table.rows, N r.name ∧ E r.expression) :
    (plan.call group s).1.Stores N E ∧
      ∀ r ∈ (plan.call group s).2.table.rows, N r.name ∧ E r.expression := by
  cases plan with
  | done => exact ⟨h, hs⟩
  | find name next =>
    have hfind : ∀ r ∈ (s.find group name).2.table.rows, N r.name ∧ E r.expression := by
      rwa [CachedStore.find_table]
    exact ⟨h _, hfind⟩
  | create name x next =>
    obtain ⟨hname, hx, hnext⟩ := h
    refine ⟨resume_rec (fun _ => trivial) hnext _, fun r hr => ?_⟩
    rcases MacroTable.mem_rows_of_create hr with hr | rfl
    · exact hs r hr
    · exact ⟨hname, hx⟩
  | update name x next =>
    obtain ⟨hx, hnext⟩ := h
    refine ⟨hnext _, fun r hr => ?_⟩
    obtain ⟨old, hold, rfl | rfl⟩ := MacroTable.mem_rows_of_update hr
    · exact hs _ hold
    · exact ⟨(hs old hold).1, hx⟩
  | delete name next =>
    exact ⟨h _, fun r hr => hs r (MacroTable.mem_rows_of_delete hr)⟩
  | list next => exact ⟨h _, hs⟩

/-- A plan keeps the rows of their kind, whichever of its calls fail. -/
theorem Stores.run_faulty (h : plan.Stores N E) (group : Text)
    (hs : ∀ r ∈ s.table.rows, N r.name ∧ E r.expression) (faults : List (Option ServiceError)) :
    ∀ r ∈ (plan.run group (⟨s, faults⟩ : FaultyStore CachedStore)).2.store.table.rows,
      N r.name ∧ E r.expression := by
  let inv (plan : Plan) (s : CachedStore) : Prop :=
    plan.Stores N E ∧ ∀ r ∈ s.table.rows, N r.name ∧ E r.expression
  have hcall (plan : Plan) (s : CachedStore) (h : inv plan s) :
      inv (plan.call group s).1 (plan.call group s).2 := h.1.call group h.2
  have hfail (plan : Plan) (s : CachedStore) (e : ServiceError) (_ : plan.settled? = none)
      (h : inv plan s) : inv (.done (.error e)) s := ⟨trivial, h.2⟩
  exact (run_invariant hcall hfail plan (s := ⟨s, faults⟩) ⟨h, hs⟩).2

theorem Stores.run (h : plan.Stores N E) (group : Text)
    (hs : ∀ r ∈ s.table.rows, N r.name ∧ E r.expression) :
    ∀ r ∈ (plan.run group s).2.table.rows, N r.name ∧ E r.expression := by
  have hrows := h.run_faulty group hs []
  rwa [run_faultless] at hrows

end Plan

/-! ### Commands -/

namespace Command

variable {σ : Type} [WordSource σ] {ex : Executor} {g : σ} {template : Text}

/-- A template that is not refused has a value when it is tried out. -/
theorem exists_yields_of_refusal? (h : refusal? ex g template = .ok none) :
    ∃ g', (Template.validate ex.limits template).Yields g () g' := by
  have hvalidate : ex.validate g template = .ok () := by
    unfold refusal? at h
    split at h
    · assumption
    all_goals cases h
  unfold Executor.validate Executor.execute at hvalidate
  split at hvalidate
  case isTrue =>
    split at hvalidate
    case h_3 g' hrun => exact ⟨g', hrun⟩
    all_goals cases hvalidate
  case isFalse => cases hvalidate

theorem stores_ifAccepted {N E : Text → Prop} {next : Plan}
    (h : ∀ g', (Template.validate ex.limits template).Yields g () g' → next.Stores N E) :
    (ifAccepted ex g template next).Stores N E := by
  unfold ifAccepted
  split
  case h_1 haccepted =>
    obtain ⟨g', hg'⟩ := exists_yields_of_refusal? haccepted
    exact h g' hg'
  case h_2 => trivial
  case h_3 => trivial

/-- **A command stores valid macros only.** -/
theorem stores_plan {c : Command} (h : c.WellFormed) (ex : Executor) (g : σ) :
    (c.plan ex g).Stores IsMacroName (IsMacroBody ex.limits) := by
  cases c with
  | make name expression =>
    simp only [plan]
    split
    case isTrue hfits =>
      rintro (_ | m)
      · refine stores_ifAccepted fun g' hg' => ?_
        exact ⟨isMacroName_of_fits h.1 hfits, isMacroBody_of_accepted h.2 hg', fun _ => trivial⟩
      · trivial
    case isFalse => trivial
  | edit name expression =>
    exact stores_ifAccepted fun g' hg' => ⟨isMacroBody_of_accepted h.2 hg', fun _ => trivial⟩
  | rollMacro | view => rintro (_ | m) <;> trivial
  | help | roll => trivial
  | list | delete => exact fun _ => trivial

end Command

/-! ### Sessions -/

namespace Bot

variable {γ : Type} [WordSource γ] {limits : Limits} {b : Bot CachedStore}

/-- The bot rolls within the limits, and every row of its store is a valid macro. -/
structure StoresValid (limits : Limits) (b : Bot CachedStore) : Prop where
  limits_eq : b.executor.limits = limits
  rows : ∀ r ∈ b.store.table.rows, IsMacroName r.name ∧ IsMacroBody limits r.expression

theorem StoresValid.perform (h : StoresValid limits b) {c : Command} (hc : c.WellFormed) (g : γ)
    (group : Text) : StoresValid limits (b.perform g group c).2 := by
  have hstores : (c.plan b.executor g).Stores IsMacroName (IsMacroBody limits) :=
    h.limits_eq ▸ Command.stores_plan hc b.executor g
  have hrows := hstores.run group h.rows
  unfold Bot.perform
  split
  case h_1 hrun =>
    rw [hrun] at hrows
    exact ⟨h.limits_eq, hrows⟩
  case h_2 hrun =>
    rw [hrun] at hrows
    exact ⟨h.limits_eq, hrows⟩

theorem StoresValid.answer (h : StoresValid limits b) (g : γ) (group message : Text) :
    StoresValid limits (b.answer g group message).2 := by
  unfold Bot.answer
  split
  case h_1 => exact h
  case h_2 c hparse =>
    split
    case h_1 => exact h.perform (Command.wellFormed_of_parse hparse) g group
    case h_2 => exact h
    case h_3 => exact h

/-- **Every event keeps the macros valid.** -/
theorem StoresValid.handle (h : StoresValid limits b) (g : γ) (event : Event) :
    StoresValid limits (b.handle g event).2 := by
  cases event with
  | message group text => exact h.answer g group text
  | setAllowlist content =>
    show StoresValid limits (b.setAllowlist content)
    unfold setAllowlist
    split <;> exact ⟨h.limits_eq, h.rows⟩

theorem StoresValid.session (h : StoresValid limits b) (events : List (Event × γ)) :
    StoresValid limits (b.session events).2 := by
  induction events generalizing b with
  | nil => exact h
  | cons e rest ih => exact ih (h.handle e.2 e.1)

/-- **Every macro of a session is valid**: whatever messages come from whatever groups, its name is one
that commands can hold, and its expression can be rolled. -/
theorem session_macros (commandPrefix : Text) (executor : Executor) (access : Access)
    (cacheSize : Nat) (persistent : Bool) (maxId : Option Nat) (events : List (Event × γ)) {row : Row}
    (hrow : row ∈ (session ⟨commandPrefix, executor, access,
      CachedStore.ofSize cacheSize persistent maxId⟩ events).2.store.table.rows) :
    IsMacroName row.name ∧ IsMacroBody executor.limits row.expression := by
  have hempty : StoresValid executor.limits
      ⟨commandPrefix, executor, access, CachedStore.ofSize cacheSize persistent maxId⟩ :=
    ⟨rfl, fun _ h => absurd h List.not_mem_nil⟩
  exact (hempty.session events).rows row hrow

/-- A name with letters outside ASCII, an expression that is edited, and a macro that is refused. -/
theorem session_macros_edited :
    ⟨1, ['g'], "épée".toList, "2*(A -1)".toList⟩ ∈
      (session ⟨['!'], ⟨⟨some 3, some 20⟩, true⟩, .everyone, CachedStore.ofSize 1 false (some maxRowId)⟩
        [(.message ['g'] "!make-macro épée  1d20+A ".toList, (⟨[7]⟩ : Script)),
          (.message ['g'] "!make-macro bad 1d21".toList, ⟨[]⟩),
          (.message ['g'] "! edit-macro épée 2*(A -1)".toList, ⟨[]⟩)]).2.store.table.rows ∧
    IsMacroName "épée".toList ∧ IsMacroBody ⟨some 3, some 20⟩ "2*(A -1)".toList := by
  have hrow : ⟨1, ['g'], "épée".toList, "2*(A -1)".toList⟩ ∈
      (session ⟨['!'], ⟨⟨some 3, some 20⟩, true⟩, .everyone, CachedStore.ofSize 1 false (some maxRowId)⟩
        [(.message ['g'] "!make-macro épée  1d20+A ".toList, (⟨[7]⟩ : Script)),
          (.message ['g'] "!make-macro bad 1d21".toList, ⟨[]⟩),
          (.message ['g'] "! edit-macro épée 2*(A -1)".toList, ⟨[]⟩)]).2.store.table.rows := by
    decide +kernel
  exact ⟨hrow, session_macros _ _ _ _ _ _ _ hrow⟩

end Bot

end DiceBot
