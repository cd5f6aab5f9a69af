import DiceBot.Proofs.Bot.Recognition
import DiceBot.Proofs.Bot.Serving
import DiceBot.Proofs.Bot.Stored
import DiceBot.Proofs.Expr.Rerolling

/-! # Macros by their listed names

Every name in the store of a bot that can be reached is one that a command can hold
(`Bot.Reachable.isNameText`), so behind the prefix and a command word it is read as the same name
(`Command.parse_prefixed`). A macro that is listed is therefore found under its listed name by the
commands that view, roll and delete it, and the list without it is what is left when it is deleted
(`Bot.listed_addressable`). -/

namespace DiceBot

/-! ### Messages -/

namespace Command

open Text

variable {commandPrefix body name : Text}

/-- A body that asks for a command does so behind a prefix. -/
theorem parse_prefixed {c : Command} (hlead : ∀ x ∈ commandPrefix.head?, isGap x = false)
    (hbody : ∀ x ∈ body.head?, isGap x = false) (h : Asks body c) :
    parse commandPrefix (commandPrefix ++ body) = some c := by
  have hhead : ∀ x ∈ (commandPrefix ++ body).head?, isGap x = false := by
    cases commandPrefix with
    | nil => exact hbody
    | cons d s => exact hlead
  have hstrip : ∀ {s : Text}, (∀ x ∈ s.head?, isGap x = false) → StripsTo isGap s s :=
    fun h => ⟨[], rfl, List.forall_mem_nil _, h⟩
  rw [parse, body?_eq_some_iff.mpr ⟨body, hstrip hhead, hstrip hbody⟩, Option.map_some,
    ofBody_eq_iff.mpr (.inl h)]

/-- A command word, a space and the operands. -/
theorem operands_text (w : Word) (t : Text) : Operands w (w.text ++ [' '] ++ t) t :=
  ⟨[' '], ⟨w.text, List.append_assoc .., w.map_toLower_text⟩, List.cons_ne_nil _ _,
    List.forall_mem_singleton.mpr rfl⟩

/-- A command word does not begin with a gap. -/
theorem Word.head?_text_append (w : Word) (t : Text) : ∀ x ∈ (w.text ++ t).head?, isGap x = false := by
  have hne : w.text ≠ [] := by cases w <;> exact List.cons_ne_nil _ _
  intro x hx
  rw [List.head?_append_of_ne_nil _ hne] at hx
  exact w.isGap_of_mem_text x (List.mem_of_mem_head? hx)

/-- A command word, a space and what asks for a command behind them. -/
theorem parse_word {c : Command} (w : Word) {t : Text}
    (hlead : ∀ x ∈ commandPrefix.head?, isGap x = false) (h : Asks (w.text ++ [' '] ++ t) c) :
    parse commandPrefix (commandPrefix ++ (w.text ++ [' ']) ++ t) = some c := by
  rw [List.append_assoc commandPrefix]
  refine parse_prefixed hlead ?_ h
  rw [List.append_assoc]
  exact w.head?_text_append _

theorem namesOnly_self (h : IsNameText name) : NamesOnly name name :=
  ⟨[], (List.append_nil _).symm, h, List.forall_mem_nil _⟩

theorem parse_view (hlead : ∀ x ∈ commandPrefix.head?, isGap x = false) (h : IsNameText name) :
    parse commandPrefix (commandPrefix ++ "view-macro ".toList ++ name) = some (.view name) :=
  parse_word .view hlead (.view (operands_text .view name) (namesOnly_self h))

theorem parse_delete (hlead : ∀ x ∈ commandPrefix.head?, isGap x = false) (h : IsNameText name) :
    parse commandPrefix (commandPrefix ++ "delete-macro ".toList ++ name) = some (.delete name) :=
  parse_word .delete hlead (.delete (operands_text .delete name) (namesOnly_self h))

/-- Blanks end a name, so what follows the first of them are the inputs. -/
theorem parse_rollMacro (hlead : ∀ x ∈ commandPrefix.head?, isGap x = false) (h : IsNameText name)
    {rest : Text} {inputs : List Text} (hrest : ∀ c ∈ rest.head?, isBlank c)
    (hinputs : SplitsInto rest inputs) :
    parse commandPrefix (commandPrefix ++ "roll-macro ".toList ++ (name ++ rest)) =
      some (.rollMacro name inputs) := by
  have hends : ∀ c ∈ rest.head?, isNameChar c = false := fun c hc => by
    rw [Bool.eq_false_iff]
    intro hname
    have hblank := hrest c hc
    rw [isBlank_of_isNameChar hname] at hblank
    cases hblank
  exact parse_word .rollMacro hlead
    (.rollMacro (operands_text .rollMacro (name ++ rest)) ⟨rfl, h, hends⟩ hinputs)

theorem parse_list (hlead : ∀ x ∈ commandPrefix.head?, isGap x = false) :
    parse commandPrefix (commandPrefix ++ "list-macros".toList) = some .list := by
  have hbegins : Begins .list "list-macros".toList [] := ⟨"list-macros".toList, rfl, rfl⟩
  refine parse_prefixed hlead ?_ (.list hbegins (List.forall_mem_nil _))
  exact Word.list.head?_text_append []

end Command

/-! ### Names -/

namespace Plan

theorem Stores.mono {N N' E E' : Text → Prop} {plan : Plan} (h : plan.Stores N E)
    (hN : ∀ s, N s → N' s) (hE : ∀ s, E s → E' s) : plan.Stores N' E' := by
  induction plan with
  | done => trivial
  | find name next ih => exact fun a => ih a (h a)
  | create name x next ih => exact ⟨hN _ h.1, hE _ h.2.1, fun a => ih a (h.2.2 a)⟩
  | update name x next ih => exact ⟨hE _ h.1, fun a => ih a (h.2 a)⟩
  | delete name next ih => exact fun a => ih a (h a)
  | list next ih => exact fun a => ih a (h a)

/-- A plan goes on with what is found. -/
theorem run_find (group name : Text) (next : Option Macro → Plan) (s : CachedStore) :
    (find name next).run group s = (next (s.find group name).1).run group (s.find group name).2 := rfl

/-- A plan goes on with whether there was a macro to delete. -/
theorem run_delete (group name : Text) (next : Bool → Plan) (s : CachedStore) :
    (delete name next).run group s =
      (next (s.delete group name).1).run group (s.delete group name).2 := rfl

end Plan

namespace Bot

variable {γ : Type} [WordSource γ] {b : Bot CachedStore} {group name expression : Text}

/-- The rows of a store keep names that a command can hold, whatever event comes and whichever calls
fail. -/
theorem isNameText_handle (h : ∀ r ∈ b.store.table.rows, Command.IsNameText r.name)
    (faults : List (Option ServiceError)) (g : γ) (event : Event) :
    ∀ r ∈ ((b.withFaults faults).handle g event).2.store.store.table.rows,
      Command.IsNameText r.name := by
  obtain hstore | ⟨group, message, c, hparse, hstore⟩ := (b.withFaults faults).store_handle g event
  · rw [hstore]
    exact h
  · have hstores : (b.request g group c).plan.Stores Command.IsNameText fun _ => True := by
      unfold Request.plan
      split
      · exact (Command.stores_plan (Command.wellFormed_of_parse hparse) _ g).mono
          (fun _ hs => ⟨List.length_pos_iff.mp hs.length_pos, fun c hc => (hs.chars c hc).1⟩)
          fun _ _ => trivial
      · trivial
      · trivial
    rw [hstore]
    exact fun r hr => (hstores.run_faulty group (fun r hr => ⟨h r hr, trivial⟩) faults r hr).1

/-- **Every stored name can stand in a command.** -/
theorem Reachable.isNameText (hb : b.Reachable) :
    ∀ r ∈ b.store.table.rows, Command.IsNameText r.name := by
  induction hb with
  | opened => exact List.forall_mem_nil _
  | handled _ g event ih =>
    rw [← repaired_handle_faultless]
    exact isNameText_handle ih [] g event
  | disturbed _ faults g event ih => exact isNameText_handle ih faults g event
  | stopped _ ih => exact ih
  | @reopened b _ _ _ _ ih =>
    show ∀ r ∈ (if b.store.persistent then b.store.table else .empty b.store.table.maxId).rows, _
    split
    · exact ih
    · exact List.forall_mem_nil _

/-! ### Lists -/

/-- The macro of a row as it is listed. -/
def listing (r : Row) : Text × Text := (r.name, r.expression)

/-- Every command of the group to list its macros is answered by these, and changes nothing. -/
def Lists (γ : Type) [WordSource γ] (b : Bot CachedStore) (group : Text)
    (macros : List (Text × Text)) : Prop :=
  ∀ (g : γ) (message : Text), Command.parse b.commandPrefix message = some .list →
    b.answer g group message = (some (.listed macros), b)

theorem lists_of_allows (haccess : b.access.allows group = .ok true) :
    b.Lists γ group ((b.store.table.list group).map listing) := by
  intro g message hparse
  rw [answer_of_allows hparse haccess]
  show (some (Answer.listed (((b.store.table.list group).map Row.toMacro).map fun m =>
    (m.name, m.expression))), b) = _
  rw [List.map_map]
  rfl

/-- A macro is listed under its key alone, with the expression that is found there. -/
theorem mem_listing_iff (hb : b.Reachable) :
    (name, expression) ∈ (b.store.table.list group).map listing ↔
      ∃ row, b.store.table.find? group name = some row ∧ listing row = (name, expression) := by
  obtain ⟨M, hM⟩ := hb.represents
  rw [List.mem_map]
  constructor
  · rintro ⟨row, hrow, hlisting⟩
    obtain ⟨hmem, rfl⟩ := MacroTable.mem_list_iff.mp hrow
    obtain ⟨rfl, rfl⟩ := Prod.mk.inj hlisting
    exact ⟨row, (MacroTable.mem_rows_iff hM.mirrors.distinct).mp hmem, rfl⟩
  · rintro ⟨row, hrow, hlisting⟩
    obtain ⟨hgroup, -⟩ := Prod.mk.inj (MacroTable.key_of_find? hrow)
    exact ⟨row, MacroTable.mem_list_iff.mpr ⟨List.mem_of_find?_eq_some hrow, hgroup⟩, hlisting⟩

/-- The list without a macro that was deleted. -/
theorem listing_delete {t : MacroTable} {row : Row} (hd : t.Distinct)
    (hrow : t.find? group name = some row) :
    ((t.delete group name).2.list group).map listing =
      ((t.list group).map listing).filter (· ≠ listing row) := by
  rw [MacroTable.list_delete hd, List.filter_map]
  refine congrArg _ (List.filter_congr fun r hr => ?_)
  obtain ⟨hmem, hgroup⟩ := MacroTable.mem_list_iff.mp hr
  have hkey : row.key = (group, name) := MacroTable.key_of_find? hrow
  rw [Function.comp_apply, decide_eq_decide, not_iff_not]
  constructor
  · intro hname
    have hfind := MacroTable.find?_of_mem hd hmem
    rw [hgroup, hname, hrow] at hfind
    rw [Option.some.inj hfind]
  · intro hlisting
    exact (Prod.mk.inj hlisting).1.trans (Prod.mk.inj hkey).2

/-! ### Commands -/

/-- A look-up of the store finds the macro of the row of the key. -/
theorem find_fst (hb : b.Reachable) (group name : Text) :
    (b.store.find group name).1 = (b.store.table.find? group name).map Row.toMacro := by
  obtain ⟨M, hM⟩ := hb.represents
  rw [(hM.find group name).1, hM.mirrors.find]

/-- The macro is viewed by its name. -/
theorem answer_view {row : Row} (hb : b.Reachable) (haccess : b.access.allows group = .ok true)
    (hrow : b.store.table.find? group name = some row) {message : Text}
    (hparse : Command.parse b.commandPrefix message = some (.view name)) (g : γ) :
    (b.answer g group message).1 = some (.viewed row.name row.expression) := by
  rw [answer_of_allows hparse haccess, Command.plan, Plan.run_find, find_fst hb, hrow]
  rfl

/-- The macro is rolled by its name, if its dice come to an end. -/
theorem answer_rollMacro {row : Row} (hb : b.Reachable) (haccess : b.access.allows group = .ok true)
    (hrow : b.store.table.find? group name = some row) {message : Text} {inputs : List Text}
    (hparse : Command.parse b.commandPrefix message = some (.rollMacro name inputs))
    (hrunning : b.executor.running) {g g' : γ} {outcome : Except EvalError Outcome}
    (hrun : (evaluate b.executor.limits (Template.fill row.expression inputs)).run g =
      some (outcome, g')) :
    (b.answer g group message).1 = some (.rolled (Template.fill row.expression inputs) outcome) := by
  rw [answer_of_allows hparse haccess, Command.plan, Plan.run_find, find_fst hb, hrow]
  show some (Plan.answerOf (Command.rollResult b.executor g (Template.fill row.expression inputs))) = _
  rw [Command.rollResult, Executor.roll, Executor.execute, if_pos hrunning, hrun]
  cases outcome <;> rfl

/-- The macro is deleted by its name. -/
theorem answer_delete {row : Row} (haccess : b.access.allows group = .ok true)
    (hrow : b.store.table.find? group name = some row) {message : Text}
    (hparse : Command.parse b.commandPrefix message = some (.delete name)) (g : γ) :
    b.answer g group message =
      (some (.deleted name), { b with store := (b.store.delete group name).2 }) := by
  have hdeleted : (b.store.delete group name).1 = true := by
    show (b.store.table.delete group name).1 = true
    rw [MacroTable.delete_fst, hrow]
    rfl
  rw [answer_of_allows hparse haccess, Command.plan, Plan.run_delete, hdeleted]
  rfl

/-- **Macros are addressed by their listed names.** Whatever bot is reached, a group with access gets a
list of its macros, and each of them is found by its name as it is listed: it is viewed with its
expression, its expression is filled with the inputs behind the name and rolled while the executor runs,
and it is deleted, after which the list is the same without it. -/
theorem listed_addressable (hb : b.Reachable) (haccess : b.access.allows group = .ok true)
    (hlead : ∀ c ∈ b.commandPrefix.head?, Text.isGap c = false) (g : γ) :
    ∃ macros, b.Lists γ group macros ∧
      b.answer g group (b.commandPrefix ++ "list-macros".toList) = (some (.listed macros), b) ∧
      ∀ name expression, (name, expression) ∈ macros →
        (b.answer g group (b.commandPrefix ++ "view-macro ".toList ++ name)).1 =
          some (.viewed name expression) ∧
        (b.executor.running → ∀ (rest : Text) (inputs : List Text), Text.SplitsInto rest inputs →
          (∀ c ∈ rest.head?, Text.isBlank c) →
          (∀ outcome g', (evaluate b.executor.limits (Template.fill expression inputs)).run g =
              some (outcome, g') →
            (b.answer g group (b.commandPrefix ++ "roll-macro ".toList ++ (name ++ rest))).1 =
              some (.rolled (Template.fill expression inputs) outcome)) ∧
          (Steady γ → ∃ outcome g',
            (evaluate b.executor.limits (Template.fill expression inputs)).run g =
              some (outcome, g'))) ∧
        (b.answer g group (b.commandPrefix ++ "delete-macro ".toList ++ name)).1 =
          some (.deleted name) ∧
        (b.answer g group (b.commandPrefix ++ "delete-macro ".toList ++ name)).2.Lists γ group
          (macros.filter (· ≠ (name, expression))) := by
  have hlists : b.Lists γ group ((b.store.table.list group).map listing) := lists_of_allows haccess
  refine ⟨_, hlists, hlists g _ (Command.parse_list hlead), fun name expression hmem => ?_⟩
  obtain ⟨row, hrow, hlisting⟩ := (mem_listing_iff hb).mp hmem
  obtain ⟨rfl, rfl⟩ := Prod.mk.inj hlisting
  have hname : Command.IsNameText row.name := hb.isNameText row (List.mem_of_find?_eq_some hrow)
  refine ⟨answer_view hb haccess hrow (Command.parse_view hlead hname) g,
    fun hrunning rest inputs hinputs hrest => ⟨fun outcome g' hrun => ?_, fun hsteady => ?_⟩, ?_⟩
  · exact answer_rollMacro hb haccess hrow (Command.parse_rollMacro hlead hname hrest hinputs)
      hrunning hrun
  · exact exists_run_evaluate hsteady _ _ g
  · obtain ⟨M, hM⟩ := hb.represents
    rw [answer_delete haccess hrow (Command.parse_delete hlead hname)]
    refine ⟨rfl, ?_⟩
    have hafter := lists_of_allows (γ := γ) (b := { b with store := (b.store.delete group row.name).2 })
      haccess
    have hlist := listing_delete hM.mirrors.distinct hrow
    rw [hlisting] at hlist
    rw [← hlist]
    exact hafter

/-- A macro with an accented name, which was edited and viewed before, between two others. Its inputs
are parted by an em space and a tab. -/
theorem listed_addressable_accented :
    let b := (session
      ⟨['!'], ⟨⟨some 3, some 20⟩, true⟩, .everyone, CachedStore.ofSize 1 false (some maxRowId)⟩
      [(.message ['g'] "!make-macro z 1d20".toList, (⟨[7]⟩ : Script)),
        (.message ['g'] "!make-macro épée A".toList, ⟨[]⟩),
        (.message ['g'] "!view-macro épée".toList, ⟨[]⟩),
        (.message ['g'] "!edit-macro épée (A-B)*2".toList, ⟨[]⟩),
        (.message ['g'] "!make-macro view-macro 1".toList, ⟨[]⟩)]).2
    (b.Reachable ∧ b.access.allows ['g'] = .ok true ∧
      ∀ c ∈ b.commandPrefix.head?, Text.isGap c = false) ∧
    ("épée".toList, "(A-B)*2".toList) ∈ (b.store.table.list ['g']).map listing ∧
    (b.answer (⟨[]⟩ : Script) ['g'] "!view-macro épée".toList).1 =
      some (.viewed "épée".toList "(A-B)*2".toList) ∧
    (b.answer (⟨[]⟩ : Script) ['g'] "!roll-macro épée\u20033\t4".toList).1 =
      some (.rolled "(3-4)*2".toList (.ok ⟨-2, []⟩)) ∧
    (b.answer (⟨[]⟩ : Script) ['g'] "!delete-macro épée".toList).1 = some (.deleted "épée".toList) := by
  intro b
  have hb : b.Reachable := Reachable.session (.opened _ _ _ _ _ _) _
  have hp : b.commandPrefix = ['!'] := by decide +kernel
  have hexecutor : b.executor = ⟨⟨some 3, some 20⟩, true⟩ := by decide +kernel
  have haccess : b.access.allows ['g'] = .ok true := by
    rw [show b.access = .everyone by decide +kernel]
    rfl
  have hlead : ∀ c ∈ b.commandPrefix.head?, Text.isGap c = false := by
    rw [hp]
    rintro c ⟨⟩
    decide
  have hmem : ("épée".toList, "(A-B)*2".toList) ∈ (b.store.table.list ['g']).map listing :=
    (mem_listing_iff hb).mpr
      ⟨⟨2, ['g'], "épée".toList, "(A-B)*2".toList⟩, by decide +kernel, rfl⟩
  obtain ⟨macros, hlists, hlist, haddressed⟩ := listed_addressable hb haccess hlead (⟨[]⟩ : Script)
  obtain rfl : macros = (b.store.table.list ['g']).map listing := by
    have hanswer := lists_of_allows haccess (⟨[]⟩ : Script) _ (Command.parse_list hlead)
    rw [hlist] at hanswer
    exact Answer.listed.inj (Option.some.inj (Prod.mk.inj hanswer).1)
  obtain ⟨hview, hroll, hdelete, -⟩ := haddressed _ _ hmem
  have hinputs : Text.SplitsInto "\u20033\t4".toList [['3'], ['4']] :=
    Text.words_eq_iff.mp (by decide +kernel)
  have hblank : ∀ c ∈ "\u20033\t4".toList.head?, Text.isBlank c := by
    rintro c ⟨⟩
    decide
  have hfill : Template.fill "(A-B)*2".toList [['3'], ['4']] = "(3-4)*2".toList := by decide +kernel
  have hrun : (evaluate b.executor.limits "(3-4)*2".toList).run (⟨[]⟩ : Script) =
      some (.ok ⟨-2, []⟩, ⟨[]⟩) := by
    rw [hexecutor]
    decide +kernel
  have hrolled := (hroll (by rw [hexecutor]) _ _ hinputs hblank).1
  rw [hfill] at hrolled
  have hrolled := hrolled _ _ hrun
  rw [hp] at hview hdelete hrolled
  exact ⟨⟨hb, haccess, hlead⟩, hmem, hview, hrolled, hdelete⟩

end Bot

end DiceBot
