import DiceBot.Proofs.Bot.Effects
import DiceBot.Proofs.Bot.InFlight

/-! # The lives of keys

For every key the changes that the history of a schedule tells of lead from no row to the row there is
at its end (`InFlight.Sound.leads`), since the effect of each answer is a transition between having a
row and having none (`Answer.Effect.transition`). So the macro of a key is created and deleted in turn,
and updated in between (`Leads.isLife`). -/

namespace DiceBot

/-! ### Changes of one key -/

/-- A change of the row of a key. -/
inductive Change where
  | created
  | updated
  | deleted
deriving Repr, DecidableEq

/-- Whether one of the rows has the key. -/
def hasKey (key : Text × Text) (rows : List Row) : Bool := rows.any fun r => r.key = key

/-- The change of a key that an answer to a group tells of. -/
def Answer.change? (key : Text × Text) (group : Text) : Answer → Option Change
  | .created name _ => if (group, name) = key then some .created else none
  | .updated name _ => if (group, name) = key then some .updated else none
  | .deleted name => if (group, name) = key then some .deleted else none
  | _ => none

theorem Answer.change?_eq_created_iff {key : Text × Text} {group : Text} {a : Answer} :
    a.change? key group = some .created ↔
      group = key.1 ∧ ∃ expression, a = .created key.2 expression := by
  cases a with
  | created | updated | deleted => simp [change?, Prod.ext_iff]
  | _ => simp [change?]

theorem Answer.change?_eq_deleted_iff {key : Text × Text} {group : Text} {a : Answer} :
    a.change? key group = some .deleted ↔ group = key.1 ∧ a = .deleted key.2 := by
  cases a with
  | created | updated | deleted => simp [change?, Prod.ext_iff]
  | _ => simp [change?]

/-- How a change leads from having a row or none to having a row or none. -/
inductive Transition : Option Change → Bool → Bool → Prop where
  | none (has : Bool) : Transition none has has
  | created : Transition (some .created) false true
  | updated : Transition (some .updated) true true
  | deleted : Transition (some .deleted) true false

section

variable {key : Text × Text} {group : Text} {rows rows' : List Row}

theorem Transition.has_of_none {has has' : Bool} (h : Transition Option.none has has') :
    has' = has := by
  cases h
  rfl

theorem Transition.has_of_created {has has' : Bool} (h : Transition (some .created) has has') :
    has' = true := by
  cases h
  rfl

/-- A change that neither creates nor deletes leaves a row there or not. -/
theorem Transition.has_eq {c : Option Change} {has has' : Bool} (h : Transition c has has')
    (hcreated : c ≠ some .created) (hdeleted : c ≠ some .deleted) : has' = has := by
  cases h with
  | none | updated => rfl
  | created => exact absurd rfl hcreated
  | deleted => exact absurd rfl hdeleted

theorem hasKey_append (rows rows' : List Row) :
    hasKey key (rows ++ rows') = (hasKey key rows || hasKey key rows') := List.any_append

theorem hasKey_cons (row : Row) (rows : List Row) :
    hasKey key (row :: rows) = (decide (row.key = key) || hasKey key rows) := List.any_cons

theorem hasKey_eq_false_iff : hasKey key rows = false ↔ ∀ r ∈ rows, r.key ≠ key := by
  simp [hasKey]

theorem MacroTable.isSome_find? (t : MacroTable) (group name : Text) :
    (t.find? group name).isSome = hasKey (group, name) t.rows := by
  rw [← any_isAt_eq_isSome, hasKey]
  congr 1
  funext r
  rw [Bool.eq_iff_iff, Row.isAt_iff, decide_eq_true_iff]

/-- The rows with the only row of a key in their midst have this key, and without it they have not. -/
theorem IsOnlyRow.hasKey {name : Text} {row : Row} {before after : List Row}
    (h : IsOnlyRow group name rows before row after) (key : Text × Text) :
    DiceBot.hasKey key rows =
      (decide ((group, name) = key) || DiceBot.hasKey key (before ++ after)) := by
  rw [h.rows_eq, hasKey_append, hasKey_cons, h.key_eq, hasKey_append, Bool.or_left_comm]

theorem IsOnlyRow.hasKey_others {name : Text} {row : Row} {before after : List Row}
    (h : IsOnlyRow group name rows before row after) :
    DiceBot.hasKey (group, name) (before ++ after) = false := hasKey_eq_false_iff.mpr h.others

/-- **The effect of an answer on a key is the transition that it tells of.** -/
theorem Answer.Effect.transition {a : Answer} (h : Effect group rows rows' (some a))
    (key : Text × Text) :
    Transition (a.change? key group) (hasKey key rows) (hasKey key rows') := by
  cases a with
  | created name expression =>
    obtain ⟨habsent, id, rfl⟩ := h
    rw [change?, hasKey_append, hasKey_cons]
    split
    case isTrue hkey =>
      subst hkey
      rw [hasKey_eq_false_iff.mpr habsent]
      simp [Row.key, Transition.created]
    case isFalse hkey => simpa [Row.key, hkey, hasKey] using Transition.none _
  | updated name expression =>
    obtain ⟨before, row, after, honly, rfl⟩ := h
    have hrows' : hasKey key (before ++ { row with expression } :: after) = hasKey key rows := by
      rw [honly.rows_eq, hasKey_append, hasKey_append, hasKey_cons, hasKey_cons]
      rfl
    rw [change?, hrows', honly.hasKey key]
    split
    case isTrue hkey => simpa [hkey] using Transition.updated
    case isFalse => exact .none _
  | deleted name =>
    obtain ⟨before, row, after, honly, rfl⟩ := h
    rw [change?, honly.hasKey key]
    split
    case isTrue hkey =>
      subst hkey
      simpa [honly.hasKey_others] using Transition.deleted
    case isFalse hkey => simpa [hkey] using Transition.none _
  | _ =>
    have hrows : rows' = rows := h
    rw [hrows]
    exact .none _

end

/-! ### The life of a key -/

/-- The changes that are not updates. -/
def withoutUpdates (changes : List Change) : List Change := changes.filter (· ≠ .updated)

/-- Created and deleted in turn, created first. -/
def IsAlternation (changes : List Change) : Prop :=
  ∀ n (hn : n < changes.length), changes[n] = if n % 2 = 0 then .created else .deleted

/-- Changes of one key in an order that makes sense: it is created and deleted in turn, and updated
only while it is there. -/
structure IsLife (changes : List Change) : Prop where
  alternates : IsAlternation (withoutUpdates changes)
  updatedBetween : ∀ before after, changes = before ++ .updated :: after →
    (withoutUpdates before).getLast? = some .created

/-- A list that alternates goes on with what its length asks for. -/
theorem IsAlternation.snoc {changes : List Change} {c : Change} (h : IsAlternation changes)
    (hc : c = if changes.length % 2 = 0 then .created else .deleted) :
    IsAlternation (changes ++ [c]) := by
  intro n hn
  rw [List.length_append, List.length_singleton] at hn
  rcases Nat.lt_or_ge n changes.length with hlt | hge
  · rw [List.getElem_append_left hlt]
    exact h n hlt
  · have hn : n = changes.length := by omega
    subst hn
    rw [List.getElem_concat_length rfl]
    exact hc

/-- From no row the changes lead to one or to none. -/
inductive Leads : List Change → Bool → Prop where
  | nil : Leads [] false
  | snoc {changes : List Change} {c : Change} {has has' : Bool} (h : Leads changes has)
      (ht : Transition (some c) has has') : Leads (changes ++ [c]) has'

namespace Leads

variable {changes : List Change} {has : Bool}

theorem append {c : Option Change} {has' : Bool} (h : Leads changes has)
    (ht : Transition c has has') : Leads (changes ++ c.toList) has' := by
  cases ht with
  | none =>
    rw [Option.toList_none, List.append_nil]
    exact h
  | created => exact h.snoc .created
  | updated => exact h.snoc .updated
  | deleted => exact h.snoc .deleted

theorem length_withoutUpdates (h : Leads changes has) :
    (withoutUpdates changes).length % 2 = if has then 1 else 0 := by
  induction h with
  | nil => rfl
  | snoc h ht ih =>
    cases ht <;> simp [withoutUpdates] at ih ⊢ <;> omega

/-- There is a row if one was created and the last change did not delete it. -/
theorem has_iff (h : Leads changes has) :
    has = true ↔ .created ∈ changes ∧ changes.getLast? ≠ some .deleted := by
  induction h with
  | nil => simp
  | snoc h ht ih => cases ht <;> simp_all

theorem getLast?_withoutUpdates (h : Leads changes true) :
    (withoutUpdates changes).getLast? = some .created := by
  generalize hhas : true = has at h
  induction h with
  | nil => cases hhas
  | snoc h ht ih =>
    subst hhas
    cases ht with
    | created => simp [withoutUpdates]
    | updated => simpa [withoutUpdates] using ih rfl

/-- **Changes that lead from no row make a life.** -/
theorem isLife (h : Leads changes has) : IsLife changes := by
  induction h with
  | nil => exact ⟨fun n hn => absurd hn (Nat.not_lt_zero n), fun before after h => by simp at h⟩
  | @snoc changes c has has' h ht ih =>
    have hlength := h.length_withoutUpdates
    constructor
    · have hwithout : withoutUpdates (changes ++ [c]) = withoutUpdates changes ++ withoutUpdates [c] :=
        List.filter_append ..
      rw [hwithout]
      cases ht with
      | created => exact ih.alternates.snoc (by rw [hlength]; rfl)
      | deleted => exact ih.alternates.snoc (by rw [hlength]; rfl)
      | updated =>
        show IsAlternation (withoutUpdates changes ++ [])
        rw [List.append_nil]
        exact ih.alternates
    · intro before after heq
      rcases List.eq_nil_or_concat after with rfl | ⟨after, last, rfl⟩
      · obtain ⟨rfl, hc⟩ := List.append_inj' heq rfl
        obtain rfl : c = .updated := List.head_eq_of_cons_eq hc
        cases ht
        exact h.getLast?_withoutUpdates
      · rw [List.concat_eq_append, ← List.cons_append, ← List.append_assoc] at heq
        exact ih.updatedBetween before after (List.append_inj_left' heq rfl)

end Leads

/-! ### What a schedule changes -/

namespace InFlight

variable {ι γ : Type} [WordSource γ] {s : InFlight ι} {key : Text × Text}

/-- Whether the store has a macro of this group and name. -/
def has (s : InFlight ι) (key : Text × Text) : Bool := hasKey key s.store.table.rows

/-- The store represents a map, and what is left of each plan reports what it changes. -/
structure Sound (s : InFlight ι) : Prop where
  represents : ∃ M, Represents s.store M
  reports : ∀ i, s.answer? i = none → (s.plan i).Reports

theorem sound_start {store : CachedStore} {M : MacroMap} (h : Represents store M)
    (requests : ι → Request γ) : (start store requests).Sound :=
  ⟨⟨M, h⟩, fun i _ => (requests i).reports_plan⟩

variable [DecidableEq ι]

/-- The changes of a key that the history of a schedule tells of. -/
def changes (s : InFlight ι) (key : Text × Text) (schedule : List ι) : List Change :=
  (s.history schedule).filterMap fun (i, a) => a.change? key (s.group i)

/-- What a turn changes is told by the answer that it settles. -/
theorem Sound.effect_turn (h : s.Sound) (i : ι) :
    Answer.Effect (s.group i) s.store.table.rows (s.turn i).store.table.rows (s.gets? i) := by
  cases hanswer : s.answer? i with
  | some a =>
    rw [gets?_of_some hanswer, turn_of_answer? hanswer]
    rfl
  | none =>
    obtain ⟨M, hM⟩ := h.represents
    rw [gets?_of_none hanswer, answer?, turn_plan_self]
    exact ((h.reports i hanswer).call hM.mirrors.distinct _).1

theorem Sound.turn (h : s.Sound) (i : ι) : (s.turn i).Sound := by
  obtain ⟨M, hM⟩ := h.represents
  refine ⟨⟨_, (hM.call (s.plan i) (s.group i)).2⟩, fun j hj => ?_⟩
  by_cases hji : j = i
  · subst hji
    have hanswer : s.answer? j = none := answer?_eq_none_of_turn hj
    rw [answer?, turn_plan_self] at hj
    rw [turn_plan_self]
    exact ((h.reports j hanswer).call hM.mirrors.distinct _).2 hj
  · rw [answer?_turn_of_ne hji] at hj
    rw [turn_plan_of_ne hji]
    exact h.reports j hj

/-- The transition of a key in one turn. -/
theorem Sound.transition_turn (h : s.Sound) (key : Text × Text) (i : ι) :
    Transition ((s.gets? i).bind (Answer.change? key (s.group i))) (s.has key) ((s.turn i).has key) := by
  have heffect := h.effect_turn i
  cases hgets : s.gets? i with
  | none =>
    rw [hgets] at heffect
    have hrows : (s.turn i).store.table.rows = s.store.table.rows := heffect
    rw [has, has, hrows]
    exact .none _
  | some a =>
    rw [hgets] at heffect
    exact heffect.transition key

theorem changes_cons (s : InFlight ι) (key : Text × Text) (i : ι) (rest : List ι) :
    s.changes key (i :: rest) =
      ((s.gets? i).bind (Answer.change? key (s.group i))).toList ++ (s.turn i).changes key rest := by
  rw [changes, history, List.filterMap_append]
  congr 1
  cases s.gets? i with
  | none => rfl
  | some a => cases h : a.change? key (s.group i) <;> simp [h]

/-- **The changes of a schedule lead on from those before it.** -/
theorem Sound.leads (h : s.Sound) {before : List Change} (hbefore : Leads before (s.has key))
    (schedule : List ι) : Leads (before ++ s.changes key schedule) ((s.after schedule).has key) := by
  induction schedule generalizing s before with
  | nil => simpa [changes, history] using hbefore
  | cons i rest ih =>
    rw [changes_cons, ← List.append_assoc]
    exact ih (h.turn i) (hbefore.append (h.transition_turn key i))

end InFlight

end DiceBot
