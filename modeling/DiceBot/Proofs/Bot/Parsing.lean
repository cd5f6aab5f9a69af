import DiceBot.Bot.Command
import Mathlib.Data.List.DropRight

/-! # What a command carries

The names and expressions that the command parser hands on. A name is not empty and has name
characters only, none of which is blank; an expression is not empty and has no blanks around it. -/

namespace DiceBot

namespace Text

/-! ### Blanks -/

theorem inRanges_append (rs rs' : List CodeRange) (c : Char) :
    inRanges (rs ++ rs') c = (inRanges rs c || inRanges rs' c) := List.any_append

/-- Wider ranges hold more characters. -/
theorem inRanges_mono {rs rs' : List CodeRange} {c : Char}
    (h : ∀ r ∈ rs, ∃ r' ∈ rs', r'.1 ≤ r.1 ∧ r.2 ≤ r'.2) (hc : inRanges rs c) : inRanges rs' c := by
  obtain ⟨r, hr, hl, hu⟩ := inRanges_eq_true_iff.mp hc
  obtain ⟨r', hr', hl', hu'⟩ := h r hr
  exact inRanges_eq_true_iff.mpr ⟨r', hr', Nat.le_trans hl' hl, Nat.le_trans hu hu'⟩

/-- Every blank is a separator or a control character, so it ends a name. -/
theorem isBlank_of_isNameChar {c : Char} (h : isNameChar c) : isBlank c = false := by
  rw [Bool.eq_false_iff]
  intro hblank
  have hwide : inRanges (separatorRanges ++ controlRanges) c :=
    inRanges_mono (by decide) hblank
  rw [inRanges_append] at hwide
  simp [isNameChar, hwide] at h

theorem trimEnd_cons {c : Char} (hc : isBlank c = false) (s : Text) :
    trimEnd (c :: s) = c :: trimEnd s := by
  unfold trimEnd
  rw [List.reverse_cons, List.dropWhile_append]
  split
  case isTrue h => simp [List.isEmpty_iff.mp h, hc]
  case isFalse => simp

theorem trimEnd_trimEnd (s : Text) : trimEnd (trimEnd s) = trimEnd s := by
  unfold trimEnd
  rw [List.reverse_reverse, List.dropWhile_idempotent]

/-- A trimmed text is its own trim. -/
theorem trim_trim (s : Text) : trim (trim s) = trim s := by
  unfold trim
  cases h : s.dropWhile isBlank with
  | nil => rfl
  | cons c t =>
    have hc : isBlank c = false := by
      have hhead := List.head_dropWhile_not isBlank (l := s) (by simp [h])
      simpa [h] using hhead
    rw [trimEnd_cons hc, List.dropWhile_cons_of_neg (by simp [hc]), trimEnd_cons hc, trimEnd_trimEnd]

end Text

namespace Command

variable {s rest name expression : Text}

/-! ### Names and expressions -/

/-- A text that can stand for a name in a command. -/
def IsNameText (s : Text) : Prop := s ≠ [] ∧ ∀ c ∈ s, Text.isNameChar c

/-- A text that can stand for an expression in a command. -/
def IsExpressionText (s : Text) : Prop := s ≠ [] ∧ Text.trim s = s

theorem isNameText_of_readName (h : readName s = some (name, rest)) : IsNameText name := by
  unfold readName at h
  split at h
  · cases h
  case isFalse hne =>
    cases h
    exact ⟨hne, fun c hc => List.mem_takeWhile_imp hc⟩

theorem isExpressionText_of_readExpression (h : readExpression s = some expression) :
    IsExpressionText expression := by
  unfold readExpression at h
  split at h
  · cases h
  case isFalse hne =>
    cases h
    exact ⟨hne, Text.trim_trim s⟩

theorem of_readNamedExpression (h : readNamedExpression s = some (name, expression)) :
    IsNameText name ∧ IsExpressionText expression := by
  unfold readNamedExpression at h
  simp only [Option.bind_eq_bind, Option.bind_eq_some_iff, Option.pure_def, Option.some.injEq,
    Prod.mk.injEq, Prod.exists] at h
  obtain ⟨n, r, hname, u, -, x, hexpression, rfl, rfl⟩ := h
  exact ⟨isNameText_of_readName hname, isExpressionText_of_readExpression hexpression⟩

/-! ### Commands -/

/-- What a command wants to store is a name and an expression that a command can hold. -/
def WellFormed : Command → Prop
  | .make name expression | .edit name expression => IsNameText name ∧ IsExpressionText expression
  | _ => True

/-- A command that is made of a part which is read is well-formed if every such part makes it so. -/
theorem wellFormed_of_map {α : Type} {o : Option α} {f : α → Command} {c : Command}
    (hf : ∀ x, o = some x → (f x).WellFormed) (h : o.map f = some c) : c.WellFormed := by
  obtain ⟨x, hx, rfl⟩ := Option.map_eq_some_iff.mp h
  exact hf x hx

theorem of_operands_readNamedExpression {word : String} {x : Text × Text}
    (h : (operands? word s).bind readNamedExpression = some x) :
    IsNameText x.1 ∧ IsExpressionText x.2 := by
  obtain ⟨t, -, ht⟩ := Option.bind_eq_some_iff.mp h
  exact of_readNamedExpression ht

theorem wellFormed_ofBody (s : Text) : (ofBody s).WellFormed := by
  unfold ofBody
  cases h : (readMake s <|> readEdit s <|> readRollMacro s <|> readList s <|> readView s <|>
      readDelete s <|> readRoll s) with
  | none => trivial
  | some c =>
    simp only [Option.orElse_eq_orElse, Option.orElse_eq_or, Option.or_eq_some_iff] at h
    show c.WellFormed
    rcases h with h | ⟨-, h | ⟨-, h | ⟨-, h | ⟨-, h | ⟨-, h | ⟨-, h⟩⟩⟩⟩⟩⟩
    · refine wellFormed_of_map (fun x hx => ?_) h
      exact of_operands_readNamedExpression hx
    · refine wellFormed_of_map (fun x hx => ?_) h
      exact of_operands_readNamedExpression hx
    · refine wellFormed_of_map (fun _ _ => ?_) h
      trivial
    · obtain ⟨t, -, ht⟩ := Option.bind_eq_some_iff.mp h
      split at ht <;> cases ht
      trivial
    · refine wellFormed_of_map (fun _ _ => ?_) h
      trivial
    · refine wellFormed_of_map (fun _ _ => ?_) h
      trivial
    · refine wellFormed_of_map (fun _ _ => ?_) h
      trivial

theorem wellFormed_of_parse {commandPrefix message : Text} {c : Command}
    (h : parse commandPrefix message = some c) : c.WellFormed := by
  obtain ⟨s, -, rfl⟩ := Option.map_eq_some_iff.mp h
  exact wellFormed_ofBody s

end Command

end DiceBot
