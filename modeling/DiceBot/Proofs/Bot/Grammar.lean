import DiceBot.Proofs.Bot.Parsing
import DiceBot.Proofs.Text.Runs

/-! # The grammar of commands

What a text asks for is said by a grammar (`Command.Asks`): a command word, gaps, names, expressions
and inputs one after another. The reader of each part reads just what the grammar says of it, also
behind a command word (`Command.bind_operands_eq_some_iff`). -/

namespace DiceBot

namespace Command

open Text

/-! ### The grammar -/

/-- The command words. -/
inductive Word where
  | roll
  | make
  | edit
  | rollMacro
  | list
  | view
  | delete
deriving DecidableEq

/-- A command word in small letters. -/
def Word.text : Word → Text
  | .roll => "roll".toList
  | .make => "make-macro".toList
  | .edit => "edit-macro".toList
  | .rollMacro => "roll-macro".toList
  | .list => "list-macros".toList
  | .view => "view-macro".toList
  | .delete => "delete-macro".toList

/-- The text is the word, in capitals or small letters, and `t`. -/
def Begins (w : Word) (s t : Text) : Prop := ∃ word, s = word ++ t ∧ word.map Char.toLower = w.text

/-- A text that can separate the parts of a command. -/
def IsGapText (s : Text) : Prop := s ≠ [] ∧ ∀ c ∈ s, isGap c

/-- The text is the word, a gap, and `t` for the operands of the command. -/
def Operands (w : Word) (s t : Text) : Prop := ∃ gap, Begins w s (gap ++ t) ∧ IsGapText gap

/-- An expression with nothing but blanks around it. -/
def HoldsExpression (s expression : Text) : Prop := TrimsTo s expression ∧ expression ≠ []

/-- A name, a gap and an expression. -/
def NamesExpression (s : Text) (named : Text × Text) : Prop :=
  ∃ gap rest, s = named.1 ++ (gap ++ rest) ∧ IsNameText named.1 ∧ IsGapText gap ∧
    HoldsExpression rest named.2

/-- A name that no other name character follows, and what follows it. -/
def NamesFirst (s : Text) (named : Text × Text) : Prop :=
  s = named.1 ++ named.2 ∧ IsNameText named.1 ∧ ∀ c ∈ named.2.head?, isNameChar c = false

/-- A name with nothing but a gap behind it. -/
def NamesOnly (s name : Text) : Prop :=
  ∃ rest, s = name ++ rest ∧ IsNameText name ∧ ∀ c ∈ rest, isGap c

/-- What a text behind the prefix asks for. -/
inductive Asks (s : Text) : Command → Prop where
  | roll {t expression : Text} (h : Operands .roll s t) (ht : HoldsExpression t expression) :
      Asks s (.roll expression)
  | make {t name expression : Text} (h : Operands .make s t)
      (ht : NamesExpression t (name, expression)) : Asks s (.make name expression)
  | edit {t name expression : Text} (h : Operands .edit s t)
      (ht : NamesExpression t (name, expression)) : Asks s (.edit name expression)
  | rollMacro {t name rest : Text} {inputs : List Text} (h : Operands .rollMacro s t)
      (ht : NamesFirst t (name, rest)) (hrest : SplitsInto rest inputs) :
      Asks s (.rollMacro name inputs)
  | list {t : Text} (h : Begins .list s t) (ht : ∀ c ∈ t, isGap c) : Asks s .list
  | view {t name : Text} (h : Operands .view s t) (ht : NamesOnly t name) : Asks s (.view name)
  | delete {t name : Text} (h : Operands .delete s t) (ht : NamesOnly t name) : Asks s (.delete name)

/-- The command that a text behind the prefix means: the one that it asks for, or help. -/
def Means (s : Text) (c : Command) : Prop := Asks s c ∨ c = .help ∧ ∀ c', ¬ Asks s c'

variable {s t rest name expression : Text}

/-! ### The parts -/

theorem isGap_of_isNameChar {c : Char} (h : isNameChar c) : isGap c = false := by
  rw [Bool.eq_false_iff]
  intro hgap
  have hblank := isBlank_of_isGap hgap
  rw [isBlank_of_isNameChar h] at hblank
  cases hblank

/-- A name does not begin with a gap. -/
theorem IsNameText.head?_append (h : IsNameText name) (rest : Text) :
    ∀ c ∈ (name ++ rest).head?, isGap c = false := by
  obtain ⟨hne, hchars⟩ := h
  cases name with
  | nil => exact absurd rfl hne
  | cons d name =>
    rintro c ⟨⟩
    exact isGap_of_isNameChar (hchars d (List.mem_cons_self ..))

/-- A gap ends a name. -/
theorem head?_of_forall_isGap {gap : Text} (h : ∀ c ∈ gap, isGap c) :
    ∀ c ∈ gap.head?, isNameChar c = false := by
  intro c hc
  rw [Bool.eq_false_iff]
  intro hname
  have hgap := h c (List.mem_of_mem_head? hc)
  rw [isGap_of_isNameChar hname] at hgap
  cases hgap

theorem IsGapText.head?_append {gap : Text} (h : IsGapText gap) (rest : Text) :
    ∀ c ∈ (gap ++ rest).head?, isNameChar c = false := by
  rw [List.head?_append_of_ne_nil gap h.1]
  exact head?_of_forall_isGap h.2

theorem needGap?_append {gap : Text} (h : IsGapText gap) (rest : Text) :
    needGap? (gap ++ rest) = some (skipGap rest) := by
  obtain ⟨run, hrest, hrun, hhead⟩ := skipGap_eq_iff.mp (rfl : skipGap rest = skipGap rest)
  refine needGap?_eq_some_iff.mpr ⟨gap ++ run, ?_, ?_, ?_, hhead⟩
  · exact List.append_ne_nil_of_left_ne_nil h.1 run
  · rw [List.append_assoc, ← hrest]
  · exact List.forall_mem_append.mpr ⟨h.2, hrun⟩

theorem exists_of_needGap? (h : needGap? s = some t) : ∃ gap, IsGapText gap ∧ s = gap ++ t := by
  obtain ⟨gap, hne, hs, hgap, -⟩ := needGap?_eq_some_iff.mp h
  exact ⟨gap, ⟨hne, hgap⟩, hs⟩

theorem readName_eq_some_iff {named : Text × Text} : readName s = some named ↔ NamesFirst s named := by
  obtain ⟨name, rest⟩ := named
  constructor
  · intro h
    have hname := isNameText_of_readName h
    unfold readName at h
    split at h
    · cases h
    · cases h
      obtain ⟨-, -, -, hhead⟩ := stripsTo_dropWhile isNameChar s
      exact ⟨List.takeWhile_append_dropWhile.symm, hname, hhead⟩
  · rintro ⟨rfl, ⟨hne, hchars⟩, hhead⟩
    have htake : nameOf (name ++ rest) = name := takeWhile_run_append hchars hhead
    have hdrop : afterName (name ++ rest) = rest := dropWhile_run_append hchars hhead
    rw [readName, htake, hdrop, if_neg hne]

theorem readExpression_eq_some_iff :
    readExpression s = some expression ↔ HoldsExpression s expression := by
  rw [HoldsExpression, ← trim_eq_iff, readExpression, Option.ite_none_left_eq_some,
    Option.some.injEq]
  constructor
  · rintro ⟨hne, rfl⟩
    exact ⟨rfl, hne⟩
  · rintro ⟨rfl, hne⟩
    exact ⟨hne, rfl⟩

/-- A gap in front of an expression does not matter. -/
theorem readExpression_skipGap (s : Text) : readExpression (skipGap s) = readExpression s := by
  obtain ⟨run, hs, hrun, -⟩ := skipGap_eq_iff.mp (rfl : skipGap s = skipGap s)
  have htrim : trim s = trim (skipGap s) := by
    conv_lhs => rw [hs]
    exact trim_gap_append hrun
  rw [readExpression, readExpression, htrim]

theorem readNamedExpression_eq_some_iff {named : Text × Text} :
    readNamedExpression s = some named ↔ NamesExpression s named := by
  obtain ⟨name, expression⟩ := named
  simp only [readNamedExpression, Option.bind_eq_bind, Option.bind_eq_some_iff, Option.pure_def,
    Option.some.injEq, Prod.mk.injEq, Prod.exists]
  constructor
  · rintro ⟨n, u, hname, v, hneed, e, he, rfl, rfl⟩
    obtain ⟨rfl, hn, -⟩ := readName_eq_some_iff.mp hname
    obtain ⟨gap, hgap, rfl⟩ := exists_of_needGap? hneed
    exact ⟨gap, v, rfl, hn, hgap, readExpression_eq_some_iff.mp he⟩
  · rintro ⟨gap, rest, rfl, hname, hgap, he⟩
    refine ⟨name, gap ++ rest, ?_, skipGap rest, needGap?_append hgap rest, expression, ?_, rfl, rfl⟩
    · exact readName_eq_some_iff.mpr ⟨rfl, hname, hgap.head?_append rest⟩
    · rw [readExpression_skipGap]
      exact readExpression_eq_some_iff.mpr he

theorem readLoneName_eq_some_iff : readLoneName s = some name ↔ NamesOnly s name := by
  simp only [readLoneName, Option.bind_eq_bind, Option.bind_eq_some_iff, Prod.exists,
    Option.ite_none_right_eq_some, Option.some.injEq]
  constructor
  · rintro ⟨n, rest, hname, hrest, rfl⟩
    obtain ⟨rfl, hn, -⟩ := readName_eq_some_iff.mp hname
    exact ⟨rest, rfl, hn, List.dropWhile_eq_nil_iff.mp hrest⟩
  · rintro ⟨rest, rfl, hname, hrest⟩
    refine ⟨name, rest, ?_, List.dropWhile_eq_nil_iff.mpr hrest, rfl⟩
    exact readName_eq_some_iff.mpr ⟨rfl, hname, head?_of_forall_isGap hrest⟩

/-! ### Operands -/

theorem Word.map_toLower_text (w : Word) : w.text.map Char.toLower = w.text := by
  cases w <;> rfl

theorem dropLeadAnyCase?_text_iff (w : Word) : dropLeadAnyCase? w.text s = some t ↔ Begins w s t :=
  dropLeadAnyCase?_eq_some_iff w.map_toLower_text

/-- **A part behind a command word is read just as the grammar says**, if gaps in front of it do not
matter. -/
theorem bind_operands_eq_some_iff (w : Word) {α : Type} {part : Text → Option α}
    {Part : Text → α → Prop} {x : α} (hpart : ∀ {t}, part t = some x ↔ Part t x)
    (hgap : ∀ {t}, Part t x → part (skipGap t) = some x) :
    ((dropLeadAnyCase? w.text s).bind needGap?).bind part = some x ↔
      ∃ t, Operands w s t ∧ Part t x := by
  constructor
  · intro h
    obtain ⟨t, hoperands, ht⟩ := Option.bind_eq_some_iff.mp h
    obtain ⟨u, hword, hneed⟩ := Option.bind_eq_some_iff.mp hoperands
    obtain ⟨gap, hgap, rfl⟩ := exists_of_needGap? hneed
    exact ⟨t, ⟨gap, (dropLeadAnyCase?_text_iff w).mp hword, hgap⟩, hpart.mp ht⟩
  · rintro ⟨t, ⟨gap, hword, hgaptext⟩, ht⟩
    rw [(dropLeadAnyCase?_text_iff w).mpr hword, Option.bind_some, needGap?_append hgaptext,
      Option.bind_some]
    exact hgap ht

/-- A gap in front of a name would be no part of it. -/
theorem skipGap_name_append (h : IsNameText name) (rest : Text) :
    skipGap (name ++ rest) = name ++ rest := dropWhile_of_head? (h.head?_append rest)

theorem operands_expression_iff (w : Word) :
    ((dropLeadAnyCase? w.text s).bind needGap?).bind readExpression = some expression ↔
      ∃ t, Operands w s t ∧ HoldsExpression t expression := by
  refine bind_operands_eq_some_iff w readExpression_eq_some_iff fun {t} ht => ?_
  rw [readExpression_skipGap]
  exact readExpression_eq_some_iff.mpr ht

theorem operands_named_iff (w : Word) {named : Text × Text} :
    ((dropLeadAnyCase? w.text s).bind needGap?).bind readNamedExpression = some named ↔
      ∃ t, Operands w s t ∧ NamesExpression t named := by
  refine bind_operands_eq_some_iff w readNamedExpression_eq_some_iff fun {t} ht => ?_
  obtain ⟨gap, rest, rfl, hname, -⟩ := id ht
  rw [skipGap_name_append hname]
  exact readNamedExpression_eq_some_iff.mpr ht

theorem operands_name_iff (w : Word) {named : Text × Text} :
    ((dropLeadAnyCase? w.text s).bind needGap?).bind readName = some named ↔
      ∃ t, Operands w s t ∧ NamesFirst t named := by
  refine bind_operands_eq_some_iff w readName_eq_some_iff fun {t} ht => ?_
  obtain ⟨rfl, hname, -⟩ := id ht
  rw [skipGap_name_append hname]
  exact readName_eq_some_iff.mpr ht

theorem operands_loneName_iff (w : Word) :
    ((dropLeadAnyCase? w.text s).bind needGap?).bind readLoneName = some name ↔
      ∃ t, Operands w s t ∧ NamesOnly t name := by
  refine bind_operands_eq_some_iff w readLoneName_eq_some_iff fun {t} ht => ?_
  obtain ⟨rest, rfl, hname, -⟩ := id ht
  rw [skipGap_name_append hname]
  exact readLoneName_eq_some_iff.mpr ht

end Command

end DiceBot
