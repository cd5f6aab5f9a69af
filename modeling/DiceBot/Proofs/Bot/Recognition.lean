import DiceBot.Proofs.Bot.Grammar

/-! # The commands of the grammar

At most one command word stands at the front of a text with a gap or the end behind it
(`Command.StandsFirst.unique`), so the readers of commands do not overlap. The command of a body is the
one that it asks for, or help if it asks for none (`Command.ofBody_eq_iff`). -/

namespace DiceBot

namespace Command

open Text

variable {s t : Text}

/-! ### Command words -/

/-- The text begins with the word, which a gap or the end follows. -/
def StandsFirst (w : Word) (s : Text) : Prop := ∃ t, Begins w s t ∧ ∀ c ∈ t.head?, isGap c

theorem Operands.standsFirst {w : Word} (h : Operands w s t) : StandsFirst w s := by
  obtain ⟨gap, hbegins, hne, hgap⟩ := h
  refine ⟨gap ++ t, hbegins, fun c hc => ?_⟩
  rw [List.head?_append_of_ne_nil gap hne] at hc
  exact hgap c (List.mem_of_mem_head? hc)

theorem toLower_of_isGap {c : Char} (h : isGap c) : c.toLower = c := by
  simp only [isGap, Bool.or_eq_true, decide_eq_true_eq] at h
  rcases h with ((rfl | rfl) | rfl) | rfl <;> rfl

theorem Word.isGap_of_mem_text (w : Word) : ∀ c ∈ w.text, isGap c = false := by
  have hall : w.text.all (fun c => !isGap c) = true := by cases w <;> rfl
  intro c hc
  rw [← Bool.not_eq_true']
  exact List.all_eq_true.mp hall c hc

theorem Word.eq_of_text_eq {w w' : Word} (h : w.text = w'.text) : w = w' := by
  revert h
  cases w <;> cases w' <;> decide

/-- The word is the text before the first gap. -/
theorem StandsFirst.text_eq {w : Word} (h : StandsFirst w s) :
    w.text = (s.takeWhile fun c => !isGap c).map Char.toLower := by
  obtain ⟨t, ⟨word, rfl, hword⟩, ht⟩ := h
  have hnogap : ∀ c ∈ word, (!isGap c) = true := by
    intro c hc
    rw [Bool.not_eq_true']
    have hlower : isGap c.toLower = false := by
      refine w.isGap_of_mem_text _ ?_
      rw [← hword]
      exact List.mem_map_of_mem hc
    by_contra hgap
    rw [Bool.not_eq_false] at hgap
    rw [toLower_of_isGap hgap, hgap] at hlower
    cases hlower
  rw [takeWhile_run_append hnogap fun c hc => by simp [ht c hc], hword]

/-- **At most one command word stands first.** -/
theorem StandsFirst.unique {w w' : Word} (h : StandsFirst w s) (h' : StandsFirst w' s) : w = w' :=
  Word.eq_of_text_eq (h.text_eq.trans h'.text_eq.symm)

/-! ### Commands -/

/-- The reader of the commands with a word. -/
def Word.read : Word → Text → Option Command
  | .roll => readRoll
  | .make => readMake
  | .edit => readEdit
  | .rollMacro => readRollMacro
  | .list => readList
  | .view => readView
  | .delete => readDelete

/-- What a reader reads is asked for, with its word standing first. -/
theorem asks_of_read {c : Command} (w : Word) (h : w.read s = some c) :
    Asks s c ∧ StandsFirst w s := by
  cases w with
  | roll =>
    obtain ⟨e, hread, rfl⟩ := Option.map_eq_some_iff.mp h
    obtain ⟨t, hoperands, ht⟩ := (operands_expression_iff .roll).mp hread
    exact ⟨.roll hoperands ht, hoperands.standsFirst⟩
  | make =>
    obtain ⟨named, hread, rfl⟩ := Option.map_eq_some_iff.mp h
    obtain ⟨t, hoperands, ht⟩ := (operands_named_iff .make).mp hread
    exact ⟨.make hoperands ht, hoperands.standsFirst⟩
  | edit =>
    obtain ⟨named, hread, rfl⟩ := Option.map_eq_some_iff.mp h
    obtain ⟨t, hoperands, ht⟩ := (operands_named_iff .edit).mp hread
    exact ⟨.edit hoperands ht, hoperands.standsFirst⟩
  | rollMacro =>
    obtain ⟨named, hread, rfl⟩ := Option.map_eq_some_iff.mp h
    obtain ⟨t, hoperands, ht⟩ := (operands_name_iff .rollMacro).mp hread
    exact ⟨.rollMacro hoperands ht (words_eq_iff.mp rfl), hoperands.standsFirst⟩
  | list =>
    obtain ⟨t, hafter, ht⟩ := Option.bind_eq_some_iff.mp h
    obtain ⟨hskip, hc⟩ := Option.ite_none_right_eq_some.mp ht
    obtain rfl := Option.some.inj hc
    have hbegins := (dropLeadAnyCase?_text_iff .list).mp hafter
    have hgap := List.dropWhile_eq_nil_iff.mp hskip
    exact ⟨.list hbegins hgap, t, hbegins, fun c hc => hgap c (List.mem_of_mem_head? hc)⟩
  | view =>
    obtain ⟨name, hread, rfl⟩ := Option.map_eq_some_iff.mp h
    obtain ⟨t, hoperands, ht⟩ := (operands_loneName_iff .view).mp hread
    exact ⟨.view hoperands ht, hoperands.standsFirst⟩
  | delete =>
    obtain ⟨name, hread, rfl⟩ := Option.map_eq_some_iff.mp h
    obtain ⟨t, hoperands, ht⟩ := (operands_loneName_iff .delete).mp hread
    exact ⟨.delete hoperands ht, hoperands.standsFirst⟩

/-- **What a text asks for is read by one of the readers.** -/
theorem Asks.exists_read {c : Command} (h : Asks s c) : ∃ w : Word, w.read s = some c := by
  cases h with
  | roll h ht =>
    have hread := (operands_expression_iff .roll).mpr ⟨_, h, ht⟩
    exact ⟨.roll, Option.map_eq_some_iff.mpr ⟨_, hread, rfl⟩⟩
  | make h ht =>
    have hread := (operands_named_iff .make).mpr ⟨_, h, ht⟩
    exact ⟨.make, Option.map_eq_some_iff.mpr ⟨_, hread, rfl⟩⟩
  | edit h ht =>
    have hread := (operands_named_iff .edit).mpr ⟨_, h, ht⟩
    exact ⟨.edit, Option.map_eq_some_iff.mpr ⟨_, hread, rfl⟩⟩
  | rollMacro h ht hrest =>
    have hread := (operands_name_iff .rollMacro).mpr ⟨_, h, ht⟩
    exact ⟨.rollMacro, Option.map_eq_some_iff.mpr ⟨_, hread, congrArg _ hrest.words_eq⟩⟩
  | list h ht =>
    have hafter := (dropLeadAnyCase?_text_iff .list).mpr h
    exact ⟨.list, Option.bind_eq_some_iff.mpr
      ⟨_, hafter, if_pos (List.dropWhile_eq_nil_iff.mpr ht)⟩⟩
  | view h ht =>
    have hread := (operands_loneName_iff .view).mpr ⟨_, h, ht⟩
    exact ⟨.view, Option.map_eq_some_iff.mpr ⟨_, hread, rfl⟩⟩
  | delete h ht =>
    have hread := (operands_loneName_iff .delete).mpr ⟨_, h, ht⟩
    exact ⟨.delete, Option.map_eq_some_iff.mpr ⟨_, hread, rfl⟩⟩

/-- Only the reader of the word that stands first answers, so the order of the readers does not
matter. -/
theorem ofBody_of_read {c : Command} {w : Word} (h : w.read s = some c) : ofBody s = c := by
  have hfirst := (asks_of_read w h).2
  have hothers (w' : Word) (hne : w' ≠ w) : w'.read s = none := by
    cases hread : w'.read s with
    | none => rfl
    | some c' => exact absurd ((asks_of_read w' hread).2.unique hfirst) hne
  have hmake := hothers .make
  have hedit := hothers .edit
  have hrollMacro := hothers .rollMacro
  have hlist := hothers .list
  have hview := hothers .view
  have hdelete := hothers .delete
  cases w <;> simp_all [ofBody, Word.read]

theorem ofBody_of_read_eq_none (h : ∀ w : Word, w.read s = none) : ofBody s = .help := by
  have hmake : readMake s = none := h .make
  have hedit : readEdit s = none := h .edit
  have hrollMacro : readRollMacro s = none := h .rollMacro
  have hlist : readList s = none := h .list
  have hview : readView s = none := h .view
  have hdelete : readDelete s = none := h .delete
  have hroll : readRoll s = none := h .roll
  simp [ofBody, hmake, hedit, hrollMacro, hlist, hview, hdelete, hroll]

/-- **A body means what it asks for, and help if it asks for nothing.** -/
theorem ofBody_eq_iff {c : Command} : ofBody s = c ↔ Means s c := by
  constructor
  · rintro rfl
    by_cases hread : ∃ (w : Word) (c : Command), w.read s = some c
    · obtain ⟨w, c, hread⟩ := hread
      rw [ofBody_of_read hread]
      exact .inl (asks_of_read w hread).1
    · refine .inr ⟨ofBody_of_read_eq_none fun w => ?_, fun c hasks => ?_⟩
      · rw [Option.eq_none_iff_forall_ne_some]
        exact fun c hc => hread ⟨w, c, hc⟩
      · obtain ⟨w, hc⟩ := hasks.exists_read
        exact hread ⟨w, c, hc⟩
  · rintro (hasks | ⟨rfl, hnone⟩)
    · obtain ⟨w, hread⟩ := hasks.exists_read
      exact ofBody_of_read hread
    · refine ofBody_of_read_eq_none fun w => ?_
      rw [Option.eq_none_iff_forall_ne_some]
      exact fun c hc => hnone c (asks_of_read w hc).1

/-! ### Messages -/

theorem body?_eq_none_iff {commandPrefix message : Text} :
    body? commandPrefix message = none ↔ ¬ commandPrefix <+: skipGap message := by
  rw [body?, Option.map_eq_none_iff, Option.eq_none_iff_forall_ne_some]
  constructor
  · rintro h ⟨rest, hrest⟩
    exact h rest (dropLead?_eq_some_iff.mpr hrest.symm)
  · intro h rest hrest
    exact h ⟨rest, (dropLead?_eq_some_iff.mp hrest).symm⟩

theorem body?_eq_some_iff {commandPrefix message body : Text} :
    body? commandPrefix message = some body ↔
      ∃ rest, StripsTo isGap message (commandPrefix ++ rest) ∧ StripsTo isGap rest body := by
  rw [body?, Option.map_eq_some_iff]
  constructor
  · rintro ⟨rest, hrest, hbody⟩
    exact ⟨rest, skipGap_eq_iff.mp (dropLead?_eq_some_iff.mp hrest), skipGap_eq_iff.mp hbody⟩
  · rintro ⟨rest, hmessage, hbody⟩
    refine ⟨rest, dropLead?_eq_some_iff.mpr ?_, skipGap_eq_iff.mpr hbody⟩
    exact skipGap_eq_iff.mpr hmessage

/-- **The parser accepts its grammar.** A message is no command exactly if it does not have the prefix
behind the gap it may begin with, so none is one if the prefix itself begins with a gap. Otherwise it
gives the command that is meant by what follows the prefix and the gap behind it. -/
theorem parse_grammar (commandPrefix message : Text) :
    (parse commandPrefix message = none ↔
      ∀ t, StripsTo isGap message t → ¬ commandPrefix <+: t) ∧
    (∀ c ∈ commandPrefix.head?, isGap c → parse commandPrefix message = none) ∧
    ∀ c, parse commandPrefix message = some c ↔
      ∃ rest body, StripsTo isGap message (commandPrefix ++ rest) ∧ StripsTo isGap rest body ∧
        Means body c := by
  have hnone : parse commandPrefix message = none ↔ ¬ commandPrefix <+: skipGap message := by
    rw [parse, Option.map_eq_none_iff, body?_eq_none_iff]
  refine ⟨?_, fun c hc hgap => ?_, fun c => ?_⟩
  · rw [hnone]
    constructor
    · rintro h t ht
      rw [← skipGap_eq_iff.mpr ht]
      exact h
    · exact fun h => h _ (skipGap_eq_iff.mp rfl)
  · rw [hnone]
    rintro ⟨rest, hrest⟩
    obtain ⟨-, -, -, hhead⟩ := stripsTo_dropWhile isGap message
    have hmem : c ∈ (skipGap message).head? := by
      rw [← hrest, List.head?_append, Option.mem_def.mp hc]
      rfl
    have hnogap : isGap c = false := hhead c hmem
    rw [hgap] at hnogap
    cases hnogap
  · rw [parse, Option.map_eq_some_iff]
    constructor
    · rintro ⟨body, hbody, hc⟩
      obtain ⟨rest, hmessage, hrest⟩ := body?_eq_some_iff.mp hbody
      exact ⟨rest, body, hmessage, hrest, ofBody_eq_iff.mp hc⟩
    · rintro ⟨rest, body, hmessage, hrest, hc⟩
      exact ⟨body, body?_eq_some_iff.mpr ⟨rest, hmessage, hrest⟩, ofBody_eq_iff.mpr hc⟩

/-- Any case of the command word, a name that a no-break space ends, inputs with an em space between
them, and a prefix that is never recognised. -/
theorem parse_grammar_rollMacro :
    let message := "\n! Roll-MACRO épée\u00a03\u2003x".toList
    let c := Command.rollMacro "épée".toList ["3".toList, "x".toList]
    parse ['!'] message = some c ∧
      (∃ rest body, StripsTo isGap message (['!'] ++ rest) ∧ StripsTo isGap rest body ∧ Means body c) ∧
      parse [' ', '!'] " !roll 1d6".toList = none := by
  intro message c
  have hparse : parse ['!'] message = some c := by decide +kernel
  refine ⟨hparse, ((parse_grammar _ _).2.2 _).mp hparse, ?_⟩
  exact (parse_grammar _ _).2.1 ' ' rfl (by decide)

end Command

end DiceBot
