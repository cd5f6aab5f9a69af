import DiceBot.Proofs.Template.Validation

/-! # Filling in operands

A template is read like an expression, but a placeholder is read as a part of its own (`parts`): a
placeholder belongs to no token, so the tokens among the parts are the tokens of the template
(`HasParts.tokens_eq`). Filling in texts of operands for placeholders that stand alone then means putting the
tokens of these texts in the place of the placeholders, and no other part changes (`parts_fill`): an
argument neither grows together with what stands next to it nor is changed by a later one. So the filled
text is valid if the template passes over nothing but blanks (`tokens_fill`). -/

namespace DiceBot.Template

/-! ### The parts of a template -/

/-- A part of a template: a token, a placeholder, or a character that is passed over. -/
inductive Part where
  | token (token : Token)
  | placeholder (letter : Char)
  | skipped (c : Char)
deriving Repr, DecidableEq

/-- The parts of a template from left to right. -/
def parts : Text → List Part
  | [] => []
  | c :: s =>
    if c ∈ placeholders then .placeholder c :: parts s
    else
      match _h : Lexer.readToken (c :: s) with
      | some (k, rest) => .token ⟨k, Lexer.consumed (c :: s) rest⟩ :: parts rest
      | none => .skipped c :: parts s
termination_by s => s.length
decreasing_by
  · exact Nat.lt_succ_self _
  · exact Lexer.length_lt_of_readToken _h
  · exact Nat.lt_succ_self _

namespace Part

/-- The token of a part that is one. -/
def token? : Part → Option Token
  | token t => some t
  | placeholder _ | skipped _ => none

/-- A part that a valid text may have: a token or a blank. -/
def IsPlain : Part → Prop
  | token _ => True
  | placeholder _ => False
  | skipped c => Text.isBlank c

/-- What becomes of a part when operands are filled in: a placeholder becomes the operand with its place
in the list. -/
def filled (operands : List Token) : Part → Part
  | placeholder letter =>
    match operands[placeholders.idxOf letter]? with
    | some t => token t
    | none => placeholder letter
  | p => p

end Part

theorem parts_placeholder {c : Char} (hc : c ∈ placeholders) (s : Text) :
    parts (c :: s) = .placeholder c :: parts s := by
  rw [parts, if_pos hc]

theorem parts_skipped {c : Char} {s : Text} (hc : c ∉ placeholders)
    (h : Lexer.readToken (c :: s) = none) : parts (c :: s) = .skipped c :: parts s := by
  rw [parts, if_neg hc]
  split
  · next k rest h' =>
    rw [h] at h'
    cases h'
  · rfl

/-- The text of a token holds no placeholders. -/
theorem not_mem_placeholders_of_token {k : TokenKind} {x : Text} (h : Spells k x) :
    ∀ c ∈ x, c ∉ placeholders := by
  cases k with
  | operand o => exact not_mem_placeholders_of_spells h
  | operator op =>
    cases h
    cases op <;> exact List.forall_mem_singleton.mpr (by decide)
  | leftParen | rightParen =>
    cases h
    exact List.forall_mem_singleton.mpr (by decide)

/-- No token begins with a placeholder. -/
theorem readToken_placeholder {c : Char} (hc : c ∈ placeholders) (s : Text) :
    Lexer.readToken (c :: s) = none := by
  refine Option.eq_none_iff_forall_ne_some.mpr fun r hr => ?_
  obtain ⟨x, hx, hs, -⟩ := Lexer.readToken_spells hr
  obtain ⟨d, y, rfl⟩ := List.exists_cons_of_ne_nil hx.ne_nil
  obtain ⟨rfl, -⟩ := List.cons.inj hs
  exact not_mem_placeholders_of_token hx c List.mem_cons_self hc

theorem parts_token {k : TokenKind} {x s : Text} (hx : Spells k x)
    (h : Lexer.readToken (x ++ s) = some (k, s)) : parts (x ++ s) = .token ⟨k, x⟩ :: parts s := by
  obtain ⟨c, x, rfl⟩ := List.exists_cons_of_ne_nil hx.ne_nil
  have hc : c ∉ placeholders := fun hc => by
    rw [List.cons_append, readToken_placeholder hc] at h
    cases h
  rw [List.cons_append, parts, if_neg hc]
  split
  · next k' rest h' =>
    rw [List.cons_append, h', Option.some.injEq, Prod.mk.injEq] at h
    obtain ⟨rfl, rfl⟩ := h
    rw [← List.cons_append, Lexer.consumed_append]
  · next h' =>
    rw [List.cons_append, h'] at h
    cases h

/-- The run of the scan: the template read and its parts. -/
inductive HasParts : Text → List Part → Prop where
  | nil : HasParts [] []
  | placeholder {c : Char} {s : Text} {ps : List Part} : c ∈ placeholders → HasParts s ps →
      HasParts (c :: s) (.placeholder c :: ps)
  | skipped {c : Char} {s : Text} {ps : List Part} : c ∉ placeholders →
      Lexer.readToken (c :: s) = none → HasParts s ps → HasParts (c :: s) (.skipped c :: ps)
  | token {k : TokenKind} {x s : Text} {ps : List Part} : Spells k x →
      ¬(endsWithDigit x ∧ startsWithDigit s) → Lexer.readToken (x ++ s) = some (k, s) →
      HasParts s ps → HasParts (x ++ s) (.token ⟨k, x⟩ :: ps)

theorem hasParts_parts : ∀ s : Text, HasParts s (parts s)
  | [] => by
    rw [parts]
    exact .nil
  | c :: s => by
    by_cases hc : c ∈ placeholders
    · rw [parts_placeholder hc]
      exact .placeholder hc (hasParts_parts s)
    · cases h : Lexer.readToken (c :: s) with
      | none =>
        rw [parts_skipped hc h]
        exact .skipped hc h (hasParts_parts s)
      | some r =>
        obtain ⟨k, rest⟩ := r
        have hlt : rest.length < s.length + 1 := Lexer.length_lt_of_readToken h
        obtain ⟨x, hx, hs, hsep⟩ := Lexer.readToken_spells h
        have hrest := hasParts_parts rest
        rw [hs] at h ⊢
        rw [parts_token hx h]
        exact .token hx hsep h hrest
termination_by s => s.length
decreasing_by all_goals rw [List.length_cons]; omega

/-- **The tokens among the parts** are the tokens of the text. -/
theorem HasParts.tokens_eq {s : Text} {ps : List Part} (h : HasParts s ps) :
    Lexer.tokens s = ps.filterMap Part.token? := by
  induction h with
  | nil => rw [Lexer.tokens, List.filterMap_nil]
  | placeholder hc _ ih =>
    rw [Lexer.tokens_of_readToken_eq_none (readToken_placeholder hc _), ih]
    rfl
  | skipped _ h _ ih =>
    rw [Lexer.tokens_of_readToken_eq_none h, ih]
    rfl
  | token hx _ h _ ih =>
    rw [Lexer.tokens_of_readToken hx.ne_nil h, ih]
    rfl

theorem HasParts.isCut {s : Text} {ps : List Part} (h : HasParts s ps)
    (hplain : ∀ p ∈ ps, p.IsPlain) : IsCut s (ps.filterMap Part.token?) := by
  induction h with
  | nil => exact .nil
  | placeholder _ _ _ => exact (hplain _ List.mem_cons_self).elim
  | skipped _ _ _ ih =>
    obtain ⟨hc, hplain⟩ := List.forall_mem_cons.mp hplain
    exact .blank hc (ih hplain)
  | token hx hsep _ _ ih => exact .token hx hsep (ih (List.forall_mem_cons.mp hplain).2)

theorem isPlain_of_isCut {s : Text} {ts : List Token} (h : IsCut s ts) :
    ∀ p ∈ parts s, p.IsPlain := by
  induction h with
  | nil =>
    rw [parts]
    exact List.forall_mem_nil _
  | @blank c s ts hc _ ih =>
    have hletter : c ∉ placeholders := not_mem_placeholders_of_isDelimiter (by simp [isDelimiter, hc])
    rw [parts_skipped hletter (Lexer.readToken_blank hc)]
    exact List.forall_mem_cons.mpr ⟨hc, ih⟩
  | token hx hsep hs ih =>
    rw [parts_token hx (Lexer.readToken_append hx hsep hs.not_resumes)]
    exact List.forall_mem_cons.mpr ⟨trivial, ih⟩

/-- **A text is valid** if its parts are tokens and blanks. -/
theorem validate_eq_ok_iff_parts {s : Text} : Lexer.validate s (Lexer.tokens s) = .ok () ↔
    ∀ p ∈ parts s, p.IsPlain := by
  constructor
  · exact fun h => isPlain_of_isCut (isCut_iff.mpr ⟨rfl, h⟩)
  · intro h
    have hcut := (hasParts_parts s).isCut h
    rw [← (hasParts_parts s).tokens_eq] at hcut
    exact (isCut_iff.mp hcut).2

/-! ### Parts of parts -/

theorem HasParts.append {s t : Text} {ps : List Part} (h : HasParts s ps) (hst : Parted s t) :
    parts (s ++ t) = ps ++ parts t := by
  induction h with
  | nil => rfl
  | @placeholder c s ps hc _ ih =>
    rw [List.cons_append, parts_placeholder hc, ih (Parted.of_append (x := [c]) hst),
      List.cons_append]
  | @skipped c s ps hc h _ ih =>
    have hread := Lexer.readToken_severed hst.severed
    rw [h, Lexer.followed_none, List.cons_append] at hread
    rw [List.cons_append, parts_skipped hc hread, ih (Parted.of_append (x := [c]) hst),
      List.cons_append]
  | @token k x s ps hx _ h _ ih =>
    obtain ⟨c, y, rfl⟩ := List.exists_cons_of_ne_nil hx.ne_nil
    have hread := Lexer.readToken_severed (c := c) (p := y ++ s) hst.severed
    rw [← List.cons_append, h, Lexer.followed_some, List.append_assoc] at hread
    rw [List.append_assoc, parts_token hx hread, ih hst.of_append, List.cons_append]

/-- **The parts of two texts**, one behind the other. -/
theorem parts_append {s t : Text} (h : Parted s t) : parts (s ++ t) = parts s ++ parts t :=
  (hasParts_parts s).append h

/-- The text of a token is one part. -/
theorem parts_of_spells {t : Token} (h : Spells t.kind t.text) : parts t.text = [.token t] := by
  have hread := Lexer.readToken_append (s := []) h (fun hd => by cases hd.2) rfl
  have hparts := parts_token h hread
  rw [List.append_nil, parts] at hparts
  exact hparts

/-! ### Filling in operands -/

/-- A token that is a single operand. -/
def IsOperand (t : Token) : Prop := (∃ o, t.kind = .operand o) ∧ Spells t.kind t.text

/-- A placeholder becomes the operand of its place. -/
theorem filled_placeholder {operands : List Token} {i : Nat} {t : Token} {letter : Char}
    (ht : operands[i]? = some t) (hletter : placeholders[i]? = some letter) :
    (Part.placeholder letter).filled operands = .token t := by
  obtain ⟨hi, rfl⟩ := List.getElem?_eq_some_iff.mp hletter
  rw [Part.filled, placeholders_nodup.idxOf_getElem i hi, ht]

/-- What is no placeholder stays as it is. -/
theorem HasParts.map_filled {s : Text} {ps : List Part} (h : HasParts s ps)
    (hs : ∀ c ∈ s, c ∉ placeholders) (operands : List Token) :
    ps.map (Part.filled operands) = ps := by
  induction h with
  | nil => rfl
  | placeholder hc _ ih => exact absurd hc (hs _ List.mem_cons_self)
  | skipped _ _ _ ih => exact congrArg _ (ih (List.forall_mem_cons.mp hs).2)
  | token _ _ _ _ ih => exact congrArg _ (ih (List.forall_mem_append.mp hs).2)

/-- Every placeholder of the template has an operand. -/
theorem Covers.exists_operand {operands : List Token} {template : Text} {c : Char}
    (h : Covers (operands.map Token.text) template) (hmem : c ∈ template) (hc : c ∈ placeholders) :
    ∃ (i : Nat) (t : Token), operands[i]? = some t ∧ placeholders[i]? = some c := by
  obtain ⟨x, hx⟩ := h c hmem hc
  obtain ⟨i, hi⟩ := List.mem_iff_getElem?.mp hx
  obtain ⟨harg, hletter⟩ := List.getElem?_zip_eq_some.mp hi
  rw [List.getElem?_map, Option.map_eq_some_iff] at harg
  obtain ⟨t, ht, -⟩ := harg
  exact ⟨i, t, ht, hletter⟩

/-- The text filled in for a placeholder is the text of its operand. -/
theorem fill_operand {operands : List Token} {i : Nat} {t : Token} {c : Char}
    (ht : operands[i]? = some t) (hc : placeholders[i]? = some c) (hspells : Spells t.kind t.text) :
    fill [c] (operands.map Token.text) = t.text := by
  have harg : (operands.map Token.text)[i]? = some t.text := by rw [List.getElem?_map, ht]; rfl
  exact fill_placeholder
    (List.mem_of_getElem? (List.getElem?_zip_eq_some (z := (t.text, c)).mpr ⟨harg, hc⟩))
    (not_mem_placeholders_of_token hspells)

/-- **An operand takes the place of its placeholder**, and the other parts stay. -/
theorem parts_fill {operands : List Token} (hoperands : ∀ t ∈ operands, IsOperand t) :
    ∀ {template : Text}, PlaceholdersAlone template →
      Covers (operands.map Token.text) template →
      parts (fill template (operands.map Token.text)) =
        (parts template).map (Part.filled operands) := by
  intro template halone hcov
  rcases exists_first_placeholder template with hnone | ⟨p, c, s, rfl, hp, hc⟩
  · rw [fill_eq_self hnone, (hasParts_parts template).map_filled hnone]
  · obtain ⟨i, t, ht, hi⟩ := hcov.exists_operand (by simp) hc
    have hspells : Spells t.kind t.text := (hoperands t (List.mem_of_getElem? ht)).2
    have halone_c : PlaceholdersAlone (c :: s) := halone.of_append
    have halone_s : PlaceholdersAlone s := PlaceholdersAlone.of_append (s := [c]) halone_c
    have hcov_s : Covers (operands.map Token.text) s := fun d hd => hcov d (by simp [hd])
    have hsplit : fill (p ++ c :: s) (operands.map Token.text) =
        p ++ (t.text ++ fill s (operands.map Token.text)) := by
      rw [fill_append, fill_eq_self hp, ← List.singleton_append, fill_append,
        fill_operand ht hi hspells]
    calc parts (fill (p ++ c :: s) (operands.map Token.text))
        = parts p ++ (parts t.text ++ parts (fill s (operands.map Token.text))) := by
          rw [hsplit, parts_append (halone.parted_left hc _),
            parts_append (halone_c.parted_right hc _ _)]
      _ = parts p ++ (.token t :: (parts s).map (Part.filled operands)) := by
          -- what follows the placeholder is a shorter template of the same kind
          rw [parts_of_spells hspells, parts_fill hoperands halone_s hcov_s, List.singleton_append]
      _ = (parts (p ++ c :: s)).map (Part.filled operands) := by
          rw [parts_append (halone.parted_left hc _), parts_placeholder hc, List.map_append,
            List.map_cons, filled_placeholder ht hi, (hasParts_parts p).map_filled hp]
termination_by template => template.length

/-- A part that is a placeholder is a letter of the template. -/
theorem HasParts.mem_of_placeholder {s : Text} {ps : List Part} (h : HasParts s ps) {c : Char}
    (hmem : .placeholder c ∈ ps) : c ∈ s ∧ c ∈ placeholders := by
  induction h with
  | nil => cases hmem
  | placeholder hc _ ih =>
    rcases List.mem_cons.mp hmem with heq | hmem
    · cases heq
      exact ⟨List.mem_cons_self, hc⟩
    · exact (ih hmem).imp_left (List.mem_cons_of_mem _)
  | skipped _ _ _ ih =>
    rcases List.mem_cons.mp hmem with heq | hmem
    · cases heq
    · exact (ih hmem).imp_left (List.mem_cons_of_mem _)
  | token _ _ _ _ ih =>
    rcases List.mem_cons.mp hmem with heq | hmem
    · cases heq
    · exact (ih hmem).imp_left (List.mem_append_right _)

/-- **Filling in operands puts their tokens in the place of the placeholders.** The tokens of a template
whose placeholders stand alone are those of its parts, and the tokens of the filled text are those of the
same parts, each placeholder replaced by the operand of its place; the filled text is valid if and only if
the characters that are passed over in the template are blanks. -/
theorem tokens_fill {template : Text} {operands : List Token} (halone : PlaceholdersAlone template)
    (hoperands : ∀ t ∈ operands, IsOperand t)
    (hcovers : Covers (operands.map Token.text) template) :
    Lexer.tokens template = (parts template).filterMap Part.token? ∧
      Lexer.tokens (fill template (operands.map Token.text)) =
        ((parts template).map (Part.filled operands)).filterMap Part.token? ∧
      (∀ letter, .placeholder letter ∈ parts template → ∃ (i : Nat) (t : Token),
        operands[i]? = some t ∧ placeholders[i]? = some letter ∧
          (Part.placeholder letter).filled operands = .token t) ∧
      (Lexer.validate (fill template (operands.map Token.text))
          (Lexer.tokens (fill template (operands.map Token.text))) = .ok () ↔
        ∀ c, .skipped c ∈ parts template → Text.isBlank c) := by
  have hparts := parts_fill hoperands halone hcovers
  have hletters : ∀ letter, .placeholder letter ∈ parts template → ∃ (i : Nat) (t : Token),
      operands[i]? = some t ∧ placeholders[i]? = some letter ∧
        (Part.placeholder letter).filled operands = .token t := by
    intro letter hmem
    obtain ⟨hin, hletter⟩ := (hasParts_parts template).mem_of_placeholder hmem
    obtain ⟨i, t, ht, hi⟩ := hcovers.exists_operand hin hletter
    exact ⟨i, t, ht, hi, filled_placeholder ht hi⟩
  refine ⟨(hasParts_parts _).tokens_eq, ?_, hletters, ?_⟩
  · rw [(hasParts_parts _).tokens_eq, hparts]
  · rw [validate_eq_ok_iff_parts, hparts, List.forall_mem_map]
    constructor
    · exact fun h c hc => h _ hc
    · intro h p hp
      cases p with
      | token t => trivial
      | placeholder letter =>
        obtain ⟨i, t, -, -, hfilled⟩ := hletters letter hp
        rw [hfilled]
        trivial
      | skipped c => exact h c hp

/-- A placeholder that occurs twice, next to a number and to a parenthesis; the `x` is passed over. -/
theorem tokens_fill_twice :
    let operands : List Token := [⟨.operand (.dice ⟨2, 6, .highest⟩), "2d6!".toList⟩,
      ⟨.operand (.integer 7), "07".toList⟩]
    (PlaceholdersAlone "3 A*(B-A)x".toList ∧ (∀ t ∈ operands, IsOperand t) ∧
      Covers (operands.map Token.text) "3 A*(B-A)x".toList) ∧
    Lexer.tokens (fill "3 A*(B-A)x".toList (operands.map Token.text)) =
      [⟨.operand (.integer 3), ['3']⟩, ⟨.operand (.dice ⟨2, 6, .highest⟩), "2d6!".toList⟩,
        ⟨.operator .mul, ['*']⟩, ⟨.leftParen, ['(']⟩, ⟨.operand (.integer 7), "07".toList⟩,
        ⟨.operator .sub, ['-']⟩, ⟨.operand (.dice ⟨2, 6, .highest⟩), "2d6!".toList⟩,
        ⟨.rightParen, [')']⟩] ∧
    Lexer.validate (fill "3 A*(B-A)x".toList (operands.map Token.text))
      (Lexer.tokens (fill "3 A*(B-A)x".toList (operands.map Token.text))) ≠ .ok () := by
  intro operands
  have halone : PlaceholdersAlone "3 A*(B-A)x".toList := by
    unfold PlaceholdersAlone
    decide
  have hoperands : ∀ t ∈ operands, IsOperand t := by
    have hrepeats : IsCount ['2'] 2 := ⟨List.forall_mem_singleton.mpr rfl, by decide, by decide⟩
    have hsides : IsCount ['6'] 6 := ⟨List.forall_mem_singleton.mpr rfl, by decide, by decide⟩
    have hnumber : Spells (.operand (.integer (Text.digitsValue "07".toList))) "07".toList :=
      .integer (by decide) (List.all_eq_true.mp rfl) (by decide)
    intro t ht
    rcases List.mem_pair.mp ht with rfl | rfl
    · exact ⟨⟨_, rfl⟩, .dice .highest hrepeats hsides⟩
    · exact ⟨⟨_, rfl⟩, hnumber⟩
  have hcovers : Covers (operands.map Token.text) "3 A*(B-A)x".toList := by
    intro c hc hletter
    have hletters : "3 A*(B-A)x".toList.filter (· ∈ placeholders) = ['A', 'B', 'A'] := by decide
    have hAB : c ∈ ['A', 'B', 'A'] := hletters ▸ List.mem_filter.mpr ⟨hc, decide_eq_true hletter⟩
    rcases List.mem_cons.mp hAB with rfl | hBA
    · exact ⟨"2d6!".toList, by decide⟩
    · rcases List.mem_pair.mp hBA with rfl | rfl
      · exact ⟨"07".toList, by decide⟩
      · exact ⟨"2d6!".toList, by decide⟩
  obtain ⟨-, htokens, -, hvalid⟩ := tokens_fill halone hoperands hcovers
  have hparts : parts "3 A*(B-A)x".toList = [.token ⟨.operand (.integer 3), ['3']⟩, .skipped ' ',
      .placeholder 'A', .token ⟨.operator .mul, ['*']⟩, .token ⟨.leftParen, ['(']⟩,
      .placeholder 'B', .token ⟨.operator .sub, ['-']⟩, .placeholder 'A',
      .token ⟨.rightParen, [')']⟩, .skipped 'x'] := by decide +kernel
  rw [hparts] at htokens hvalid
  refine ⟨⟨halone, hoperands, hcovers⟩, htokens, fun h => ?_⟩
  exact absurd (hvalid.mp h 'x' (by simp)) (by decide)

end DiceBot.Template
