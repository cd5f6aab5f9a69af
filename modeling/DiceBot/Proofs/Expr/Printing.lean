import DiceBot.Proofs.Expr.Locality

/-! # Printing tokens

A kind of token whose numbers are in range is printed as a spelling of it (`TokenKind.spells_display`), and
what is spelled by any text is in range (`Spells.inRange`). So printed tokens with blanks between them are
read back, where two numbers must not touch, and what is read from any text can be printed and read again
(`tokens_printed`). -/

namespace DiceBot

/-! ### Numbers in range -/

/-- The numbers of the kind are those of a token: no integer is negative or too large, and every dice term
has dice and sides. -/
def TokenKind.InRange : TokenKind → Prop
  | .operand (.integer n) => 0 ≤ n ∧ n ≤ maxValue
  | .operand (.dice t) => 0 < t.repeats.toNat ∧ 0 < t.sides.toNat
  | .operator _ | .leftParen | .rightParen => True

/-- A number of dice or of sides is printed as a count. -/
theorem isCount_ofNat {n : UInt32} (hn : 0 < n.toNat) : IsCount (Text.ofNat n.toNat) n :=
  ⟨fun _ hc => Text.isDigit_of_mem_ofNat hc, Text.digitsValue_ofNat _, hn⟩

/-- A term with dice and sides is spelled as it is displayed. -/
theorem DiceTerm.spells_display {t : DiceTerm} (hr : 0 < t.repeats.toNat) (hs : 0 < t.sides.toNat) :
    Spells (.operand (.dice t)) t.display :=
  .dice t.modifier (isCount_ofNat hr) (isCount_ofNat hs)

/-- **A kind in range is spelled as it is displayed.** -/
theorem TokenKind.spells_display {k : TokenKind} (h : k.InRange) : Spells k k.display := by
  cases k with
  | operand o =>
    cases o with
    | integer n =>
      obtain ⟨m, rfl⟩ := Int.eq_ofNat_of_zero_le h.1
      have hvalue := Text.digitsValue_ofNat m
      have hspells : Spells (.operand (.integer (Text.digitsValue (Text.ofNat m)))) (Text.ofNat m) :=
        .integer (Text.ofNat_ne_nil m) (fun _ hc => Text.isDigit_of_mem_ofNat hc)
          (by rw [hvalue]; exact h.2)
      rwa [hvalue] at hspells
    | dice t => exact DiceTerm.spells_display h.1 h.2
  | operator op => exact .operator op
  | leftParen => exact .leftParen
  | rightParen => exact .rightParen

/-- **What is spelled is in range.** -/
theorem Spells.inRange {k : TokenKind} {x : Text} (h : Spells k x) : k.InRange := by
  cases h with
  | integer _ _ hle => exact ⟨Int.natCast_nonneg _, hle⟩
  | dice k hn hm => exact ⟨hn.pos, hm.pos⟩
  | operator | leftParen | rightParen => trivial

/-- Every token of a text is a spelling. -/
theorem Lexer.Scans.spells {s : Text} {ts : List Token} (h : Scans s ts) :
    ∀ t ∈ ts, Spells t.kind t.text := by
  induction h with
  | nil => exact List.forall_mem_nil _
  | skip _ _ ih => exact ih
  | token hx _ _ _ ih => exact List.forall_mem_cons.mpr ⟨hx, ih⟩

/-! ### Printed tokens -/

/-- The kinds printed one after another, each with a gap in front of it, and a gap at the end. -/
def printed (ps : List (Text × TokenKind)) (last : Text) : Text :=
  ps.flatMap (fun p => p.1 ++ p.2.display) ++ last

/-- Where a printed piece that ends in a digit and one that begins with a digit meet, there is a gap. -/
def Apart (p q : Text × TokenKind) : Prop :=
  q.1 = [] → ¬(endsWithDigit p.2.display ∧ startsWithDigit q.2.display)

instance (p q : Text × TokenKind) : Decidable (Apart p q) := inferInstanceAs (Decidable (_ → _))

theorem startsWithDigit_blanks {w : Text} (hw : ∀ c ∈ w, Text.isBlank c) (hne : w ≠ []) (s : Text) :
    startsWithDigit (w ++ s) = false := by
  obtain ⟨c, w, rfl⟩ := List.exists_cons_of_ne_nil hne
  refine Bool.eq_false_iff.mpr fun hc => ?_
  have hblank := hw c List.mem_cons_self
  rw [Text.isBlank_of_isDigit hc] at hblank
  cases hblank

theorem IsCut.blanks {w s : Text} {ts : List Token} (hw : ∀ c ∈ w, Text.isBlank c)
    (h : IsCut s ts) : IsCut (w ++ s) ts := by
  induction w with
  | nil => exact h
  | cons c w ih =>
    obtain ⟨hc, hw⟩ := List.forall_mem_cons.mp hw
    exact .blank hc (ih hw)

/-- What stands behind a printed piece does not carry on its digits. -/
theorem not_touching {p : Text × TokenKind} {ps : List (Text × TokenKind)} {last : Text}
    (hgaps : ∀ q ∈ ps, ∀ c ∈ q.1, Text.isBlank c) (hlast : ∀ c ∈ last, Text.isBlank c)
    (hspells : ∀ q ∈ ps, Spells q.2 q.2.display) (hapart : ∀ q ∈ ps.head?, Apart p q) :
    ¬(endsWithDigit p.2.display ∧ startsWithDigit (printed ps last)) := by
  rintro ⟨hend, hstart⟩
  cases ps with
  | nil =>
    by_cases hne : last = []
    · rw [hne] at hstart
      cases hstart
    · rw [printed, List.flatMap_nil, List.nil_append, ← List.append_nil last,
        startsWithDigit_blanks hlast hne] at hstart
      cases hstart
  | cons q ps =>
    rw [printed, List.flatMap_cons, List.append_assoc, List.append_assoc] at hstart
    by_cases hne : q.1 = []
    · rw [hne, List.nil_append,
        startsWithDigit_append (hspells q List.mem_cons_self).ne_nil] at hstart
      exact hapart q rfl hne ⟨hend, hstart⟩
    · rw [startsWithDigit_blanks (hgaps q List.mem_cons_self) hne] at hstart
      cases hstart

/-- **Printed tokens are cut** where they were put together. -/
theorem isCut_printed {last : Text} (hlast : ∀ c ∈ last, Text.isBlank c) :
    ∀ {ps : List (Text × TokenKind)}, (∀ p ∈ ps, ∀ c ∈ p.1, Text.isBlank c) →
      (∀ p ∈ ps, Spells p.2 p.2.display) → ps.IsChain Apart →
      IsCut (printed ps last) (ps.map fun p => ⟨p.2, p.2.display⟩)
  | [], _, _, _ => by
    have hnil := IsCut.blanks hlast .nil
    rwa [List.append_nil] at hnil
  | p :: ps, hgaps, hspells, hchain => by
    obtain ⟨hgap, hgaps⟩ := List.forall_mem_cons.mp hgaps
    obtain ⟨hp, hspells⟩ := List.forall_mem_cons.mp hspells
    obtain ⟨hapart, hchain⟩ := List.isChain_cons.mp hchain
    have hrest := isCut_printed hlast hgaps hspells hchain
    have htoken := IsCut.token hp (not_touching hgaps hlast hspells hapart) hrest
    have hsplit : printed (p :: ps) last = p.1 ++ (p.2.display ++ printed ps last) := by
      simp [printed]
    rw [hsplit]
    exact IsCut.blanks hgap htoken

/-- **Reading undoes printing.** Kinds in range that are printed with any blanks around them, where two
numbers do not touch, make a valid text, of which they are the tokens, each with the text it was printed as.
And every token of any text is in range, and is read again from its printed form. -/
theorem tokens_printed :
    (∀ (ps : List (Text × TokenKind)) (last : Text), (∀ p ∈ ps, p.2.InRange) →
      (∀ p ∈ ps, ∀ c ∈ p.1, Text.isBlank c) → (∀ c ∈ last, Text.isBlank c) → ps.IsChain Apart →
      Lexer.tokens (printed ps last) = ps.map (fun p => ⟨p.2, p.2.display⟩) ∧
        Lexer.validate (printed ps last) (Lexer.tokens (printed ps last)) = .ok ()) ∧
      ∀ (s : Text) (t : Token), t ∈ Lexer.tokens s → t.kind.InRange ∧
        Lexer.readToken t.kind.display = some (t.kind, []) ∧
        Lexer.tokens t.kind.display = [⟨t.kind, t.kind.display⟩] := by
  constructor
  · intro ps last hrange hgaps hlast hchain
    have hspells : ∀ p ∈ ps, Spells p.2 p.2.display := fun p hp =>
      TokenKind.spells_display (hrange p hp)
    have hcut := isCut_printed hlast hgaps hspells hchain
    rw [hcut.tokens_eq]
    exact ⟨rfl, (isCut_iff.mp hcut).2⟩
  · intro s t ht
    have hrange := ((Lexer.scans_tokens s).spells t ht).inRange
    have hspells := TokenKind.spells_display hrange
    have hread := Lexer.readToken_append (s := []) hspells (fun hd => by cases hd.2) rfl
    rw [List.append_nil] at hread
    exact ⟨hrange, hread, hspells.isCut.tokens_eq⟩

/-- The greatest numbers, pieces that touch, and a number with zeros in front. -/
theorem tokens_printed_touching :
    let ps : List (Text × TokenKind) :=
      [([], .operand (.dice ⟨4294967295, 1, .lowest⟩)), ([], .operand (.integer 9223372036854775807)),
        ("\t ".toList, .operand (.integer 0)), ([], .operator .sub), ([], .leftParen)]
    printed ps "\n".toList = "4294967295d1?9223372036854775807\t 0-(\n".toList ∧
      Lexer.tokens (printed ps "\n".toList) = ps.map (fun p => ⟨p.2, p.2.display⟩) ∧
      ∀ t ∈ Lexer.tokens "007".toList, Lexer.tokens t.kind.display = [⟨t.kind, t.kind.display⟩] := by
  intro ps
  have hrange : ∀ p ∈ ps, p.2.InRange := by
    simp [ps, TokenKind.InRange, maxValue]
  have hall : ps.all fun p => p.1.all Text.isBlank := by decide
  have hgaps : ∀ p ∈ ps, ∀ c ∈ p.1, Text.isBlank c := fun p hp =>
    List.all_eq_true.mp (List.all_eq_true.mp hall p hp)
  have hend : ∀ c ∈ "\n".toList, Text.isBlank c := List.all_eq_true.mp rfl
  have hchain : ps.IsChain Apart := by decide
  exact ⟨by decide, (tokens_printed.1 ps "\n".toList hrange hgaps hend hchain).1,
    fun t ht => (tokens_printed.2 _ t ht).2.2⟩

end DiceBot
