import DiceBot.Proofs.Expr.Reading
import Mathlib.Data.List.Chain

/-! # Cutting a text into tokens

`Scans s ts` is the run of the scan on the text `s`: characters at which no token starts are passed
over, and every token is a spelling. The texts of the tokens are a part of the text without its blanks,
so they make up all of it only if nothing but blanks was passed over: then the text is cut
(`isCut_iff`). A text is cut in one way only (`IsCutting.unique`), and that is the cut the scan finds
(`IsCut.tokens_eq`). -/

namespace DiceBot

/-! ### The scan -/

namespace Lexer

theorem consumed_append (x s : Text) : consumed (x ++ s) s = x := by
  simp [consumed]

/-- The run of the scan: the text read and the tokens found in it. -/
inductive Scans : Text → List Token → Prop where
  | nil : Scans [] []
  | skip {c : Char} {s : Text} {ts : List Token} : readToken (c :: s) = none → Scans s ts →
      Scans (c :: s) ts
  | token {k : TokenKind} {x s : Text} {ts : List Token} : Spells k x →
      ¬(endsWithDigit x ∧ startsWithDigit s) → readToken (x ++ s) = some (k, s) → Scans s ts →
      Scans (x ++ s) (⟨k, x⟩ :: ts)

theorem tokens_of_readToken {k : TokenKind} {x s : Text} (hx : x ≠ [])
    (h : readToken (x ++ s) = some (k, s)) : tokens (x ++ s) = ⟨k, x⟩ :: tokens s := by
  obtain ⟨c, x, rfl⟩ := List.exists_cons_of_ne_nil hx
  rw [List.cons_append, tokens]
  split
  · next k' rest h' =>
    rw [List.cons_append, h', Option.some.injEq, Prod.mk.injEq] at h
    obtain ⟨rfl, rfl⟩ := h
    rw [← List.cons_append, consumed_append]
  · next h' =>
    rw [List.cons_append, h'] at h
    cases h

theorem tokens_of_readToken_eq_none {c : Char} {s : Text} (h : readToken (c :: s) = none) :
    tokens (c :: s) = tokens s := by
  rw [tokens]
  split
  · next k rest h' =>
    rw [h] at h'
    cases h'
  · rfl

theorem scans_tokens : ∀ s : Text, Scans s (tokens s)
  | [] => by
    rw [tokens]
    exact .nil
  | c :: s => by
    cases h : readToken (c :: s) with
    | none =>
      rw [tokens_of_readToken_eq_none h]
      exact .skip h (scans_tokens s)
    | some r =>
      obtain ⟨k, rest⟩ := r
      have hlt : rest.length < s.length + 1 := length_lt_of_readToken h
      obtain ⟨x, hx, hs, hsep⟩ := readToken_spells h
      have hrest := scans_tokens rest
      rw [hs] at h ⊢
      rw [tokens_of_readToken hx.ne_nil h]
      exact .token hx hsep h hrest
termination_by s => s.length
decreasing_by all_goals rw [List.length_cons]; omega

theorem removeBlanks_append {k : TokenKind} {x : Text} (hx : Spells k x) (s : Text) :
    Text.removeBlanks (x ++ s) = x ++ Text.removeBlanks s := by
  have hfilter : x.filter (fun c => !Text.isBlank c) = x :=
    List.filter_eq_self.mpr fun c hc => by rw [hx.isBlank_eq_false c hc]; rfl
  rw [Text.removeBlanks, List.filter_append, hfilter, Text.removeBlanks]

/-- The texts of the tokens are a part of the text without its blanks. -/
theorem Scans.texts_sublist {s : Text} {ts : List Token} (h : Scans s ts) :
    (ts.flatMap Token.text).Sublist (Text.removeBlanks s) := by
  induction h with
  | nil => exact List.Sublist.slnil
  | @skip c s ts _ _ ih =>
    refine ih.trans ?_
    rw [Text.removeBlanks, Text.removeBlanks]
    exact (List.sublist_cons_self c s).filter _
  | @token k x s ts hx _ _ _ ih =>
    rw [removeBlanks_append hx, List.flatMap_cons]
    exact ih.append_left x

/-- **Nothing is made up for**: a character that is passed over must be a blank. -/
theorem Scans.isCut {s : Text} {ts : List Token} (h : Scans s ts)
    (heq : Text.removeBlanks s = ts.flatMap Token.text) : IsCut s ts := by
  induction h with
  | nil => exact .nil
  | @skip c s ts _ hs ih =>
    by_cases hc : Text.isBlank c
    · exact .blank hc (ih (by simpa [Text.removeBlanks, hc] using heq))
    · have hcons : Text.removeBlanks (c :: s) = c :: Text.removeBlanks s := by
        simp [Text.removeBlanks, hc]
      have hle := hs.texts_sublist.length_le
      rw [← heq, hcons, List.length_cons] at hle
      omega
  | @token k x s ts hx hsep _ _ ih =>
    rw [removeBlanks_append hx, List.flatMap_cons] at heq
    exact .token hx hsep (ih (List.append_cancel_left heq))

theorem validate_eq_ok_iff {s : Text} {ts : List Token} :
    validate s ts = .ok () ↔ Text.removeBlanks s = ts.flatMap Token.text := by
  unfold validate
  split <;> simp_all

/-- The only error of the validation names the whole text. -/
theorem validate_of_ne_ok {s : Text} {ts : List Token} (h : validate s ts ≠ .ok ()) :
    validate s ts = .error (.invalidToken s) := by
  unfold validate at h ⊢
  split <;> simp_all

end Lexer

/-! ### Cuts -/

theorem not_resumes_of_isBlank {c : Char} {s : Text} (hc : Text.isBlank c) :
    resumes (c :: s) = false := by
  have hne : ∀ d : Char, Text.isBlank d = false → c ≠ d := by
    rintro d hd rfl
    rw [hc] at hd
    cases hd
  have hd := hne 'd' (Text.isBlank_of_visible (by decide) (by decide))
  have hh := hne '!' (Text.isBlank_of_visible (by decide) (by decide))
  have hl := hne '?' (Text.isBlank_of_visible (by decide) (by decide))
  simp [resumes, hd, hh, hl]

theorem not_resumes_of_isDigit {c : Char} {s : Text} (hc : c.isDigit) :
    resumes (c :: s) = false := by
  have hne : ∀ d : Char, d.isDigit = false → c ≠ d := by
    rintro d hd rfl
    rw [hc] at hd
    cases hd
  simp [resumes, hne 'd' rfl, hne '!' rfl, hne '?' rfl]

theorem Spells.not_resumes {k : TokenKind} {x : Text} (h : Spells k x) (s : Text) :
    resumes (x ++ s) = false := by
  cases h with
  | integer hne hd _ =>
    obtain ⟨c, x, rfl⟩ := List.exists_cons_of_ne_nil hne
    exact not_resumes_of_isDigit (hd c List.mem_cons_self)
  | @dice ds es n m k hn hm =>
    obtain ⟨c, ds, rfl⟩ := List.exists_cons_of_ne_nil hn.ne_nil
    exact not_resumes_of_isDigit (hn.isDigit c List.mem_cons_self)
  | operator op => cases op <;> rfl
  | leftParen => rfl
  | rightParen => rfl

theorem IsCut.not_resumes {s : Text} {ts : List Token} (h : IsCut s ts) : resumes s = false := by
  cases h with
  | nil => rfl
  | blank hc _ => exact not_resumes_of_isBlank hc
  | token hx _ _ => exact hx.not_resumes _

/-- No token starts at a blank. -/
theorem Lexer.readToken_blank {c : Char} {s : Text} (hc : Text.isBlank c) :
    readToken (c :: s) = none := by
  cases h : readToken (c :: s) with
  | none => rfl
  | some r =>
    obtain ⟨x, hx, hs, -⟩ := readToken_spells h
    obtain ⟨d, y, rfl⟩ := List.exists_cons_of_ne_nil hx.ne_nil
    have hd := hx.isBlank_eq_false d List.mem_cons_self
    rw [List.cons_append, List.cons.injEq] at hs
    rw [← hs.1, hc] at hd
    cases hd

/-- **The scan finds the cut** of a text. -/
theorem IsCut.tokens_eq {s : Text} {ts : List Token} (h : IsCut s ts) : Lexer.tokens s = ts := by
  induction h with
  | nil => rw [Lexer.tokens]
  | blank hc _ ih => rw [Lexer.tokens_of_readToken_eq_none (Lexer.readToken_blank hc), ih]
  | token hx hsep hs ih =>
    rw [Lexer.tokens_of_readToken hx.ne_nil (Lexer.readToken_append hx hsep hs.not_resumes), ih]

/-- **A text is valid** if it can be cut, and then its tokens are the cut. -/
theorem isCut_iff {s : Text} {ts : List Token} :
    IsCut s ts ↔ Lexer.tokens s = ts ∧ Lexer.validate s ts = .ok () := by
  constructor
  · intro h
    exact ⟨h.tokens_eq, Lexer.validate_eq_ok_iff.mpr h.removeBlanks_eq⟩
  · rintro ⟨rfl, h⟩
    exact (Lexer.scans_tokens s).isCut (Lexer.validate_eq_ok_iff.mp h)

/-! ### Cuttings, piece by piece -/

/-- A piece of a text: a blank or the text of a token. -/
inductive Piece where
  | blank (c : Char)
  | lexeme (token : Token)
deriving Repr, DecidableEq

namespace Piece

/-- The characters of a piece. -/
def text : Piece → Text
  | blank c => [c]
  | lexeme t => t.text

/-- The token of a piece that is not blank. -/
def token? : Piece → Option Token
  | blank _ => none
  | lexeme t => some t

end Piece

/-- The text is cut into these pieces: blanks and spellings of tokens, where no piece that begins with a
digit stands right behind one that ends in a digit. -/
structure IsCutting (s : Text) (ps : List Piece) : Prop where
  join : ps.flatMap Piece.text = s
  isBlank : ∀ c, .blank c ∈ ps → Text.isBlank c
  spells : ∀ t, .lexeme t ∈ ps → Spells t.kind t.text
  apart : ps.IsChain fun p q => ¬(endsWithDigit p.text ∧ startsWithDigit q.text)

theorem IsCutting.tail {p : Piece} {ps : List Piece} {s : Text} (h : IsCutting s (p :: ps)) :
    IsCutting (ps.flatMap Piece.text) ps :=
  ⟨rfl, fun c hc => h.isBlank c (List.mem_cons_of_mem _ hc),
    fun t ht => h.spells t (List.mem_cons_of_mem _ ht), (List.isChain_cons.mp h.apart).2⟩

/-- The text of a piece begins like the text from it on. -/
theorem startsWithDigit_flatMap {q : Piece} {ps : List Piece} (hq : q.text ≠ []) :
    startsWithDigit ((q :: ps).flatMap Piece.text) = startsWithDigit q.text := by
  rw [List.flatMap_cons, startsWithDigit_append hq]

theorem IsCutting.text_ne_nil {s : Text} {ps : List Piece} (h : IsCutting s ps) {p : Piece}
    (hp : p ∈ ps) : p.text ≠ [] := by
  cases p with
  | blank c => simp [Piece.text]
  | lexeme t => exact (h.spells t hp).ne_nil

theorem IsCutting.isCut : ∀ {ps : List Piece} {s : Text}, IsCutting s ps →
    IsCut s (ps.filterMap Piece.token?)
  | [], s, h => by
    have hs : [] = s := h.join
    rw [← hs]
    exact .nil
  | p :: ps, s, h => by
    have ih := h.tail.isCut
    have hs := h.join
    rw [List.flatMap_cons] at hs
    subst hs
    cases p with
    | blank c => exact .blank (h.isBlank c List.mem_cons_self) ih
    | lexeme t =>
      refine .token (h.spells t List.mem_cons_self) (fun hd => ?_) ih
      cases ps with
      | nil => cases hd.2
      | cons q ps =>
        have hq := h.text_ne_nil (List.mem_cons_of_mem _ List.mem_cons_self)
        rw [startsWithDigit_flatMap hq] at hd
        exact (List.isChain_cons_cons.mp h.apart).1 hd

theorem IsCutting.cons {p : Piece} {ps : List Piece} {s : Text} (h : IsCutting s ps)
    (hb : ∀ c, p = .blank c → Text.isBlank c) (hl : ∀ t, p = .lexeme t → Spells t.kind t.text)
    (hsep : ¬(endsWithDigit p.text ∧ startsWithDigit s)) : IsCutting (p.text ++ s) (p :: ps) := by
  refine ⟨by rw [List.flatMap_cons, h.join], fun c hc => ?_, fun t ht => ?_,
    List.isChain_cons.mpr ⟨fun q hq hd => ?_, h.apart⟩⟩
  · rcases List.mem_cons.mp hc with hc | hc
    · exact hb c hc.symm
    · exact h.isBlank c hc
  · rcases List.mem_cons.mp ht with ht | ht
    · exact hl t ht.symm
    · exact h.spells t ht
  · obtain ⟨r, rfl⟩ := List.head?_eq_some_iff.mp hq
    rw [← h.join, startsWithDigit_flatMap (h.text_ne_nil List.mem_cons_self)] at hsep
    exact hsep hd

theorem IsCut.exists_isCutting {s : Text} {ts : List Token} (h : IsCut s ts) :
    ∃ ps, IsCutting s ps ∧ ps.filterMap Piece.token? = ts := by
  induction h with
  | nil => exact ⟨[], ⟨rfl, by simp, by simp, .nil⟩, rfl⟩
  | @blank c s ts hc _ ih =>
    obtain ⟨ps, hps, hts⟩ := ih
    have hsep : ¬(endsWithDigit (Piece.blank c).text ∧ startsWithDigit s) := fun hd => by
      have hdigit : c.isDigit := hd.1
      rw [Text.isBlank_of_isDigit hdigit] at hc
      cases hc
    exact ⟨.blank c :: ps, hps.cons (fun d hd => by cases hd; exact hc) (fun t ht => by cases ht)
      hsep, hts⟩
  | @token k x s ts hx hsep _ ih =>
    obtain ⟨ps, hps, hts⟩ := ih
    have hcut : IsCutting (x ++ s) (.lexeme ⟨k, x⟩ :: ps) :=
      hps.cons (p := .lexeme ⟨k, x⟩) (fun d hd => by cases hd)
        (fun t ht => by cases ht; exact hx) hsep
    exact ⟨_, hcut, by rw [← hts]; rfl⟩

/-- A blank does not begin the text of a token. -/
theorem IsCutting.blank_ne_lexeme {c : Char} {t : Token} {ps qs : List Piece} {s : Text}
    (hp : IsCutting s (.blank c :: ps)) (hq : IsCutting s (.lexeme t :: qs)) : False := by
  have hx := hq.spells t List.mem_cons_self
  obtain ⟨d, x, htext⟩ := List.exists_cons_of_ne_nil hx.ne_nil
  have heq := hp.join.trans hq.join.symm
  rw [List.flatMap_cons, List.flatMap_cons, Piece.text, Piece.text, htext, List.cons_append,
    List.cons_append, List.cons.injEq] at heq
  have hd := hx.isBlank_eq_false d (by rw [htext]; exact List.mem_cons_self)
  rw [← heq.1, hp.isBlank c List.mem_cons_self] at hd
  cases hd

/-- Two cuttings of a text with the same tokens are the same. -/
theorem IsCutting.eq_of_tokens_eq : ∀ {ps qs : List Piece} {s : Text}, IsCutting s ps →
    IsCutting s qs → ps.filterMap Piece.token? = qs.filterMap Piece.token? → ps = qs
  | [], [], _, _, _, _ => rfl
  | [], q :: qs, s, hp, hq, _ => by
    have h0 := hq.join.trans hp.join.symm
    rw [List.flatMap_cons, List.flatMap_nil, List.append_eq_nil_iff] at h0
    exact absurd h0.1 (hq.text_ne_nil List.mem_cons_self)
  | p :: ps, [], s, hp, hq, _ => by
    have h0 := hp.join.trans hq.join.symm
    rw [List.flatMap_cons, List.flatMap_nil, List.append_eq_nil_iff] at h0
    exact absurd h0.1 (hp.text_ne_nil List.mem_cons_self)
  | .blank c :: ps, .lexeme t :: qs, s, hp, hq, _ => (hp.blank_ne_lexeme hq).elim
  | .lexeme t :: ps, .blank c :: qs, s, hp, hq, _ => (hq.blank_ne_lexeme hp).elim
  | .blank c :: ps, .blank d :: qs, s, hp, hq, heq => by
    have hjoin := hp.join.trans hq.join.symm
    rw [List.flatMap_cons, List.flatMap_cons, Piece.text, Piece.text, List.singleton_append,
      List.singleton_append, List.cons.injEq] at hjoin
    have hps := hp.tail
    rw [hjoin.2] at hps
    rw [hjoin.1, IsCutting.eq_of_tokens_eq hps hq.tail heq]
  | .lexeme t :: ps, .lexeme u :: qs, s, hp, hq, heq => by
    obtain ⟨rfl, hts⟩ := List.cons.inj heq
    have hjoin := hp.join.trans hq.join.symm
    rw [List.flatMap_cons, List.flatMap_cons] at hjoin
    have hps := hp.tail
    rw [List.append_cancel_left hjoin] at hps
    rw [IsCutting.eq_of_tokens_eq hps hq.tail hts]

/-- **A text is cut in one way only.** -/
theorem IsCutting.unique {ps qs : List Piece} {s : Text} (hp : IsCutting s ps)
    (hq : IsCutting s qs) : ps = qs :=
  hp.eq_of_tokens_eq hq (hp.isCut.tokens_eq.symm.trans hq.isCut.tokens_eq)

/-! ### Validation -/

/-- **A text is valid if and only if it is cut into blanks and tokens**, two numbers never touching;
the cutting is then unique and its tokens are the tokens found. Every other text is refused by name. -/
theorem validate_tokens (s : Text) :
    (Lexer.validate s (Lexer.tokens s) = .ok () ↔ ∃ ps, IsCutting s ps) ∧
      (∀ ps, IsCutting s ps → Lexer.tokens s = ps.filterMap Piece.token? ∧
        ∀ qs, IsCutting s qs → qs = ps) ∧
      ((¬∃ ps, IsCutting s ps) →
        Lexer.validate s (Lexer.tokens s) = .error (.invalidToken s)) := by
  have hiff : Lexer.validate s (Lexer.tokens s) = .ok () ↔ ∃ ps, IsCutting s ps := by
    constructor
    · intro h
      obtain ⟨ps, hps, -⟩ := (isCut_iff.mpr ⟨rfl, h⟩).exists_isCutting
      exact ⟨ps, hps⟩
    · rintro ⟨ps, hps⟩
      rw [hps.isCut.tokens_eq]
      exact (isCut_iff.mp hps.isCut).2
  refine ⟨hiff, fun ps hps => ⟨hps.isCut.tokens_eq, fun qs hqs => hqs.unique hps⟩, fun hno => ?_⟩
  exact Lexer.validate_of_ne_ok fun h => hno (hiff.mp h)

/-- Behind the mark of a dice term a number may follow at once; a `d` by itself belongs to no token. -/
theorem validate_tokens_touching :
    (IsCutting "2d6!3 ".toList [.lexeme ⟨.operand (.dice ⟨2, 6, .highest⟩), "2d6!".toList⟩,
        .lexeme ⟨.operand (.integer 3), ['3']⟩, .blank ' '] ∧
      Lexer.tokens "2d6!3 ".toList = [⟨.operand (.dice ⟨2, 6, .highest⟩), "2d6!".toList⟩,
        ⟨.operand (.integer 3), ['3']⟩] ∧
      Lexer.validate "2d6!3 ".toList (Lexer.tokens "2d6!3 ".toList) = .ok ()) ∧
    ((¬∃ ps, IsCutting "2 d6".toList ps) ∧
      Lexer.validate "2 d6".toList (Lexer.tokens "2 d6".toList) =
        .error (.invalidToken "2 d6".toList)) := by
  have hrepeats : IsCount ['2'] 2 := ⟨List.forall_mem_singleton.mpr rfl, by decide, by decide⟩
  have hsides : IsCount ['6'] 6 := ⟨List.forall_mem_singleton.mpr rfl, by decide, by decide⟩
  have hterm : Spells (.operand (.dice ⟨2, 6, .highest⟩)) "2d6!".toList :=
    .dice .highest hrepeats hsides
  have hnumber : Spells (.operand (.integer (Text.digitsValue ['3']))) ['3'] :=
    .integer (by decide) (List.forall_mem_singleton.mpr rfl) (by decide)
  have hcutting : IsCutting "2d6!3 ".toList
      [.lexeme ⟨.operand (.dice ⟨2, 6, .highest⟩), "2d6!".toList⟩,
        .lexeme ⟨.operand (.integer 3), ['3']⟩, .blank ' '] := by
    refine ⟨rfl, ?_, ?_, by decide⟩
    · simp [show Text.isBlank ' ' from by decide]
    · rintro t ht
      simp only [List.mem_cons, Piece.lexeme.injEq, List.not_mem_nil, or_false, reduceCtorEq] at ht
      rcases ht with rfl | rfl
      · exact hterm
      · exact hnumber
  have hno : ¬∃ ps, IsCutting "2 d6".toList ps := fun h => by
    have hvalid := Lexer.validate_eq_ok_iff.mp ((validate_tokens "2 d6".toList).1.mpr h)
    have htokens : Lexer.tokens "2 d6".toList = [⟨.operand (.integer 2), ['2']⟩,
        ⟨.operand (.integer 6), ['6']⟩] := by decide +kernel
    rw [htokens] at hvalid
    exact absurd hvalid (by decide)
  exact ⟨⟨hcutting, ((validate_tokens _).2.1 _ hcutting).1, (validate_tokens _).1.mpr ⟨_, hcutting⟩⟩,
    hno, (validate_tokens _).2.2 hno⟩

end DiceBot
