import DiceBot.Proofs.Expr.Cutting

/-! # Taking a text apart

The readers look ahead only within a number or a dice term. So the tokens of a text that is put together
from two parts are those of the one part and then those of the other (`tokens_append`), unless the parts
meet within digits, `d`, `!` and `?` on both sides; and it is cut if both parts are
(`isCut_append_iff`). -/

namespace DiceBot

/-- A character that may stand in a number or a dice term. -/
def isInner (c : Char) : Bool := c.isDigit || c = 'd' || c = '!' || c = '?'

/-- Where the two texts meet, at most one of the two characters may stand in a number or a dice term. -/
def Parted (p q : Text) : Prop :=
  ∀ c ∈ p.getLast?, ∀ d ∈ q.head?, isInner c = false ∨ isInner d = false

theorem Parted.of_append {x p q : Text} (h : Parted (x ++ p) q) : Parted p q := by
  intro c hc
  refine h c ?_
  rw [List.getLast?_append, Option.mem_def.mp hc]
  rfl

/-- Two texts that meet at a character which is not inner do not read on into each other: such a
character ends the first, or begins the second. -/
def Severed (p q : Text) : Prop :=
  (∃ c ∈ p.getLast?, isInner c = false) ∨ ∀ d ∈ q.head?, isInner d = false

theorem Parted.severed {c : Char} {p q : Text} (h : Parted (c :: p) q) : Severed (c :: p) q := by
  obtain ⟨e, he⟩ : ∃ e, (c :: p).getLast? = some e := ⟨_, List.getLast?_cons⟩
  by_cases hi : isInner e = false
  · exact Or.inl ⟨e, he, hi⟩
  · exact Or.inr fun d hd => (h e he d hd).resolve_left hi

theorem Severed.of_cons {c : Char} {p q : Text} (h : Severed (c :: p) q) (hc : isInner c) :
    Severed p q := by
  rcases h with ⟨e, he, hi⟩ | h
  · left
    cases p with
    | nil =>
      obtain rfl : c = e := Option.some.inj he
      rw [hc] at hi
      cases hi
    | cons d p => exact ⟨e, by rwa [List.getLast?_cons_cons] at he, hi⟩
  · exact Or.inr h

/-- Between severed texts the second begins with nothing that could belong to the first. -/
theorem Severed.not_resumes {q : Text} (h : Severed [] q) : resumes q = false := by
  rcases h with ⟨c, hc, -⟩ | h
  · cases hc
  · cases q with
    | nil => rfl
    | cons d q =>
      have hd := h d rfl
      simp only [isInner, Bool.or_eq_false_iff] at hd
      simp [resumes, hd.1.1.2, hd.1.2, hd.2]

theorem Severed.startsWithDigit {q : Text} (h : Severed [] q) : startsWithDigit q = false := by
  rcases h with ⟨c, hc, -⟩ | h
  · cases hc
  · cases q with
    | nil => rfl
    | cons d q =>
      have hd := h d rfl
      simp only [isInner, Bool.or_eq_false_iff] at hd
      exact hd.1.1.1

namespace Lexer

/-- What a reader answers if `q` stands behind the text. -/
def Reading.followed {α : Type} (q : Text) (r : Reading α) : Reading α :=
  r.map fun a => (a.1, a.2 ++ q)

theorem followed_none {α : Type} (q : Text) : Reading.followed q (none : Reading α) = none := rfl

theorem followed_some {α : Type} (q rest : Text) (a : α) :
    Reading.followed q (some (a, rest)) = some (a, rest ++ q) := rfl

/-! ### Numbers and dice terms -/

theorem digits_severed : ∀ {p q : Text}, Severed p q → digits (p ++ q) = digits p ∧
    afterDigits (p ++ q) = afterDigits p ++ q ∧ Severed (afterDigits p) q
  | [], q, h => by
    have hq := h.startsWithDigit
    have hnil : ∀ c ∈ ([] : Text), c.isDigit := List.forall_mem_nil _
    exact ⟨digits_eq_nil hq, afterDigits_append hnil hq, h⟩
  | c :: p, q, h => by
    by_cases hc : c.isDigit
    · obtain ⟨hd, ha, hs⟩ := digits_severed (h.of_cons (by simp [isInner, hc]))
      simp only [digits, afterDigits] at hd ha hs ⊢
      simp only [List.cons_append, List.takeWhile_cons, List.dropWhile_cons, hc, if_true]
      exact ⟨by rw [hd], ha, hs⟩
    · simp only [digits, afterDigits]
      simp only [List.cons_append, List.takeWhile_cons, List.dropWhile_cons, hc, if_false,
        Bool.false_eq_true, true_and]
      exact h

theorem readCount_severed {p q : Text} (h : Severed p q) :
    readCount (p ++ q) = (readCount p).followed q := by
  obtain ⟨hd, ha, -⟩ := digits_severed h
  simp only [readCount, hd, ha]
  split
  · rw [followed_some]
  · rw [followed_none]

/-- What is left behind a count. -/
theorem Severed.of_readCount {p q rest : Text} {n : UInt32} (h : Severed p q)
    (hn : readCount p = some (n, rest)) : Severed rest q := by
  simp only [readCount, Option.ite_none_right_eq_some, Option.some.injEq, Prod.mk.injEq] at hn
  rw [← hn.2.2]
  exact (digits_severed h).2.2

theorem readInteger_severed {p q : Text} (h : Severed p q) :
    readInteger (p ++ q) = (readInteger p).followed q := by
  obtain ⟨hd, ha, -⟩ := digits_severed h
  simp only [readInteger, hd, ha]
  split
  · rw [followed_some]
  · rw [followed_none]

theorem readModifier_severed {p q : Text} (h : Severed p q) :
    readModifier (p ++ q) = ((readModifier p).1, (readModifier p).2 ++ q) := by
  cases p with
  | nil => exact readModifier_append (k := .none) h.not_resumes
  | cons c p =>
    by_cases hh : c = '!'
    · subst hh
      rfl
    · by_cases hl : c = '?'
      · subst hl
        rfl
      · have hnone : ∀ s, readModifier (c :: s) = (.none, c :: s) := fun s => by
          unfold readModifier
          split
          · next he => exact absurd (List.cons.inj he).1 hh
          · next he => exact absurd (List.cons.inj he).1 hl
          · rfl
        rw [List.cons_append, hnone, hnone]
        rfl

theorem readSides_severed {n : UInt32} {p q : Text} (h : Severed p q) :
    readSides n (p ++ q) = (readSides n p).followed q := by
  unfold readSides
  rw [readCount_severed h]
  cases hm : readCount p with
  | none => rfl
  | some r =>
    obtain ⟨m, s⟩ := r
    rw [followed_some]
    simp only [readModifier_severed (Severed.of_readCount h hm)]
    rw [followed_some]

theorem readDice_of_readCount {n : UInt32} {s rest : Text} (h : readCount s = some (n, 'd' :: rest)) :
    readDice s = readSides n rest := by
  simp only [readDice, h]

theorem readDice_eq_none_of_readCount {n : UInt32} {s rest : Text}
    (h : readCount s = some (n, rest)) (hd : ∀ u, rest ≠ 'd' :: u) : readDice s = none := by
  unfold readDice
  split
  · next m u he =>
    rw [h] at he
    exact absurd (Prod.mk.inj (Option.some.inj he)).2 (hd u)
  · rfl

theorem readDice_severed {p q : Text} (h : Severed p q) :
    readDice (p ++ q) = (readDice p).followed q := by
  have hcount := readCount_severed h
  cases hn : readCount p with
  | none =>
    rw [hn, followed_none] at hcount
    simp only [readDice, hn, hcount, followed_none]
  | some r =>
    obtain ⟨n, s⟩ := r
    have hs := Severed.of_readCount h hn
    rw [hn, followed_some] at hcount
    by_cases hd : ∃ u, s = 'd' :: u
    · obtain ⟨u, rfl⟩ := hd
      rw [readDice_of_readCount hn, readDice_of_readCount hcount]
      exact readSides_severed (hs.of_cons (by decide))
    · have hd : ∀ u, s ≠ 'd' :: u := fun u hu => hd ⟨u, hu⟩
      have hdq : ∀ u, s ++ q ≠ 'd' :: u := by
        intro u hu
        cases s with
        | nil =>
          -- the count ends where the first part does, and no `d` follows
          have hq := hs.not_resumes
          rw [List.nil_append] at hu
          rw [hu] at hq
          cases hq
        | cons c s =>
          rw [List.cons_append, List.cons.injEq] at hu
          exact hd s (by rw [hu.1])
      rw [readDice_eq_none_of_readCount hn hd, readDice_eq_none_of_readCount hcount hdq,
        followed_none]

/-! ### Tokens -/

theorem readOperator_symbol (op : Operator) (s : Text) :
    readOperator (op.symbol :: s) = some (op, s) := by
  cases op <;> rfl

theorem readOperator_cons (c : Char) (p q : Text) :
    readOperator (c :: p ++ q) = (readOperator (c :: p)).followed q := by
  rw [List.cons_append]
  by_cases hc : ∃ op : Operator, c = op.symbol
  · obtain ⟨op, rfl⟩ := hc
    rw [readOperator_symbol, readOperator_symbol, followed_some]
  · have hnone : ∀ s, readOperator (c :: s) = none := fun s =>
      Option.eq_none_iff_forall_ne_some.mpr fun r hr =>
        hc ⟨r.1, (List.cons.inj (readOperator_eq_append hr)).1⟩
    rw [hnone, hnone, followed_none]

theorem readParen_cons (c : Char) (p q : Text) :
    readParen (c :: p ++ q) = (readParen (c :: p)).followed q := by
  rw [List.cons_append]
  by_cases hl : c = '('
  · subst hl
    rfl
  · by_cases hr : c = ')'
    · subst hr
      rfl
    · have hnone : ∀ s, readParen (c :: s) = none := fun s => by
        unfold readParen
        split
        · next he => exact absurd (List.cons.inj he).1 hl
        · next he => exact absurd (List.cons.inj he).1 hr
        · rfl
      rw [hnone, hnone, followed_none]

/-- **A token is read without a look at what is severed from it.** -/
theorem readToken_severed {c : Char} {p q : Text} (h : Severed (c :: p) q) :
    readToken (c :: p ++ q) = (readToken (c :: p)).followed q := by
  unfold readToken
  rw [readDice_severed h, readInteger_severed h, readOperator_cons, readParen_cons]
  cases readDice (c :: p) with
  | some r => rfl
  | none =>
    cases readInteger (c :: p) with
    | some r => rfl
    | none => cases readOperator (c :: p) <;> rfl

/-- **The tokens of two parts**, one behind the other. -/
theorem tokens_append : ∀ {p q : Text}, Parted p q → tokens (p ++ q) = tokens p ++ tokens q
  | [], q, _ => by
    rw [tokens]
    rfl
  | c :: p, q, h => by
    have hread := readToken_severed h.severed
    cases hp : readToken (c :: p) with
    | none =>
      rw [hp, followed_none, List.cons_append] at hread
      have hpq : Parted p q := Parted.of_append (x := [c]) h
      rw [List.cons_append, tokens_of_readToken_eq_none hread, tokens_of_readToken_eq_none hp,
        tokens_append hpq]
    | some r =>
      obtain ⟨k, rest⟩ := r
      have hlt : rest.length < p.length + 1 := length_lt_of_readToken hp
      obtain ⟨x, hx, hs, -⟩ := readToken_spells hp
      have hrest : Parted rest q := Parted.of_append (x := x) (by rwa [← hs])
      rw [hp, followed_some, hs, List.append_assoc] at hread
      rw [hs] at hp
      rw [hs, List.append_assoc, tokens_of_readToken hx.ne_nil hread,
        tokens_of_readToken hx.ne_nil hp, tokens_append hrest, List.cons_append]
termination_by p => p.length
decreasing_by all_goals rw [List.length_cons]; omega

end Lexer

/-! ### Cuts of two parts -/

theorem Text.removeBlanks_append (p q : Text) :
    Text.removeBlanks (p ++ q) = Text.removeBlanks p ++ Text.removeBlanks q :=
  List.filter_append p q

/-- **A text of two parts is cut** if each of them is. -/
theorem isCut_append_iff {p q : Text} (h : Parted p q) {ts : List Token} :
    IsCut (p ++ q) ts ↔ ∃ us vs, ts = us ++ vs ∧ IsCut p us ∧ IsCut q vs := by
  simp only [isCut_iff, Lexer.validate_eq_ok_iff, Lexer.tokens_append h, Text.removeBlanks_append]
  constructor
  · rintro ⟨rfl, hblank⟩
    -- neither part can make up for a character that the other has passed over
    have hp := (Lexer.scans_tokens p).texts_sublist
    have hq := (Lexer.scans_tokens q).texts_sublist
    have hlen := congrArg List.length hblank
    rw [List.flatMap_append] at hblank
    simp only [List.flatMap_append, List.length_append] at hlen
    have hple := hp.length_le
    have hqle := hq.length_le
    obtain ⟨hbp, hbq⟩ := List.append_inj hblank (by omega)
    exact ⟨_, _, rfl, ⟨rfl, hbp⟩, rfl, hbq⟩
  · rintro ⟨us, vs, rfl, ⟨rfl, hbp⟩, rfl, hbq⟩
    exact ⟨rfl, by rw [hbp, hbq, List.flatMap_append]⟩

/-- A text is cut in one way. -/
theorem IsCut.unique {s : Text} {ts us : List Token} (ht : IsCut s ts) (hu : IsCut s us) : ts = us :=
  ht.tokens_eq.symm.trans hu.tokens_eq

/-- The text of a token is cut into that token. -/
theorem Spells.isCut {k : TokenKind} {x : Text} (h : Spells k x) : IsCut x [⟨k, x⟩] := by
  have := IsCut.token h (fun hd => by cases hd.2) .nil
  rwa [List.append_nil] at this

end DiceBot
