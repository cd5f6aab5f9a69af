import DiceBot.Proofs.Expr.Locality
import DiceBot.Proofs.Text.Digits
import DiceBot.Proofs.Text.Encoding

/-! # Where the tokens of a text lie

What the scan does with any text, valid or not. It cuts the text into tokens and the gaps between them
(`IsScan`): a token is what is read at its place, and no token can be read at any character of a gap. A
text is cut so in one way only (`IsScan.unique`). The scan goes through UTF-8 bytes and slices them; every
slice is made where a character begins, and there are no more turns than characters
(`Scans.scanBytes_eq`).

A character that stands in no number and in no dice term delimits: the text is read as the part in front
of it, the character, and the part behind it. No other character does that (`tokens_delimited_iff`). -/

namespace DiceBot.Lexer

/-! ### Gaps and tokens -/

/-- No token can be read at any character of the gap, when `rest` stands behind it. -/
def PassesOver (gap rest : Text) : Prop :=
  ∀ u c v, gap = u ++ c :: v → readToken (c :: (v ++ rest)) = none

/-- A token and the gap in front of it. -/
structure Stretch where
  gap : Text
  token : Token
deriving Repr, DecidableEq

/-- The characters of a stretch. -/
def Stretch.text (p : Stretch) : Text := p.gap ++ p.token.text

/-- The scan cuts the text into these stretches and a gap at the end. Every token has characters, and read
from its first character on, the text gives its kind and leaves what stands behind it. -/
inductive IsScan : Text → List Stretch → Text → Prop where
  | last {gap : Text} : PassesOver gap [] → IsScan gap [] gap
  | stretch {gap s : Text} {t : Token} {ps : List Stretch} {last : Text} :
      PassesOver gap (t.text ++ s) → t.text ≠ [] → readToken (t.text ++ s) = some (t.kind, s) →
      IsScan s ps last → IsScan (gap ++ (t.text ++ s)) (⟨gap, t⟩ :: ps) last

theorem passesOver_nil (rest : Text) : PassesOver [] rest := by
  intro u c v h
  simp at h

theorem PassesOver.cons {c : Char} {gap rest : Text} (hc : readToken (c :: (gap ++ rest)) = none)
    (h : PassesOver gap rest) : PassesOver (c :: gap) rest := by
  intro u d v hsplit
  cases u with
  | nil =>
    obtain ⟨rfl, rfl⟩ := List.cons.inj hsplit
    exact hc
  | cons e u => exact h u d v (List.cons.inj hsplit).2

/-- Stretches and the last gap make up the text. -/
theorem IsScan.join {s : Text} {ps : List Stretch} {last : Text} (h : IsScan s ps last) :
    s = ps.flatMap Stretch.text ++ last := by
  induction h with
  | last _ => rfl
  | stretch _ _ _ _ ih =>
    rw [ih]
    simp [Stretch.text]

/-- A character that is passed over belongs to the first gap. -/
theorem IsScan.skip {c : Char} {s : Text} {ps : List Stretch} {last : Text} (h : IsScan s ps last)
    (hc : readToken (c :: s) = none) :
    ∃ qs last', IsScan (c :: s) qs last' ∧ qs.map Stretch.token = ps.map Stretch.token := by
  cases h with
  | last hgap =>
    refine ⟨[], c :: s, .last (hgap.cons ?_), rfl⟩
    rwa [List.append_nil]
  | @stretch gap s t ps last hgap hne hread hrest =>
    exact ⟨⟨c :: gap, t⟩ :: ps, last, .stretch (hgap.cons hc) hne hread hrest, rfl⟩

/-- **Every run of the scan** cuts the text. -/
theorem Scans.exists_isScan {s : Text} {ts : List Token} (h : Scans s ts) :
    ∃ ps last, IsScan s ps last ∧ ps.map Stretch.token = ts := by
  induction h with
  | nil => exact ⟨[], [], .last (passesOver_nil []), rfl⟩
  | skip hc _ ih =>
    obtain ⟨ps, last, hscan, htokens⟩ := ih
    obtain ⟨qs, last', hskip, hmap⟩ := hscan.skip hc
    exact ⟨qs, last', hskip, hmap.trans htokens⟩
  | @token k x s ts hx _ hread _ ih =>
    obtain ⟨ps, last, hscan, htokens⟩ := ih
    have hstretch : IsScan (x ++ s) (⟨[], ⟨k, x⟩⟩ :: ps) last :=
      .stretch (t := ⟨k, x⟩) (passesOver_nil _) hx.ne_nil hread hscan
    exact ⟨_, last, hstretch, by rw [List.map_cons, htokens]⟩

/-! ### One way only -/

/-- Where a token can be read, no gap goes on. -/
theorem PassesOver.eq_nil {u gap r rest : Text} {a : TokenKind × Text} (h : PassesOver (u ++ gap) rest)
    (hr : r = gap ++ rest) (hread : readToken r = some a) : gap = [] := by
  cases gap with
  | nil => rfl
  | cons c gap =>
    have hnone := h u c gap rfl
    rw [hr, List.cons_append, hnone] at hread
    cases hread

/-- The gap in front of a token is determined by the text. -/
theorem PassesOver.unique {gap gap' r r' : Text} {a a' : TokenKind × Text} (h : PassesOver gap r)
    (h' : PassesOver gap' r') (hr : readToken r = some a) (hr' : readToken r' = some a')
    (heq : gap ++ r = gap' ++ r') : gap = gap' ∧ r = r' := by
  rcases List.append_eq_append_iff.mp heq with ⟨u, rfl, hu⟩ | ⟨u, rfl, hu⟩
  · obtain rfl := h'.eq_nil hu hr
    exact ⟨(List.append_nil gap).symm, hu⟩
  · obtain rfl := h.eq_nil hu hr'
    exact ⟨List.append_nil gap', hu.symm⟩

/-- **A text is cut in one way.** -/
theorem IsScan.unique {s : Text} {ps qs : List Stretch} {last last' : Text} (h : IsScan s ps last)
    (h' : IsScan s qs last') : qs = ps ∧ last' = last := by
  induction h generalizing qs last' with
  | @last gap hgap =>
    generalize hs : gap = s at h'
    cases h' with
    | last _ => exact ⟨rfl, rfl⟩
    | @stretch gap' s' t _ _ _ hne hread _ =>
      subst hs
      exact absurd (List.append_eq_nil_iff.mp (hgap.eq_nil (List.append_nil _).symm hread)).1 hne
  | @stretch gap s t ps last hgap hne hread hrest ih =>
    generalize hs : gap ++ (t.text ++ s) = r at h'
    cases h' with
    | last hgap' =>
      subst hs
      exact absurd (List.append_eq_nil_iff.mp (hgap'.eq_nil (List.append_nil _).symm hread)).1 hne
    | @stretch gap' s' t' _ _ hgap' _ hread' hrest' =>
      obtain ⟨rfl, htext⟩ := hgap.unique hgap' hread hread' hs
      rw [htext, hread', Option.some.injEq, Prod.mk.injEq] at hread
      obtain ⟨hkind, rfl⟩ := hread
      have ht : t = t' := by
        cases t
        cases t'
        rw [Token.mk.injEq]
        exact ⟨hkind.symm, List.append_cancel_right htext⟩
      obtain ⟨rfl, rfl⟩ := ih hrest'
      exact ⟨by rw [ht], rfl⟩

/-! ### The scan of bytes -/

/-- Whether a character begins at the byte `i`, or the bytes end there. -/
def IsBoundary (bytes : List UInt8) (i : Nat) : Prop :=
  i = bytes.length ∨ ∃ b ∈ bytes[i]?, b.IsUTF8FirstByte

instance (bytes : List UInt8) (i : Nat) : Decidable (IsBoundary bytes i) :=
  inferInstanceAs (Decidable (_ ∨ _))

/-- The bytes in front of `i` and those from `i` on. There is no such slice within a character. -/
def sliceAt? (bytes : List UInt8) (i : Nat) : Option (List UInt8 × List UInt8) :=
  if IsBoundary bytes i then some (bytes.take i, bytes.drop i) else none

/-- One turn of the scan at bytes that are the text `c :: s`: the kind and the bytes of the token that was
found, if any, and the bytes behind. A token ends where the rest that the reader leaves begins; where there is
none, a single character is passed over. -/
def turn? (bytes : List UInt8) (c : Char) (s : Text) :
    Option (Option (TokenKind × List UInt8) × List UInt8) :=
  match readToken (c :: s) with
  | some (k, rest) =>
    (sliceAt? bytes (bytes.length - (Text.toUtf8 rest).length)).map fun slice => (some (k, slice.1), slice.2)
  | none => (sliceAt? bytes c.utf8Size).map fun slice => (none, slice.2)

/-- The kinds and the bytes of the tokens in the bytes of a text. There is no answer if `n` turns are not
enough, or if a slice is not at a boundary. -/
def scanBytes : Nat → List UInt8 → Option (List (TokenKind × List UInt8))
  | 0, bytes => if bytes = [] then some [] else none
  | n + 1, bytes =>
    match Text.ofUtf8? bytes with
    | none => none
    | some [] => some []
    | some (c :: s) =>
      (turn? bytes c s).bind fun turn => (scanBytes n turn.2).map (turn.1.toList ++ ·)

/-- Where a text is put together from two, there is a boundary. -/
theorem isBoundary_append (u v : Text) :
    IsBoundary (Text.toUtf8 u ++ Text.toUtf8 v) (Text.toUtf8 u).length := by
  cases v with
  | nil => exact Or.inl (by simp [Text.toUtf8])
  | cons c v =>
    obtain ⟨b, x, hbx, hfirst, -⟩ := Text.utf8EncodeChar_eq_cons c
    have hv : Text.toUtf8 (c :: v) = b :: (x ++ Text.toUtf8 v) := by
      rw [Text.toUtf8, List.flatMap_cons, hbx]
      rfl
    refine Or.inr ⟨b, ?_, hfirst⟩
    rw [hv, List.getElem?_append_right (Nat.le_refl _), Nat.sub_self]
    rfl

/-- The slice between two texts. -/
theorem sliceAt?_append (u v : Text) : sliceAt? (Text.toUtf8 (u ++ v)) (Text.toUtf8 u).length =
    some (Text.toUtf8 u, Text.toUtf8 v) := by
  have happend : Text.toUtf8 (u ++ v) = Text.toUtf8 u ++ Text.toUtf8 v := List.flatMap_append
  rw [happend, sliceAt?, if_pos (isBoundary_append u v), List.take_left, List.drop_left]

theorem turn?_token {c : Char} {y s : Text} {k : TokenKind} (h : readToken (c :: (y ++ s)) = some (k, s)) :
    turn? (Text.toUtf8 (c :: (y ++ s))) c (y ++ s) =
      some (some (k, Text.toUtf8 (c :: y)), Text.toUtf8 s) := by
  have hstop : (Text.toUtf8 (c :: y ++ s)).length - (Text.toUtf8 s).length =
      (Text.toUtf8 (c :: y)).length := by
    rw [Text.toUtf8, List.flatMap_append, List.length_append]
    exact Nat.add_sub_cancel ..
  simp only [turn?, h]
  rw [← List.cons_append, hstop, sliceAt?_append, Option.map_some]

theorem turn?_skip {c : Char} {s : Text} (h : readToken (c :: s) = none) :
    turn? (Text.toUtf8 (c :: s)) c s = some (none, Text.toUtf8 s) := by
  have hsize : c.utf8Size = (Text.toUtf8 [c]).length := by simp [Text.toUtf8]
  simp only [turn?, h]
  rw [hsize, ← List.singleton_append, sliceAt?_append, Option.map_some]

theorem scanBytes_cons {c : Char} {s : Text} {found : Option (TokenKind × List UInt8)}
    {remaining : List UInt8} (h : turn? (Text.toUtf8 (c :: s)) c s = some (found, remaining)) (n : Nat) :
    scanBytes (n + 1) (Text.toUtf8 (c :: s)) = (scanBytes n remaining).map (found.toList ++ ·) := by
  rw [scanBytes, Text.ofUtf8?_toUtf8]
  simp only [h, Option.bind_some]

/-- **The scan of bytes finds the tokens**: it ends within as many turns as there are characters, and every
slice is at a boundary. -/
theorem Scans.scanBytes_eq {s : Text} {ts : List Token} (h : Scans s ts) {n : Nat} (hn : s.length ≤ n) :
    scanBytes n (Text.toUtf8 s) = some (ts.map fun t => (t.kind, Text.toUtf8 t.text)) := by
  induction h generalizing n with
  | nil => cases n <;> rfl
  | @skip c s ts hc _ ih =>
    cases n with
    | zero => cases hn
    | succ n =>
      rw [scanBytes_cons (turn?_skip hc), ih (Nat.le_of_succ_le_succ hn)]
      rfl
  | @token k x s ts hx _ hread _ ih =>
    obtain ⟨c, y, rfl⟩ := List.exists_cons_of_ne_nil hx.ne_nil
    cases n with
    | zero => cases hn
    | succ n =>
      have hlen : s.length ≤ n := by
        simp only [List.cons_append, List.length_cons, List.length_append] at hn
        omega
      rw [List.cons_append, scanBytes_cons (turn?_token hread), ih hlen]
      rfl

/-- **The scan cuts any text without loss**: into tokens, each of them what is read at its place, and gaps, at
no character of which a token can be read. No other cut is like that. On the bytes of the text the scan ends
within as many turns as there are characters, with every slice at a boundary of characters, and finds the same
tokens. -/
theorem tokens_scanned (s : Text) :
    (∃ ps last, IsScan s ps last ∧ s = ps.flatMap Stretch.text ++ last ∧ tokens s = ps.map Stretch.token ∧
      ∀ qs last', IsScan s qs last' → qs = ps ∧ last' = last) ∧
    ∀ n, s.length ≤ n →
      scanBytes n (Text.toUtf8 s) = some ((tokens s).map fun t => (t.kind, Text.toUtf8 t.text)) := by
  have hscans := scans_tokens s
  obtain ⟨ps, last, hscan, htokens⟩ := hscans.exists_isScan
  exact ⟨⟨ps, last, hscan, hscan.join, htokens.symm, fun qs last' h => hscan.unique h⟩,
    fun n hn => hscans.scanBytes_eq hn⟩

/-- A number that is too large is read again behind its first digit, and behind its second; a `d` without a
count and characters of two bytes are passed over. -/
theorem tokens_scanned_retried :
    let s := "é99999999999999999999d2ä".toList
    let found : List Token := [⟨.operand (.integer 999999999999999999), "999999999999999999".toList⟩,
      ⟨.operand (.integer 2), ['2']⟩]
    (∃ ps last, IsScan s ps last ∧ ps.map Stretch.token = found) ∧
      s.length ≤ 24 ∧
      scanBytes 24 (Text.toUtf8 s) = some (found.map fun t => (t.kind, Text.toUtf8 t.text)) := by
  intro s found
  have htokens : tokens s = found := by decide +kernel
  obtain ⟨⟨ps, last, hscan, -, hps, -⟩, hbytes⟩ := tokens_scanned s
  have hlen : s.length ≤ 24 := by decide
  rw [htokens] at hps hbytes
  exact ⟨⟨ps, last, hscan, hps.symm⟩, hlen, hbytes 24 hlen⟩

/-! ### Delimiters -/

/-- A character that stands in no number and in no dice term delimits. -/
theorem tokens_delimited {c : Char} (hc : isInner c = false) (x y : Text) :
    tokens (x ++ c :: y) = tokens x ++ tokens [c] ++ tokens y := by
  have hleft : Parted x (c :: y) := fun _ _ _ hd => Or.inr (Option.some.inj hd ▸ hc)
  have hright : Parted [c] y := fun _ hd _ _ => Or.inl (Option.some.inj hd ▸ hc)
  rw [tokens_append hleft, ← List.singleton_append, tokens_append hright, List.append_assoc]

/-- A digit carries on the number in front of it. -/
theorem tokens_one_digit {c : Char} (hc : c.isDigit) :
    tokens ['1', c] = [⟨.operand (.integer (Text.digitsValue ['1', c])), ['1', c]⟩] := by
  have hdigits : ∀ d ∈ ['1', c], d.isDigit := by simp [hc]
  have hvalue : Text.digitsValue ['1', c] < 10 ^ 2 := Text.digitsValue_lt hdigits
  have hle : (Text.digitsValue ['1', c] : Int) ≤ maxValue := by
    unfold maxValue
    omega
  exact (Spells.integer (by simp) hdigits hle).isCut.tokens_eq

/-- **The delimiters**: a text can be taken apart at a character, whatever stands around it, if and only if
the character is no digit, no `d`, no `!` and no `?`. -/
theorem tokens_delimited_iff (c : Char) :
    (∀ x y : Text, tokens (x ++ c :: y) = tokens x ++ tokens [c] ++ tokens y) ↔
      c.isDigit = false ∧ c ≠ 'd' ∧ c ≠ '!' ∧ c ≠ '?' := by
  constructor
  · intro h
    refine ⟨Bool.eq_false_iff.mpr fun hdigit => ?_, ?_, ?_, ?_⟩
    · have hsplit := h ['1'] []
      have hone : tokens ['1'] = [⟨.operand (.integer 1), ['1']⟩] := by decide +kernel
      rw [List.singleton_append, tokens_one_digit hdigit, hone] at hsplit
      have htext : ['1', c] = ['1'] := congrArg Token.text (List.cons.inj hsplit).1
      cases htext
    · rintro rfl
      exact absurd (h ['1'] ['1']) (by decide +kernel)
    · rintro rfl
      exact absurd (h "1d1".toList []) (by decide +kernel)
    · rintro rfl
      exact absurd (h "1d1".toList []) (by decide +kernel)
  · rintro ⟨hdigit, hd, hh, hl⟩ x y
    exact tokens_delimited (by simp [isInner, hdigit, hd, hh, hl]) x y

end DiceBot.Lexer
