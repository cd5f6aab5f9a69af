import DiceBot.Bot.Reply
import DiceBot.Proofs.Expr.Totals
import DiceBot.Proofs.Text.Digits
import DiceBot.Proofs.Text.Runs

/-! # What a message says about a roll

The message for a roll puts the expression as typed, the value and the records one behind the other,
without quotation marks. It can be taken apart again because of the characters that may stand in each
part: a valid expression holds no `Y`, with which the words behind it begin, and no number and no dice term
holds the mark that ends it (`Reply.rolled_inj`). So the message for an outcome tells the expression, the
value and every die, and it is never the message for an error (`reply_rolled_tells`). -/

namespace DiceBot

/-! ### Parts of a text -/

namespace Text

theorem mem_join {c : Char} {sep : Text} : ∀ {ps : List Text}, c ∈ join sep ps →
    c ∈ sep ∨ ∃ p ∈ ps, c ∈ p
  | [], h => by cases h
  | [p], h => by
    rw [join, List.intersperse_singleton, List.flatten_singleton] at h
    exact Or.inr ⟨p, List.mem_cons_self, h⟩
  | p :: q :: ps, h => by
    rw [join, List.intersperse_cons_cons, List.flatten_cons, List.flatten_cons, List.mem_append,
      List.mem_append] at h
    rcases h with h | h | h
    · exact Or.inr ⟨p, List.mem_cons_self, h⟩
    · exact Or.inl h
    · obtain hsep | ⟨r, hr, hc⟩ := mem_join h
      · exact Or.inl hsep
      · exact Or.inr ⟨r, List.mem_cons_of_mem p hr, hc⟩

/-- Pieces that are not empty have a text that is not empty. -/
theorem eq_nil_of_join {sep : Text} {ps : List Text} (hps : ∀ p ∈ ps, p ≠ []) (h : join sep ps = []) :
    ps = [] := by
  cases ps with
  | nil => rfl
  | cons p ps =>
    refine absurd ?_ (hps p List.mem_cons_self)
    cases ps <;> simp_all [join]

/-- Pieces that are not empty and hold no mark are told from their text with marks between them. -/
theorem join_inj {mark : Char} {ps qs : List Text} (hps : ∀ p ∈ ps, p ≠ [] ∧ mark ∉ p)
    (hqs : ∀ q ∈ qs, q ≠ [] ∧ mark ∉ q) (h : join [mark] ps = join [mark] qs) : ps = qs := by
  by_cases hp : ps = []
  · subst hp
    exact (eq_nil_of_join (fun q hq => (hqs q hq).1) h.symm).symm
  by_cases hq : qs = []
  · subst hq
    exact absurd (eq_nil_of_join (fun p hp => (hps p hp).1) h) hp
  have hsplit : List.splitOn mark (List.intercalate [mark] ps) =
      List.splitOn mark (List.intercalate [mark] qs) := congrArg (List.splitOn mark) h
  rwa [List.splitOn_intercalate mark (fun p hm => (hps p hm).2) hp,
    List.splitOn_intercalate mark (fun q hm => (hqs q hm).2) hq] at hsplit

end Text

/-! ### The characters of an expression -/

/-- An operand is written with inner characters only. -/
theorem Spells.isInner {o : Operand} {x : Text} (h : Spells (.operand o) x) : ∀ c ∈ x, isInner c := by
  intro c hc
  cases h with
  | integer _ hd _ => simp [DiceBot.isInner, hd c hc]
  | dice k hn hm =>
    simp only [List.mem_append, List.mem_cons] at hc
    rcases hc with (hc | rfl | hc) | hc
    · simp [DiceBot.isInner, hn.isDigit c hc]
    · rfl
    · simp [DiceBot.isInner, hm.isDigit c hc]
    · cases k <;> simp only [Modifier.mark, List.mem_singleton, List.not_mem_nil] at hc <;> subst hc <;> rfl

/-- No token holds the letter `Y`. -/
theorem Spells.not_mem_letterY {k : TokenKind} {x : Text} (h : Spells k x) : 'Y' ∉ x := by
  intro hy
  cases k with
  | operand o => exact absurd (h.isInner 'Y' hy) (by decide)
  | operator op =>
    cases h
    cases op <;> exact absurd hy (by decide)
  | leftParen | rightParen =>
    cases h
    exact absurd hy (by decide)

/-- A valid text holds no letter `Y`. -/
theorem IsCut.not_mem_letterY {s : Text} {ts : List Token} (h : IsCut s ts) : 'Y' ∉ s := by
  intro hy
  have hmem : 'Y' ∈ Text.removeBlanks s := List.mem_filter.mpr ⟨hy, by decide⟩
  rw [h.removeBlanks_eq] at hmem
  obtain ⟨t, ht, hyt⟩ := List.mem_flatMap.mp hmem
  exact (h.spells t ht).not_mem_letterY hyt

/-- **What an outcome is told by**: its expression holds no letter `Y`, and no term in its records an
asterisk. -/
theorem not_mem_of_yields {σ : Type} [WordSource σ] {limits : Limits} {s : Text} {out : Outcome} {g g' : σ}
    (h : (evaluate limits s).Yields g out g') : 'Y' ∉ s ∧ ∀ r ∈ out.rolls, '*' ∉ r.expression := by
  obtain ⟨ts, hcut, hwithin⟩ := exists_within_of_yields h
  refine ⟨hcut.not_mem_letterY, fun r hr hstar => ?_⟩
  have hexpressions := IsRecord.map_expression (hwithin.imp fun _ _ h => h.2.1)
  have hmem : r.expression ∈ (ts.filterMap Token.dice?).map Prod.snd :=
    hexpressions ▸ List.mem_map_of_mem hr
  obtain ⟨⟨term, x⟩, hterm, hx⟩ := List.mem_map.mp hmem
  obtain ⟨t, ht, hdice⟩ := List.mem_filterMap.mp hterm
  obtain rfl := Token.dice?_eq_some_iff.mp hdice
  obtain rfl : x = r.expression := hx
  exact absurd ((hcut.spells _ ht).isInner '*' hstar) (by decide)

/-! ### The message -/

namespace Reply

/-- The dice of a record as they are written. -/
def diceText (results : List UInt32) : Text := Text.join [' '] (results.map fun d => Text.ofNat d.toNat)

theorem diceText_injective : Function.Injective diceText := by
  intro ds es h
  have hpieces : ∀ fs : List UInt32, ∀ p ∈ fs.map fun d => Text.ofNat d.toNat, p ≠ [] ∧ ' ' ∉ p := by
    intro fs p hp
    obtain ⟨d, -, rfl⟩ := List.mem_map.mp hp
    exact ⟨Text.ofNat_ne_nil _, fun hblank => by cases Text.isDigit_of_mem_ofNat hblank⟩
  have hmap := Text.join_inj (hpieces ds) (hpieces es) h
  exact List.map_injective_iff.mpr (fun d e hde => UInt32.toNat_inj.mp (Text.ofNat_injective hde)) hmap

theorem bracket_not_mem_diceText (results : List UInt32) : ']' ∉ diceText results := by
  intro h
  obtain hblank | ⟨p, hp, hbracket⟩ := Text.mem_join h
  · exact absurd hblank (by decide)
  · obtain ⟨d, -, rfl⟩ := List.mem_map.mp hp
    cases Text.isDigit_of_mem_ofNat hbracket

/-- A record in front of other text: its term ends at an asterisk, and its dice at a bracket. -/
theorem rollLine_append (r : RollRecord) (rest : Text) : rollLine r ++ rest =
    "> 🎲 **".toList ++ (r.expression ++ '*' :: ("* [".toList ++
      (diceText r.results ++ ']' :: '\n' :: rest))) := by
  have hmiddle : "** [".toList = '*' :: "* [".toList := rfl
  have hend : "]\n".toList = [']', '\n'] := rfl
  unfold rollLine diceText
  simp only [hmiddle, hend, List.append_assoc, List.cons_append, List.nil_append]

/-- A record is told from the text that begins with it. -/
theorem rollLine_append_inj {r r' : RollRecord} {rest rest' : Text} (hr : '*' ∉ r.expression)
    (hr' : '*' ∉ r'.expression) (h : rollLine r ++ rest = rollLine r' ++ rest') : r = r' ∧ rest = rest' := by
  rw [rollLine_append, rollLine_append] at h
  obtain ⟨hexpression, h⟩ := Text.append_mark_inj hr hr' (List.append_cancel_left h)
  obtain ⟨hdice, h⟩ := Text.append_mark_inj (bracket_not_mem_diceText _) (bracket_not_mem_diceText _)
    (List.append_cancel_left h)
  refine ⟨?_, (List.cons.inj h).2⟩
  cases r
  cases r'
  rw [RollRecord.mk.injEq]
  exact ⟨hexpression, diceText_injective hdice⟩

/-- **Records are told from their lines.** -/
theorem rollLines_inj : ∀ {rs rs' : List RollRecord}, (∀ r ∈ rs, '*' ∉ r.expression) →
    (∀ r ∈ rs', '*' ∉ r.expression) → rs.flatMap rollLine = rs'.flatMap rollLine → rs = rs'
  | [], [], _, _, _ => rfl
  | [], r :: rs, _, _, h => by
    rw [List.flatMap_cons, rollLine_append] at h
    cases h
  | r :: rs, [], _, _, h => by
    rw [List.flatMap_cons, rollLine_append] at h
    cases h
  | r :: rs, r' :: rs', hrs, hrs', h => by
    obtain ⟨hr, htail⟩ := List.forall_mem_cons.mp hrs
    obtain ⟨hr', htail'⟩ := List.forall_mem_cons.mp hrs'
    rw [List.flatMap_cons, List.flatMap_cons] at h
    obtain ⟨rfl, hlines⟩ := rollLine_append_inj hr hr' h
    rw [rollLines_inj htail htail' hlines]

/-- The parts of the message for an outcome: the expression and a line feed end where the first `Y` stands
behind the opening words, and the value at an asterisk. -/
theorem rolled_eq (e : Text) (o : Outcome) : rolled e o =
    "You asked me to roll: ".toList ++ ((e ++ ['\n']) ++ 'Y' :: ("ou rolled a **".toList ++
      (Text.ofInt o.value ++ '*' :: ("*!\n> *ROLL RESULTS*\n".toList ++ o.rolls.flatMap rollLine)))) := by
  have hmiddle : "\nYou rolled a **".toList = '\n' :: 'Y' :: "ou rolled a **".toList := rfl
  have hend : "**!\n> *ROLL RESULTS*\n".toList = '*' :: "*!\n> *ROLL RESULTS*\n".toList := rfl
  unfold rolled
  simp only [hmiddle, hend, List.append_assoc, List.cons_append, List.nil_append]

/-- **Expression and outcome are told from the message.** -/
theorem rolled_inj {e e' : Text} {o o' : Outcome} (he : 'Y' ∉ e) (he' : 'Y' ∉ e')
    (ho : ∀ r ∈ o.rolls, '*' ∉ r.expression) (ho' : ∀ r ∈ o'.rolls, '*' ∉ r.expression)
    (h : rolled e o = rolled e' o') : e = e' ∧ o = o' := by
  have hline : ∀ {s : Text}, 'Y' ∉ s → 'Y' ∉ s ++ ['\n'] := fun hs hy =>
    (List.mem_append.mp hy).elim hs (by decide)
  have hvalue : ∀ n : Int, '*' ∉ Text.ofInt n := fun n hstar =>
    (Text.isDigit_or_eq_of_mem_ofInt hstar).elim (by decide) (by decide)
  rw [rolled_eq, rolled_eq] at h
  obtain ⟨hexpression, h⟩ := Text.append_mark_inj (hline he) (hline he') (List.append_cancel_left h)
  obtain ⟨hv, h⟩ := Text.append_mark_inj (hvalue _) (hvalue _) (List.append_cancel_left h)
  have hrolls := rollLines_inj ho ho' (List.append_cancel_left h)
  refine ⟨List.append_cancel_right hexpression, ?_⟩
  cases o
  cases o'
  rw [Outcome.mk.injEq]
  exact ⟨Text.ofInt_injective hv, hrolls⟩

theorem rolled_ne_notRolled (e e' : Text) (o : Outcome) (err : EvalError) :
    rolled e o ≠ notRolled e' err := by
  have hrolled : "You asked me to roll: ".toList = 'Y' :: "ou asked me to roll: ".toList := rfl
  have hnot : "**Uh-oh!** Error occurred parsing: ".toList =
      '*' :: "*Uh-oh!** Error occurred parsing: ".toList := rfl
  intro h
  unfold rolled notRolled at h
  simp only [hrolled, hnot, List.cons_append, List.cons.injEq] at h
  exact absurd h.1 (by decide)

end Reply

/-- **The message for a roll loses nothing**: two outcomes of expressions have the same message only if the
expressions, the values and all records are the same. No outcome has the message of an error. -/
theorem reply_rolled_tells (p p' : Text) (m m' : Limits) :
    (∀ {σ τ : Type} [WordSource σ] [WordSource τ] {limits limits' : Limits} {e e' : Text} {o o' : Outcome}
      {g g' : σ} {k k' : τ}, (evaluate limits e).Yields g o g' → (evaluate limits' e').Yields k o' k' →
      reply p m (.rolled e (.ok o)) = reply p' m' (.rolled e' (.ok o')) →
        e = e' ∧ o.value = o'.value ∧ o.rolls = o'.rolls) ∧
    ∀ (e e' : Text) (o : Outcome) (err : EvalError),
      reply p m (.rolled e (.ok o)) ≠ reply p' m' (.rolled e' (.error err)) := by
  refine ⟨fun h h' heq => ?_, fun e e' o err => Reply.rolled_ne_notRolled e e' o err⟩
  obtain ⟨he, ho⟩ := not_mem_of_yields h
  obtain ⟨he', ho'⟩ := not_mem_of_yields h'
  obtain ⟨hexpression, rfl⟩ := Reply.rolled_inj he he' ho ho' heq
  exact ⟨hexpression, rfl, rfl⟩

/-- The same total from the same dice in another order, and an expression with a line feed in it. -/
theorem reply_rolled_tells_order :
    let e := "1d4\n+1d4".toList
    let o : Outcome := ⟨3, [⟨"1d4".toList, [1]⟩, ⟨"1d4".toList, [2]⟩]⟩
    let o' : Outcome := ⟨3, [⟨"1d4".toList, [2]⟩, ⟨"1d4".toList, [1]⟩]⟩
    (evaluate ⟨none, none⟩ e).Yields (⟨[0, 0x40000000]⟩ : Script) o ⟨[]⟩ ∧
      (evaluate ⟨none, none⟩ e).Yields (⟨[0x40000000, 0]⟩ : Script) o' ⟨[]⟩ ∧
      reply [] ⟨none, none⟩ (.rolled e (.ok o)) ≠ reply [] ⟨none, none⟩ (.rolled e (.ok o')) := by
  intro e o o'
  have hyields : (evaluate ⟨none, none⟩ e).Yields (⟨[0, 0x40000000]⟩ : Script) o ⟨[]⟩ := by
    unfold Rolling.Yields
    decide +kernel
  have hyields' : (evaluate ⟨none, none⟩ e).Yields (⟨[0x40000000, 0]⟩ : Script) o' ⟨[]⟩ := by
    unfold Rolling.Yields
    decide +kernel
  refine ⟨hyields, hyields', fun heq => ?_⟩
  exact absurd ((reply_rolled_tells [] [] ⟨none, none⟩ ⟨none, none⟩).1 hyields hyields' heq).2.2 (by decide)

end DiceBot
