import DiceBot.Proofs.Toml.Scalars

/-! # Values on a line are read back

A value without tables is written on one line. It is read as the draft of the value, whatever depth its
arrays have, and the draft has the value (`readValue_inlineText`, `finish_draft`). -/

namespace DiceBot.Toml

variable {rest : Text}

/-! ### Values without tables -/

/-- A value without tables, as it is read. -/
inductive IsLine : Toml → Prop
  | scalar {v : Toml} (h : IsScalar v) : IsLine v
  | array {items : List Toml} (h : ∀ v ∈ items, IsLine v) : IsLine (.array items)

mutual

/-- A value without tables on a line. -/
def inlineText : Toml → Text
  | .array [] => "[]".toList
  | .array (v :: rest) => '[' :: (inlineText v ++ tailText rest)
  | v => scalarText v

/-- The items of an array behind the first, and its closing bracket. -/
def tailText : List Toml → Text
  | [] => [']']
  | v :: rest => ',' :: ' ' :: (inlineText v ++ tailText rest)

end

mutual

/-- A value without tables as it is written. -/
def draft : Toml → Draft
  | .array items => .array (drafts items)
  | v => .value v

/-- The items of an array as they are written. -/
def drafts : List Toml → List Draft
  | [] => []
  | v :: rest => draft v :: drafts rest

end

theorem inlineText_scalar {v : Toml} (h : IsScalar v) : inlineText v = scalarText v := by
  cases h <;> rfl

theorem draft_scalar {v : Toml} (h : IsScalar v) : draft v = .value v := by
  cases h <;> rfl

/-! ### Drafts -/

/-- **The draft of a value has that value.** -/
theorem finish_draft {v : Toml} (h : IsLine v) : (draft v).finish = some v := by
  induction h with
  | scalar h => rw [draft_scalar h, Draft.finish]
  | @array items h ih =>
    have hitems : finishItems (drafts items) = some items := by
      clear h
      induction items with
      | nil => rfl
      | cons v items ihl =>
        obtain ⟨hv, hitems⟩ := List.forall_mem_cons.mp ih
        rw [drafts, finishItems, hv, ihl hitems]
    rw [draft, Draft.finish, hitems]
    rfl

/-! ### The first character -/

/-- A character that a value may begin with. -/
def isValueStart (c : Char) : Bool := isWordChar c || c = '+' || c = '"' || c = '\'' || c = '['

/-- What is read as a value without parts begins as a value. -/
theorem isValueStart_of_readScalar {s : Text} {r : Toml × Text} (h : readScalar s = some r) :
    ∃ c t, s = c :: t ∧ isValueStart c ∧ c ≠ '[' := by
  unfold readScalar at h
  split at h
  · exact ⟨_, _, rfl, by decide, by decide⟩
  · exact ⟨_, _, rfl, by decide, by decide⟩
  · exact ⟨_, _, rfl, by decide, by decide⟩
  · cases hw : readWord s with
    | none =>
      rw [hw] at h
      cases h
    | some w =>
      unfold readWord at hw
      split_ifs at hw with hnil
      cases s with
      | nil => exact absurd rfl hnil
      | cons c t =>
        have hc : isWordChar c := by
          by_contra hc
          exact hnil (List.takeWhile_cons_of_neg hc)
        refine ⟨c, t, rfl, by simp [isValueStart, hc], ?_⟩
        rintro rfl
        cases hc

theorem head?_inlineText {v : Toml} (h : IsLine v) (hend : EndsValue rest) :
    ∃ c t, inlineText v ++ rest = c :: t ∧ isValueStart c := by
  cases h with
  | scalar h =>
    obtain ⟨c, t, ht, hc, -⟩ := isValueStart_of_readScalar (readScalar_scalarText h hend)
    exact ⟨c, t, by rw [inlineText_scalar h, ht], hc⟩
  | @array items h =>
    cases items with
    | nil => exact ⟨_, _, rfl, by decide⟩
    | cons v items => exact ⟨_, _, rfl, by decide⟩

theorem isSpace_of_isValueStart {c : Char} (hc : isValueStart c) : isSpace c = false := by
  rw [← Bool.not_eq_true]
  intro hs
  rcases (by simpa [isSpace] using hs : c = ' ' ∨ c = '\t') with rfl | rfl <;> cases hc

/-- Nothing is skipped in front of a value. -/
theorem skipFiller_of_isValueStart {c : Char} (hc : isValueStart c) (n : Nat) (s : Text) :
    skipFiller (n + 1) (c :: s) = some (c :: s) ∧ skipFiller (n + 1) (' ' :: c :: s) = some (c :: s) := by
  have hspace := isSpace_of_isValueStart hc
  have hline : c ≠ '\n' := by rintro rfl; cases hc
  have hcomment : c ≠ '#' := by rintro rfl; cases hc
  have hskip : skipSpaces (' ' :: c :: s) = c :: s :=
    (List.dropWhile_cons_of_pos rfl).trans (skipSpaces_cons hspace s)
  constructor
  · rw [skipFiller, skipSpaces_cons hspace]
    split <;> simp_all
  · rw [skipFiller, hskip]
    split <;> simp_all

theorem skipFiller_comma (n : Nat) (s : Text) : skipFiller (n + 1) (',' :: s) = some (',' :: s) := by
  rw [skipFiller, skipSpaces_cons (by decide)]
  rfl

theorem skipFiller_bracket (n : Nat) (s : Text) : skipFiller (n + 1) (']' :: s) = some (']' :: s) := by
  rw [skipFiller, skipSpaces_cons (by decide)]
  rfl

/-! ### Reading -/

theorem endsValue_tailText (items : List Toml) (rest : Text) : EndsValue (tailText items ++ rest) := by
  intro c hc
  cases items with
  | nil =>
    obtain rfl := Option.some.inj hc
    exact Or.inr (Or.inr rfl)
  | cons v items =>
    obtain rfl := Option.some.inj hc
    exact Or.inr (Or.inl rfl)

theorem readValue_scalar {v : Toml} (h : IsScalar v) (n : Nat) (hend : EndsValue rest) :
    readValue (n + 1) (scalarText v ++ rest) = some (.value v, rest) := by
  have hread := readScalar_scalarText h hend
  obtain ⟨c, t, ht, hc, hbracket⟩ := isValueStart_of_readScalar hread
  rw [ht] at hread ⊢
  unfold readValue
  split
  · rename_i heq
    exact absurd (List.cons.inj heq).1 hbracket
  · rename_i heq
    rw [(List.cons.inj heq).1] at hc
    cases hc
  · rw [hread]
    rfl

/-- A space in front of an item is skipped. -/
theorem readItems_space {c : Char} (hc : isValueStart c) (n : Nat) (s : Text) :
    readItems n (' ' :: c :: s) = readItems n (c :: s) := by
  cases n with
  | zero => rfl
  | succ n =>
    rw [readItems, readItems, (skipFiller_of_isValueStart hc _ s).1,
      (skipFiller_of_isValueStart hc _ s).2]

/-- After an item the array goes on behind a comma, or ends with the bracket. -/
theorem readItems_item {v : Toml} {d : Draft} {n : Nat} (h : IsLine v) (items : List Toml)
    (hread : readValue n (inlineText v ++ (tailText items ++ rest)) = some (d, tailText items ++ rest)) :
    readItems (n + 1) (inlineText v ++ (tailText items ++ rest)) =
      match items with
      | [] => some ([d], rest)
      | w :: items => (readItems n (' ' :: (inlineText w ++ (tailText items ++ rest)))).map
          fun (ds, s) => (d :: ds, s) := by
  obtain ⟨c, t, ht, hc⟩ := head?_inlineText h (endsValue_tailText items rest)
  have hfiller := (skipFiller_of_isValueStart hc (c :: t).length t).1
  have hbracket : c ≠ ']' := by rintro rfl; cases hc
  rw [ht] at hread ⊢
  rw [readItems, hfiller]
  simp only [Option.bind_eq_bind, Option.bind_some]
  split
  · rename_i heq
    exact absurd (List.cons.inj heq).1 hbracket
  · rw [hread]
    cases items with
    | nil =>
      simp only [Option.bind_some, tailText, List.cons_append, List.nil_append, skipFiller_bracket]
      rfl
    | cons w items =>
      simp only [Option.bind_some, tailText, List.cons_append, skipFiller_comma, List.append_assoc]
      rw [Option.map_eq_bind]
      rfl

/-- The items of an array are read back up to the closing bracket if each of them is. -/
theorem readItems_tailText {v : Toml} {items : List Toml} {n : Nat} (hline : ∀ w ∈ v :: items, IsLine w)
    (h : ∀ w ∈ v :: items, ∀ n rest, (inlineText w).length < n → EndsValue rest →
      readValue n (inlineText w ++ rest) = some (draft w, rest))
    (hn : (inlineText v ++ tailText items).length < n) (rest : Text) :
    readItems n (inlineText v ++ (tailText items ++ rest)) = some (drafts (v :: items), rest) := by
  induction items generalizing v n with
  | nil =>
    obtain ⟨m, rfl⟩ := Nat.exists_eq_add_of_lt hn
    rw [List.forall_mem_singleton] at hline h
    rw [readItems_item hline []]
    · rfl
    · exact h _ _ (by simp [tailText]; omega) (endsValue_tailText [] rest)
  | cons w items ih =>
    obtain ⟨m, rfl⟩ := Nat.exists_eq_add_of_lt hn
    obtain ⟨hv, hlines⟩ := List.forall_mem_cons.mp hline
    obtain ⟨hread, hreads⟩ := List.forall_mem_cons.mp h
    have hlen : (tailText (w :: items)).length = (inlineText w ++ tailText items).length + 2 := by
      simp [tailText]
    rw [List.length_append] at hn ⊢
    obtain ⟨c, t, ht, hc⟩ := head?_inlineText (hlines w (List.mem_cons_self ..))
      (endsValue_tailText items rest)
    rw [readItems_item hv (w :: items) (hread _ _ (by omega) (endsValue_tailText _ _))]
    simp only []
    rw [ht, readItems_space hc, ← ht, ih hlines hreads (by omega)]
    rfl

/-- **A value without tables is read back.** -/
theorem readValue_inlineText {v : Toml} (h : IsLine v) {n : Nat} (hn : (inlineText v).length < n)
    (hend : EndsValue rest) : readValue n (inlineText v ++ rest) = some (draft v, rest) := by
  induction h generalizing n rest with
  | scalar h =>
    obtain ⟨m, rfl⟩ := Nat.exists_eq_add_of_lt hn
    rw [inlineText_scalar h, draft_scalar h, readValue_scalar h _ hend]
  | @array items h ih =>
    obtain ⟨m, rfl⟩ := Nat.exists_eq_add_of_lt hn
    cases items with
    | nil =>
      have hitems (n : Nat) : readItems (n + 1) (']' :: rest) = some ([], rest) := by
        rw [readItems, skipFiller_bracket]
        rfl
      have hfuel : (inlineText (.array [])).length + m = m + 1 + 1 := Nat.add_comm 2 m
      show readValue (_ + 1) ('[' :: ']' :: rest) = _
      rw [readValue, hfuel, hitems]
      rfl
    | cons v items =>
      have hread := readItems_tailText (n := (inlineText (.array (v :: items))).length + m) h
        (fun w hw n rest hn hend => ih w hw hn hend) (by simp [inlineText]; omega) rest
      show readValue _ ('[' :: (inlineText v ++ tailText items ++ rest)) = _
      rw [readValue, List.append_assoc, hread]
      rfl

end DiceBot.Toml
