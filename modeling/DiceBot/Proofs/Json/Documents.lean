import DiceBot.Proofs.Json.Scalars
import DiceBot.Proofs.Json.Strings

/-! # Documents

The grammar of JSON as a relation between values and the bytes they are written with (`Written`), and
the reader as its inverse: a document has a value just if it is that value with blanks around it
(`ofDocument?_eq_some_iff`). -/

namespace DiceBot.Json

/-! ### The grammar -/

/-- Bytes that stand between the parts of a document and mean nothing. -/
def Blanks (w : List UInt8) : Prop := ∀ b ∈ w, isBlank b

mutual

/-- The bytes of a value. -/
inductive Written : Json → List UInt8 → Prop
  | scalar {v : Json} {x : List UInt8} (h : WrittenScalar v x) : Written v x
  | string {us : JsonString} {x : List UInt8} (h : WrittenUnits us x) :
      Written (.string us) (quoteMark :: (x ++ [quoteMark]))
  | noItems {w : List UInt8} (hw : Blanks w) : Written (.array []) (leftBracket :: (w ++ [rightBracket]))
  | items {vs : List Json} {x : List UInt8} (h : WrittenItems vs x) :
      Written (.array vs) (leftBracket :: (x ++ [rightBracket]))
  | noMembers {w : List UInt8} (hw : Blanks w) : Written (.object []) (leftBrace :: (w ++ [rightBrace]))
  | members {ms : List (JsonString × Json)} {x : List UInt8} (h : WrittenMembers ms x) :
      Written (.object ms) (leftBrace :: (x ++ [rightBrace]))

/-- A value with blanks around it. -/
inductive Padded : Json → List UInt8 → Prop
  | mk {w x w' : List UInt8} {v : Json} (hw : Blanks w) (h : Written v x) (hw' : Blanks w') :
      Padded v (w ++ (x ++ w'))

/-- The items of an array, at least one, with commas between them. -/
inductive WrittenItems : List Json → List UInt8 → Prop
  | last {v : Json} {x : List UInt8} (h : Padded v x) : WrittenItems [v] x
  | cons {v : Json} {x : List UInt8} {vs : List Json} {y : List UInt8} (h : Padded v x)
      (hs : WrittenItems vs y) : WrittenItems (v :: vs) (x ++ comma :: y)

/-- A key, a colon and a value, with blanks around each. -/
inductive WrittenMember : JsonString × Json → List UInt8 → Prop
  | mk {w x w' y : List UInt8} {k : JsonString} {v : Json} (hw : Blanks w) (hk : WrittenUnits k x)
      (hw' : Blanks w') (hv : Padded v y) :
      WrittenMember (k, v) (w ++ quoteMark :: (x ++ quoteMark :: (w' ++ colon :: y)))

/-- The members of an object, at least one, with commas between them. -/
inductive WrittenMembers : List (JsonString × Json) → List UInt8 → Prop
  | last {m : JsonString × Json} {x : List UInt8} (h : WrittenMember m x) : WrittenMembers [m] x
  | cons {m : JsonString × Json} {x : List UInt8} {ms : List (JsonString × Json)} {y : List UInt8}
      (h : WrittenMember m x) (hs : WrittenMembers ms y) : WrittenMembers (m :: ms) (x ++ comma :: y)

end

variable {s t w x y rest : List UInt8} {v : Json} {n : Nat}

/-! ### Blanks -/

theorem skipBlanks_append {b : UInt8} (hw : Blanks w) (hb : isBlank b = false) (t : List UInt8) :
    skipBlanks (w ++ b :: t) = b :: t :=
  Text.dropWhile_run_append hw fun c hc => by
    cases hc
    exact hb

theorem skipBlanks_eq_nil (hw : Blanks w) : skipBlanks w = [] := by
  have hdrop := Text.dropWhile_run_append (t := []) hw fun c hc => by cases hc
  rwa [List.append_nil] at hdrop

/-- What is passed over in front is blanks. -/
theorem blanks_of_skipBlanks (h : skipBlanks s = t) : ∃ w, Blanks w ∧ s = w ++ t := by
  refine ⟨s.takeWhile isBlank, fun b => List.mem_takeWhile_imp, ?_⟩
  rw [← h]
  exact List.takeWhile_append_dropWhile.symm

theorem blanks_nil : Blanks [] := fun _ hb => absurd hb List.not_mem_nil

/-- A value stands without blanks around it. -/
theorem Written.padded (h : Written v x) : Padded v x := by
  have hpadded := Padded.mk blanks_nil h blanks_nil
  rwa [List.nil_append, List.append_nil] at hpadded

theorem EndsNumber.blanks (hw : Blanks w) (h : EndsNumber t) : EndsNumber (w ++ t) := by
  cases w with
  | nil => exact h
  | cons b w =>
    intro c hc
    cases hc
    have hb := hw b List.mem_cons_self
    simp only [isBlank, Bool.or_eq_true, decide_eq_true_eq] at hb
    rcases hb with ((rfl | rfl) | rfl) | rfl <;> decide

/-! ### One step -/

theorem readValue_string (h : skipBlanks s = quoteMark :: t) :
    readValue (n + 1) s = (readString t).map fun r => (.string r.1, r.2) := by
  rw [readValue, h]
  rfl

theorem readValue_array (h : skipBlanks s = leftBracket :: t) :
    readValue (n + 1) s =
      match skipBlanks t with
      | rightBracket :: r => some (.array [], r)
      | _ => (readItems n t).map fun r => (.array r.1, r.2) := by
  rw [readValue, h]
  rfl

theorem readValue_object (h : skipBlanks s = leftBrace :: t) :
    readValue (n + 1) s =
      match skipBlanks t with
      | rightBrace :: r => some (.object [], r)
      | _ => (readMembers n t).map fun r => (.object r.1, r.2) := by
  rw [readValue, h]
  rfl

theorem readValue_scalar (hquote : ∀ t, skipBlanks s ≠ quoteMark :: t)
    (hbracket : ∀ t, skipBlanks s ≠ leftBracket :: t) (hbrace : ∀ t, skipBlanks s ≠ leftBrace :: t) :
    readValue (n + 1) s = readScalar (skipBlanks s) := by
  rw [readValue]
  split
  · next h => exact absurd h (hquote _)
  · next h => exact absurd h (hbracket _)
  · next h => exact absurd h (hbrace _)
  · rfl

theorem readItems_cons (hv : readValue n s = some (v, t)) (ht : skipBlanks t = comma :: rest) :
    readItems (n + 1) s = (readItems n rest).map fun r => (v :: r.1, r.2) := by
  rw [readItems, hv]
  simp only [Option.bind_eq_bind, Option.bind_some, ht]
  exact Option.map_eq_bind.symm

theorem readItems_last (hv : readValue n s = some (v, t)) (ht : skipBlanks t = rightBracket :: rest) :
    readItems (n + 1) s = some ([v], rest) := by
  rw [readItems, hv]
  simp only [Option.bind_eq_bind, Option.bind_some, ht]
  rfl

theorem readMembers_cons {k : JsonString} {q : List UInt8} (hk : readKey (skipBlanks s) = some (k, t))
    (hv : readValue n t = some (v, q)) (hq : skipBlanks q = comma :: rest) :
    readMembers (n + 1) s = (readMembers n rest).map fun r => ((k, v) :: r.1, r.2) := by
  rw [readMembers, hk]
  simp only [Option.bind_eq_bind, Option.bind_some, hv, hq]
  exact Option.map_eq_bind.symm

theorem readMembers_last {k : JsonString} {q : List UInt8} (hk : readKey (skipBlanks s) = some (k, t))
    (hv : readValue n t = some (v, q)) (hq : skipBlanks q = rightBrace :: rest) :
    readMembers (n + 1) s = some ([(k, v)], rest) := by
  rw [readMembers, hk]
  simp only [Option.bind_eq_bind, Option.bind_some, hv, hq]
  rfl

/-! ### Keys -/

theorem readKey_append {k : JsonString} (hk : WrittenUnits k x) (hw : Blanks w) (t : List UInt8) :
    readKey (quoteMark :: (x ++ quoteMark :: (w ++ colon :: t))) = some (k, t) := by
  refine (readKey.eq_1 _).trans ?_
  rw [readString_append hk]
  simp only [Option.bind_eq_bind, Option.bind_some, skipBlanks_append hw (b := colon) rfl]
  rfl

theorem written_of_readKey {k : JsonString} (h : readKey s = some (k, t)) :
    ∃ x w, WrittenUnits k x ∧ Blanks w ∧ s = quoteMark :: (x ++ quoteMark :: (w ++ colon :: t)) := by
  unfold readKey at h
  split at h
  · obtain ⟨⟨k', r⟩, hk, h⟩ := Option.bind_eq_some_iff.mp h
    dsimp only at h
    split at h
    · next hcolon =>
      cases h
      obtain ⟨x, hx, rfl⟩ := writtenUnits_of_readString hk
      obtain ⟨w, hw, rfl⟩ := blanks_of_skipBlanks hcolon
      exact ⟨x, w, hx, hw, rfl⟩
    · cases h
  · cases h

/-! ### What is read is written -/

mutual

theorem written_of_readValue : ∀ {n : Nat} {s : List UInt8} {v : Json} {rest : List UInt8},
    readValue n s = some (v, rest) → ∃ w x, Blanks w ∧ Written v x ∧ s = w ++ (x ++ rest)
  | 0, _, _, _, h => by cases h
  | n + 1, s, v, rest, h => by
    rw [readValue] at h
    obtain ⟨w, hw, hs⟩ := blanks_of_skipBlanks (s := s) rfl
    rw [hs]
    refine ⟨w, ?_⟩
    split at h
    · next hquote =>
      obtain ⟨⟨us, r⟩, hus, h⟩ := Option.map_eq_some_iff.mp h
      cases h
      obtain ⟨x, hx, rfl⟩ := writtenUnits_of_readString hus
      exact ⟨_, hw, .string hx, by simp [hquote]⟩
    · next t hbracket =>
      split at h
      · next hclose =>
        cases h
        obtain ⟨w', hw', rfl⟩ := blanks_of_skipBlanks hclose
        exact ⟨_, hw, .noItems hw', by simp [hbracket]⟩
      · obtain ⟨⟨vs, r⟩, hvs, h⟩ := Option.map_eq_some_iff.mp h
        cases h
        obtain ⟨x, hx, rfl⟩ := written_of_readItems hvs
        exact ⟨_, hw, .items hx, by simp [hbracket]⟩
    · next t hbrace =>
      split at h
      · next hclose =>
        cases h
        obtain ⟨w', hw', rfl⟩ := blanks_of_skipBlanks hclose
        exact ⟨_, hw, .noMembers hw', by simp [hbrace]⟩
      · obtain ⟨⟨ms, r⟩, hms, h⟩ := Option.map_eq_some_iff.mp h
        cases h
        obtain ⟨x, hx, rfl⟩ := written_of_readMembers hms
        exact ⟨_, hw, .members hx, by simp [hbrace]⟩
    · obtain ⟨x, hx, ht⟩ := writtenScalar_of_readScalar h
      exact ⟨x, hw, .scalar hx, by rw [ht]⟩

theorem written_of_readItems : ∀ {n : Nat} {s : List UInt8} {vs : List Json} {rest : List UInt8},
    readItems n s = some (vs, rest) → ∃ x, WrittenItems vs x ∧ s = x ++ rightBracket :: rest
  | 0, _, _, _, h => by cases h
  | n + 1, s, vs, rest, h => by
    rw [readItems] at h
    obtain ⟨⟨v, t⟩, hv, hnext⟩ := Option.bind_eq_some_iff.mp h
    obtain ⟨w, x, hw, hx, rfl⟩ := written_of_readValue hv
    dsimp only at hnext
    split at hnext
    · next r hcomma =>
      obtain ⟨⟨us, q⟩, hus, hend⟩ := Option.bind_eq_some_iff.mp hnext
      cases hend
      obtain ⟨w', hw', rfl⟩ := blanks_of_skipBlanks hcomma
      obtain ⟨y, hy, rfl⟩ := written_of_readItems hus
      exact ⟨_, .cons ⟨hw, hx, hw'⟩ hy, by simp⟩
    · next r hclose =>
      cases hnext
      obtain ⟨w', hw', rfl⟩ := blanks_of_skipBlanks hclose
      exact ⟨_, .last ⟨hw, hx, hw'⟩, by simp⟩
    · cases hnext

theorem written_of_readMembers : ∀ {n : Nat} {s : List UInt8} {ms : List (JsonString × Json)}
    {rest : List UInt8}, readMembers n s = some (ms, rest) →
      ∃ x, WrittenMembers ms x ∧ s = x ++ rightBrace :: rest
  | 0, _, _, _, h => by cases h
  | n + 1, s, ms, rest, h => by
    rw [readMembers] at h
    obtain ⟨⟨k, t⟩, hk, hvalue⟩ := Option.bind_eq_some_iff.mp h
    obtain ⟨⟨v, r⟩, hv, hnext⟩ := Option.bind_eq_some_iff.mp hvalue
    obtain ⟨z, w₂, hz, hw₂, hs⟩ := written_of_readKey hk
    obtain ⟨w₁, hw₁, rfl⟩ := blanks_of_skipBlanks hs
    obtain ⟨w, x, hw, hx, rfl⟩ := written_of_readValue hv
    dsimp only at hnext
    split at hnext
    · next r hcomma =>
      obtain ⟨⟨us, q⟩, hus, hend⟩ := Option.bind_eq_some_iff.mp hnext
      cases hend
      obtain ⟨w', hw', rfl⟩ := blanks_of_skipBlanks hcomma
      obtain ⟨y, hy, rfl⟩ := written_of_readMembers hus
      exact ⟨_, .cons (.mk hw₁ hz hw₂ ⟨hw, hx, hw'⟩) hy, by simp⟩
    · next r hclose =>
      cases hnext
      obtain ⟨w', hw', rfl⟩ := blanks_of_skipBlanks hclose
      exact ⟨_, .last (.mk hw₁ hz hw₂ ⟨hw, hx, hw'⟩), by simp⟩
    · cases hnext

end

/-! ### What is written is read -/

/-- A value begins with a byte that is neither a blank nor a closing bracket. -/
theorem Written.head (h : Written v x) :
    ∃ b y, x = b :: y ∧ isBlank b = false ∧ b ≠ rightBracket := by
  cases h with
  | scalar h =>
    obtain ⟨b, y, rfl, hb⟩ := h.head
    refine ⟨b, y, rfl, hb.isBlank, ?_⟩
    rintro rfl
    exact absurd hb (by decide)
  | string _ | noItems _ | items _ | noMembers _ | members _ => exact ⟨_, _, rfl, rfl, by decide⟩

/-- The items of an array do not begin with its closing bracket. -/
theorem WrittenItems.head {vs : List Json} (h : WrittenItems vs x) (t r : List UInt8) :
    skipBlanks (x ++ t) ≠ rightBracket :: r := by
  have hpadded : ∃ v y z, Padded v y ∧ x = y ++ z := by
    cases h with
    | last h => exact ⟨_, x, [], h, (List.append_nil x).symm⟩
    | cons h _ => exact ⟨_, _, _, h, rfl⟩
  obtain ⟨v, y, z, ⟨hw, hy, hw'⟩, rfl⟩ := hpadded
  obtain ⟨b, y, rfl, hblank, hne⟩ := hy.head
  intro hclose
  simp only [List.append_assoc, List.cons_append, skipBlanks_append hw hblank] at hclose
  exact hne (List.cons.inj hclose).1

/-- The key of a member is read up to the value. -/
theorem readKey_member {m : JsonString × Json} (h : WrittenMember m x) :
    ∃ y, Padded m.2 y ∧ y.length < x.length ∧
      ∀ t, readKey (skipBlanks (x ++ t)) = some (m.1, y ++ t) := by
  obtain @⟨w, z, w', y, k, v, hw, hk, hw', hv⟩ := h
  refine ⟨y, hv, ?_, fun t => ?_⟩
  · simp only [List.length_append, List.length_cons]
    omega
  · simp only [List.append_assoc, List.cons_append]
    rw [skipBlanks_append hw rfl, readKey_append hk hw']

/-- The members of an object do not begin with its closing brace. -/
theorem WrittenMembers.head {ms : List (JsonString × Json)} (h : WrittenMembers ms x)
    (t r : List UInt8) : skipBlanks (x ++ t) ≠ rightBrace :: r := by
  have hmember : ∃ m y z, WrittenMember m y ∧ x = y ++ z := by
    cases h with
    | last h => exact ⟨_, x, [], h, (List.append_nil x).symm⟩
    | cons h _ => exact ⟨_, _, _, h, rfl⟩
  obtain ⟨m, y, z, hy, rfl⟩ := hmember
  obtain ⟨_, _, _, hkey⟩ := readKey_member hy
  have hread := hkey (z ++ t)
  intro hclose
  rw [List.append_assoc] at hclose
  rw [hclose] at hread
  cases hread

/-- What follows a value in a list ends a number. -/
theorem endsNumber_of_blanks {b : UInt8} (hw : Blanks w)
    (hb : b = comma ∨ b = rightBracket ∨ b = rightBrace) (t : List UInt8) :
    EndsNumber (w ++ b :: t) := by
  refine EndsNumber.blanks hw fun c hc => ?_
  cases hc
  rcases hb with rfl | rfl | rfl <;> decide

mutual

theorem readValue_append : ∀ {n : Nat} {v : Json} {w x : List UInt8}, Blanks w → Written v x →
    2 * x.length + 1 ≤ n → ∀ rest, (∀ y, v = .number y → EndsNumber rest) →
    readValue n (w ++ (x ++ rest)) = some (v, rest)
  | 0, _, _, _, _, _, h, _, _ => by cases h
  | n + 1, v, w, x, hw, hx, h, rest, hrest => by
    cases hx with
    | scalar hx =>
      obtain ⟨b, y, rfl, hb⟩ := hx.head
      have hread := readScalar_append hx hrest
      have hskip : skipBlanks (w ++ (b :: y ++ rest)) = b :: y ++ rest :=
        skipBlanks_append hw hb.isBlank _
      have hne : ∀ c, ¬ BeginsScalar c → ∀ t, skipBlanks (w ++ (b :: y ++ rest)) ≠ c :: t := by
        intro c hc t h
        rw [hskip] at h
        obtain ⟨rfl, -⟩ := List.cons.inj h
        exact hc hb
      rw [readValue_scalar (hne _ (by decide)) (hne _ (by decide)) (hne _ (by decide)), hskip, hread]
    | @string us x hx =>
      simp only [List.append_assoc, List.cons_append, List.nil_append]
      rw [readValue_string (skipBlanks_append hw rfl _), readString_append hx]
      rfl
    | @noItems w' hw' =>
      simp only [List.append_assoc, List.cons_append, List.nil_append]
      rw [readValue_array (skipBlanks_append hw rfl _), skipBlanks_append hw' rfl]
      rfl
    | @items vs x hx =>
      simp only [List.length_cons, List.length_append] at h
      have hread := readItems_append (n := n) hx (by omega) rest
      simp only [List.append_assoc, List.cons_append, List.nil_append]
      rw [readValue_array (skipBlanks_append hw rfl _), hread]
      split
      · next hclose => exact absurd hclose (hx.head _ _)
      · rfl
    | @noMembers w' hw' =>
      simp only [List.append_assoc, List.cons_append, List.nil_append]
      rw [readValue_object (skipBlanks_append hw rfl _), skipBlanks_append hw' rfl]
      rfl
    | @members ms x hx =>
      simp only [List.length_cons, List.length_append] at h
      have hread := readMembers_append (n := n) hx (by omega) rest
      simp only [List.append_assoc, List.cons_append, List.nil_append]
      rw [readValue_object (skipBlanks_append hw rfl _), hread]
      split
      · next hclose => exact absurd hclose (hx.head _ _)
      · rfl

theorem readItems_append : ∀ {n : Nat} {vs : List Json} {x : List UInt8}, WrittenItems vs x →
    2 * x.length + 2 ≤ n → ∀ rest, readItems n (x ++ rightBracket :: rest) = some (vs, rest)
  | 0, _, _, _, h, _ => by cases h
  | n + 1, vs, x, hx, h, rest => by
    cases hx with
    | last hx =>
      obtain ⟨hw, hx, hw'⟩ := hx
      simp only [List.length_append] at h
      have hread := readValue_append (n := n) hw hx (by omega) _
        (fun _ _ => endsNumber_of_blanks hw' (Or.inr (Or.inl rfl)) rest)
      simp only [List.append_assoc]
      exact readItems_last hread (skipBlanks_append hw' rfl rest)
    | @cons v x vs y hx hy =>
      obtain ⟨hw, hx, hw'⟩ := hx
      simp only [List.length_append, List.length_cons] at h
      have hread := readValue_append (n := n) hw hx (by omega) _
        (fun _ _ => endsNumber_of_blanks hw' (Or.inl rfl) (y ++ rightBracket :: rest))
      simp only [List.append_assoc, List.cons_append]
      rw [readItems_cons hread (skipBlanks_append hw' rfl _), readItems_append hy (by omega)]
      rfl

theorem readMembers_append : ∀ {n : Nat} {ms : List (JsonString × Json)} {x : List UInt8},
    WrittenMembers ms x → 2 * x.length + 2 ≤ n →
    ∀ rest, readMembers n (x ++ rightBrace :: rest) = some (ms, rest)
  | 0, _, _, _, h, _ => by cases h
  | n + 1, ms, x, hx, h, rest => by
    cases hx with
    | last hx =>
      obtain ⟨y, ⟨hw, hy, hw'⟩, hlength, hkey⟩ := readKey_member hx
      simp only [List.length_append] at hlength
      have hread := readValue_append (n := n) hw hy (by omega) _
        (fun _ _ => endsNumber_of_blanks hw' (Or.inr (Or.inr rfl)) rest)
      simp only [List.append_assoc] at hkey
      exact readMembers_last (hkey _) hread (skipBlanks_append hw' rfl rest)
    | @cons m x ms z hx hz =>
      obtain ⟨y, ⟨hw, hy, hw'⟩, hlength, hkey⟩ := readKey_member hx
      simp only [List.length_append, List.length_cons] at hlength h
      have hread := readValue_append (n := n) hw hy (by omega) _
        (fun _ _ => endsNumber_of_blanks hw' (Or.inl rfl) (z ++ rightBrace :: rest))
      simp only [List.append_assoc, List.cons_append] at hkey ⊢
      rw [readMembers_cons (hkey _) hread (skipBlanks_append hw' rfl _),
        readMembers_append hz (by omega)]
      rfl

end

/-! ### Whole documents -/

/-- **A document has a value just if it is that value, written in JSON, with blanks around it.** -/
theorem ofDocument?_eq_some_iff : ofDocument? s = some v ↔ Padded v s := by
  unfold ofDocument?
  constructor
  · intro h
    split at h
    · next u rest hread =>
      split at h
      · next hblank =>
        cases h
        obtain ⟨w, x, hw, hx, rfl⟩ := written_of_readValue hread
        obtain ⟨w', hw', hrest⟩ := blanks_of_skipBlanks hblank
        rw [hrest, List.append_nil]
        exact ⟨hw, hx, hw'⟩
      · cases h
    · cases h
  · rintro @⟨w, x, w', v, hw, hx, hw'⟩
    have hend : EndsNumber w' := by
      have hnil : EndsNumber [] := fun b hb => by cases hb
      have hblanks := hnil.blanks hw'
      rwa [List.append_nil] at hblanks
    have hdepth : 2 * x.length + 1 ≤ depthBound (w ++ (x ++ w')) := by
      simp only [depthBound, List.length_append]
      omega
    rw [readValue_append hw hx hdepth w' fun _ _ => hend]
    exact if_pos (skipBlanks_eq_nil hw')

/-- A document has one value. -/
theorem Padded.unique {u : Json} (h : Padded v s) (h' : Padded u s) : v = u := by
  rw [← ofDocument?_eq_some_iff] at h h'
  exact Option.some.inj (h.symm.trans h')

/-! ### The parts of a document -/

theorem Padded.units {us : JsonString} (h : Padded (.string us) s) : us.IsNarrow := by
  obtain ⟨-, hx, -⟩ := h
  cases hx with
  | scalar hx => cases hx
  | string hx => exact hx.isNarrow

theorem WrittenItems.padded {vs : List Json} (h : WrittenItems vs x) :
    ∀ v ∈ vs, ∃ y, Padded v y := by
  induction vs generalizing x with
  | nil => exact fun v hv => absurd hv List.not_mem_nil
  | cons u vs ih =>
    intro v hv
    rcases List.mem_cons.mp hv with rfl | hv
    · cases h with
      | last h | cons h _ => exact ⟨_, h⟩
    · cases h with
      | last _ => cases hv
      | cons _ hs => exact ih hs v hv

theorem Padded.items {vs : List Json} (h : Padded (.array vs) s) : ∀ v ∈ vs, ∃ y, Padded v y := by
  obtain ⟨-, hx, -⟩ := h
  cases hx with
  | scalar hx => cases hx
  | noItems _ => exact fun v hv => absurd hv List.not_mem_nil
  | items hx => exact hx.padded

theorem WrittenMembers.padded {ms : List (JsonString × Json)} (h : WrittenMembers ms x) :
    ∀ m ∈ ms, m.1.IsNarrow ∧ ∃ y, Padded m.2 y := by
  have hmember : ∀ {m y}, WrittenMember m y → m.1.IsNarrow ∧ ∃ y, Padded m.2 y := by
    rintro m y ⟨-, hk, -, hv⟩
    exact ⟨hk.isNarrow, _, hv⟩
  induction ms generalizing x with
  | nil => exact fun m hm => absurd hm List.not_mem_nil
  | cons m' ms ih =>
    intro m hm
    rcases List.mem_cons.mp hm with rfl | hm
    · cases h with
      | last h | cons h _ => exact hmember h
    · cases h with
      | last _ => cases hm
      | cons _ hs => exact ih hs m hm

theorem Padded.members {ms : List (JsonString × Json)} (h : Padded (.object ms) s) :
    ∀ m ∈ ms, m.1.IsNarrow ∧ ∃ y, Padded m.2 y := by
  obtain ⟨-, hx, -⟩ := h
  cases hx with
  | scalar hx => cases hx
  | noMembers _ => exact fun m hm => absurd hm List.not_mem_nil
  | members hx => exact hx.padded

/-! ### Trailing bytes -/

/-- An array or an object begins with a byte that begins no number and no word. -/
theorem Padded.compound (h : Padded v s) (hv : (∃ vs, v = .array vs) ∨ ∃ ms, v = .object ms) :
    ∃ b r, skipBlanks s = b :: r ∧ ¬ BeginsScalar b := by
  obtain ⟨hw, hx, hw'⟩ := h
  cases hx with
  | scalar hx => rcases hv with ⟨_, rfl⟩ | ⟨_, rfl⟩ <;> cases hx
  | string _ | noItems _ | items _ | noMembers _ | members _ =>
    exact ⟨_, _, skipBlanks_append hw rfl _, by decide⟩

/-- What stands behind a document is blanks, if the whole is the document of an array or an object. -/
theorem Padded.blanks_of_append {u : Json} (h : Padded v s) (h' : Padded u (s ++ t))
    (hu : (∃ vs, u = .array vs) ∨ ∃ ms, u = .object ms) : Blanks t := by
  obtain @⟨w, x, w', v, hw, hx, hw'⟩ := h
  by_cases hnumber : ∃ y, v = .number y
  · -- a number may go on behind its document, but the whole does not begin as one
    obtain ⟨y, rfl⟩ := hnumber
    obtain ⟨b, r, hskip, hother⟩ := h'.compound hu
    cases hx with
    | scalar hx =>
      obtain ⟨c, z, rfl, hc⟩ := hx.head
      simp only [List.append_assoc, List.cons_append, skipBlanks_append hw hc.isBlank] at hskip
      obtain ⟨rfl, -⟩ := List.cons.inj hskip
      exact absurd hc hother
  · have hdepth : 2 * x.length + 1 ≤ depthBound (w ++ (x ++ w') ++ t) := by
      simp only [depthBound, List.length_append]
      omega
    have hread := readValue_append hw hx hdepth (w' ++ t) fun y hy => absurd ⟨y, hy⟩ hnumber
    have hdocument := ofDocument?_eq_some_iff.mpr h'
    simp only [ofDocument?, List.append_assoc] at hdocument hread
    rw [hread] at hdocument
    dsimp only at hdocument
    split at hdocument
    · next hrest =>
      obtain ⟨w₂, hw₂, hblanks⟩ := blanks_of_skipBlanks hrest
      rw [List.append_nil] at hblanks
      exact fun b hb => hw₂ b (hblanks ▸ List.mem_append_right w' hb)
    · cases hdocument

end DiceBot.Json
