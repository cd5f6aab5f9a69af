import DiceBot.Toml.Value
import DiceBot.Proofs.Text.ByteOrder
import Mathlib.Data.List.Sort

/-! # Laws of entries in the order of their keys

Every table keeps its entries in the strict order of their keys (`Ascending`), and `insert` keeps them
so. Entries in that order are determined by what look-ups find (`Ascending.ext`). -/

namespace DiceBot.Toml

variable {α β : Type} {k l : Text} {v : α} {es : List (Text × α)}

/-! ### Look-ups -/

theorem lookup?_cons (k l : Text) (v : α) (es : List (Text × α)) :
    lookup? k ((l, v) :: es) = if l = k then some v else lookup? k es := rfl

/-- An inserted value is found under its key, and other keys lead to what they led to before. -/
theorem lookup?_insert (k l : Text) (v : α) (es : List (Text × α)) :
    lookup? k (insert l v es) = if l = k then some v else lookup? k es := by
  induction es with
  | nil => rfl
  | cons e es ih =>
    obtain ⟨l', v'⟩ := e
    by_cases hl : l' = l
    · rw [insert, if_pos hl, lookup?_cons, lookup?_cons, hl]
      split_ifs <;> rfl
    by_cases hb : Text.isBefore l l'
    · rw [insert, if_neg hl, if_pos hb, lookup?_cons]
    · rw [insert, if_neg hl, if_neg hb, lookup?_cons, ih, lookup?_cons]
      split_ifs with h h'
      · exact absurd (h.trans h'.symm) hl
      all_goals rfl

@[simp] theorem lookup?_insert_self (k : Text) (v : α) (es : List (Text × α)) :
    lookup? k (insert k v es) = some v := by
  rw [lookup?_insert, if_pos rfl]

theorem lookup?_insert_of_ne (h : l ≠ k) (v : α) (es : List (Text × α)) :
    lookup? k (insert l v es) = lookup? k es := by
  rw [lookup?_insert, if_neg h]

theorem mem_of_lookup? (h : lookup? k es = some v) : (k, v) ∈ es := by
  induction es with
  | nil => cases h
  | cons e es ih =>
    obtain ⟨l, w⟩ := e
    rw [lookup?_cons] at h
    split_ifs at h with hk
    · cases h
      rw [hk]
      exact List.mem_cons_self ..
    · exact List.mem_cons_of_mem _ (ih h)

theorem lookup?_eq_none_iff : lookup? k es = none ↔ ∀ e ∈ es, e.1 ≠ k := by
  induction es with
  | nil => simp [lookup?]
  | cons e es ih =>
    obtain ⟨l, w⟩ := e
    rw [lookup?_cons, List.forall_mem_cons, ← ih]
    split_ifs with hk
    · simp [hk]
    · simp [hk]

theorem mem_insert_iff {e : Text × α} (hk : lookup? k es = none) :
    e ∈ insert k v es ↔ e = (k, v) ∨ e ∈ es := by
  induction es with
  | nil => simp [insert]
  | cons x es ih =>
    obtain ⟨l, w⟩ := x
    rw [lookup?_cons] at hk
    split_ifs at hk with hl
    rw [insert, if_neg hl]
    split_ifs
    · rw [List.mem_cons]
    · rw [List.mem_cons, ih hk, List.mem_cons]
      exact or_left_comm

theorem mem_of_mem_insert {e : Text × α} (h : e ∈ insert k v es) : e = (k, v) ∨ e ∈ es := by
  induction es with
  | nil => exact Or.inl (List.mem_singleton.mp h)
  | cons x es ih =>
    obtain ⟨l, w⟩ := x
    rw [insert] at h
    split_ifs at h
    · exact (List.mem_cons.mp h).imp_right (List.mem_cons_of_mem _)
    · exact List.mem_cons.mp h
    · rcases List.mem_cons.mp h with h | h
      · exact Or.inr (h ▸ List.mem_cons_self ..)
      · exact (ih h).imp_right (List.mem_cons_of_mem _)

/-- A second value for a key takes the place of the first. -/
theorem insert_insert (k : Text) (v w : α) (es : List (Text × α)) :
    insert k v (insert k w es) = insert k v es := by
  induction es with
  | nil => simp [insert]
  | cons e es ih =>
    obtain ⟨l, x⟩ := e
    by_cases hl : l = k
    · simp [insert, hl]
    · by_cases hb : Text.isBefore k l
      · simp [insert, hl, hb]
      · simp [insert, hl, hb, ih]

/-- Values that are changed one by one are inserted as before. -/
theorem map_insert (f : α → β) (k : Text) (v : α) (es : List (Text × α)) :
    (insert k v es).map (fun e => (e.1, f e.2)) = insert k (f v) (es.map fun e => (e.1, f e.2)) := by
  induction es with
  | nil => rfl
  | cons e es ih =>
    obtain ⟨l, x⟩ := e
    rw [insert, List.map_cons, insert]
    split_ifs
    · rfl
    · rfl
    · rw [List.map_cons, ih]

theorem insert_ne_nil (k : Text) (v : α) (es : List (Text × α)) : insert k v es ≠ [] := by
  intro h
  have hs : lookup? k (insert k v es) = some v := lookup?_insert_self k v es
  rw [h] at hs
  cases hs

/-! ### The order of the keys -/

/-- The keys of the entries ascend strictly. -/
def Ascending (es : List (Text × α)) : Prop :=
  es.Pairwise fun a b => Text.isBefore a.1 b.1

theorem Ascending.insert (h : Ascending es) (k : Text) (v : α) : Ascending (insert k v es) := by
  induction es with
  | nil => exact List.pairwise_singleton ..
  | cons x es ih =>
    obtain ⟨l, w⟩ := x
    obtain ⟨hl, hes⟩ := List.pairwise_cons.mp h
    rw [Toml.insert]
    split_ifs with hk hb
    · exact List.pairwise_cons.mpr ⟨fun e he => hk ▸ hl e he, hes⟩
    · refine List.pairwise_cons.mpr ⟨fun e he => ?_, h⟩
      rcases List.mem_cons.mp he with rfl | he
      · exact hb
      · exact Text.isBefore_iff_toUtf8_lt.mpr (List.lt_trans (Text.isBefore_iff_toUtf8_lt.mp hb)
          (Text.isBefore_iff_toUtf8_lt.mp (hl e he)))
    · refine List.pairwise_cons.mpr ⟨fun e he => ?_, ih hes⟩
      rcases mem_of_mem_insert he with rfl | he
      · exact (Text.isBefore_or_isBefore hk).resolve_right hb
      · exact hl e he

/-- A key stands once in ascending entries. -/
theorem Ascending.lookup?_eq_some_iff (h : Ascending es) : lookup? k es = some v ↔ (k, v) ∈ es := by
  refine ⟨mem_of_lookup?, fun hm => ?_⟩
  induction es with
  | nil => cases hm
  | cons x es ih =>
    obtain ⟨l, w⟩ := x
    obtain ⟨hl, hes⟩ := List.pairwise_cons.mp h
    rw [lookup?_cons]
    rcases List.mem_cons.mp hm with heq | hm
    · cases heq
      exact if_pos rfl
    · have hlk : l ≠ k := by
        rintro rfl
        have hb := hl _ hm
        rw [Text.isBefore_irrefl] at hb
        cases hb
      rw [if_neg hlk, ih hes hm]

/-- **Ascending entries are determined by what look-ups find.** -/
theorem Ascending.ext {es' : List (Text × α)} (h : Ascending es) (h' : Ascending es')
    (hl : ∀ k, lookup? k es = lookup? k es') : es = es' := by
  let before (a b : Text × α) : Prop := Text.isBefore a.1 b.1
  have : Std.Irrefl before := ⟨fun a => by simp [before, Text.isBefore_irrefl]⟩
  have : Std.Antisymm before := ⟨fun a b hab hba => by simp [before, Text.isBefore_asymm hab] at hba⟩
  refine List.Pairwise.eq_of_mem_iff (r := before) h h' fun e => ?_
  rw [← h.lookup?_eq_some_iff, hl, h'.lookup?_eq_some_iff]

theorem Ascending.eq_of_mem_iff {es' : List (Text × α)} (h : Ascending es) (h' : Ascending es')
    (hmem : ∀ e, e ∈ es ↔ e ∈ es') : es = es' :=
  h.ext h' fun k => Option.ext fun v => by
    rw [h.lookup?_eq_some_iff, h'.lookup?_eq_some_iff, hmem]

theorem Ascending.key_ne (h : Ascending es) : es.Pairwise fun a b => a.1 ≠ b.1 :=
  h.imp fun hb heq => by
    rw [heq, Text.isBefore_irrefl] at hb
    cases hb

/-! ### Many entries -/

/-- Entries put in one after another. -/
def insertAll (new es : List (Text × α)) : List (Text × α) :=
  new.foldl (fun es e => insert e.1 e.2 es) es

theorem insertAll_cons (k : Text) (v : α) (new es : List (Text × α)) :
    insertAll ((k, v) :: new) es = insertAll new (insert k v es) := rfl

theorem Ascending.insertAll {new : List (Text × α)} (h : Ascending es) :
    Ascending (insertAll new es) :=
  List.foldlRecOn new _ h fun _ h e _ => h.insert e.1 e.2

/-- Entries with new keys are added. -/
theorem mem_insertAll_iff {new : List (Text × α)} (hd : new.Pairwise fun a b => a.1 ≠ b.1)
    (hnew : ∀ e ∈ new, lookup? e.1 es = none) {e : Text × α} :
    e ∈ insertAll new es ↔ e ∈ new ∨ e ∈ es := by
  induction new generalizing es with
  | nil => simp [insertAll]
  | cons x new ih =>
    obtain ⟨k, v⟩ := x
    obtain ⟨hk, hd⟩ := List.pairwise_cons.mp hd
    obtain ⟨hx, hnew⟩ := List.forall_mem_cons.mp hnew
    have hnew' : ∀ e ∈ new, lookup? e.1 (insert k v es) = none := fun e he => by
      rw [lookup?_insert_of_ne (hk e he), hnew e he]
    rw [insertAll_cons, ih hd hnew', mem_insert_iff hx, List.mem_cons]
    tauto

theorem map_insertAll (f : α → β) (new es : List (Text × α)) :
    (insertAll new es).map (fun e => (e.1, f e.2)) =
      insertAll (new.map fun e => (e.1, f e.2)) (es.map fun e => (e.1, f e.2)) := by
  induction new generalizing es with
  | nil => rfl
  | cons x new ih =>
    obtain ⟨k, v⟩ := x
    rw [insertAll_cons, ih, map_insert, List.map_cons, insertAll_cons]

end DiceBot.Toml
