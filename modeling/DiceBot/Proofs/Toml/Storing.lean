import DiceBot.Proofs.Toml.Documents
import DiceBot.Proofs.Toml.Validity

/-! # What can be stored

Not every value that can be read can be written and read again. An array of tables is written as
sections, and one that holds tables and other values is not written as an array at all; and a table of
which `dateKey` would be written first is read as a date and time. Other values can be stored
(`isStorable`), and so can documents of them (`exists_ofText?_of_isStorable`). -/

namespace DiceBot.Toml

mutual

/-- Whether every array in the value holds tables only or none at all, and no table in it is written as
a date and time. -/
def isStorable : Toml → Bool
  | .array items => (items.all isTable || !anyHoldsTable items) && areStorable items
  | .table es => (writingOrder es).head?.map Prod.fst ≠ some dateKey && entriesStorable es
  | _ => true

@[inherit_doc isStorable]
def areStorable : List Toml → Bool
  | [] => true
  | v :: vs => isStorable v && areStorable vs

@[inherit_doc isStorable]
def entriesStorable : List (Text × Toml) → Bool
  | [] => true
  | (_, v) :: es => isStorable v && entriesStorable es

end

theorem areStorable_iff (items : List Toml) : areStorable items ↔ ∀ v ∈ items, isStorable v := by
  induction items with
  | nil => simp [areStorable]
  | cons v items ih => rw [areStorable, Bool.and_eq_true, ih, List.forall_mem_cons]

theorem entriesStorable_iff (es : Entries) : entriesStorable es ↔ ∀ e ∈ es, isStorable e.2 := by
  induction es with
  | nil => simp [entriesStorable]
  | cons e es ih =>
    obtain ⟨k, v⟩ := e
    rw [entriesStorable, Bool.and_eq_true, ih, List.forall_mem_cons]

theorem isStorable_of_isScalar {v : Toml} (h : IsScalar v) : isStorable v := by
  cases h <;> rfl

theorem holdsTable_of_mem {v : Toml} {items : List Toml} (h : anyHoldsTable items = false)
    (hv : v ∈ items) : holdsTable v = false := by
  induction items with
  | nil => cases hv
  | cons x items ih =>
    obtain ⟨hx, hitems⟩ := Bool.or_eq_false_iff.mp h
    rcases List.mem_cons.mp hv with rfl | hv
    · exact hx
    · exact ih hitems hv

theorem isLine_of_isValid {v : Toml} (h : IsValid v) (hv : holdsTable v = false) : IsLine v := by
  induction h with
  | scalar h => exact .scalar h
  | array _ ih => exact .array fun v hmem => ih v hmem (holdsTable_of_mem hv hmem)
  | table => cases hv

theorem isWritable_of_isStorable {v : Toml} (h : IsValid v) (hs : isStorable v) : IsWritable v := by
  induction h with
  | scalar h => exact .line (.scalar h)
  | @array items h ih =>
    rw [isStorable, Bool.and_eq_true, Bool.or_eq_true, areStorable_iff] at hs
    obtain ⟨hkind, hitems⟩ := hs
    rcases hkind with htables | hlines
    · rcases eq_or_ne items [] with rfl | hne
      · exact .line (.array (by simp))
      · exact .tables hne (List.all_eq_true.mp htables) fun v hv => ih v hv (hitems v hv)
    · rw [Bool.not_eq_true'] at hlines
      exact .line (.array fun v hv => isLine_of_isValid (h v hv) (holdsTable_of_mem hlines hv))
  | table hasc _ ih =>
    rw [isStorable, Bool.and_eq_true, entriesStorable_iff, decide_eq_true_iff] at hs
    exact .table hasc hs.1 fun e he => ih e he (hs.2 e he)

/-- **A document can be stored**: it is written as a text that is read as the document. -/
theorem exists_ofText?_of_isStorable {es : Entries} (hasc : Ascending es) (hvalid : ∀ e ∈ es, IsValid e.2)
    (hs : ∀ e ∈ es, isStorable e.2) (h : LinesFirst es) :
    ∃ t, documentText? es = some t ∧ ofText? t = some es :=
  exists_documentText? hasc (fun e he => isWritable_of_isStorable (hvalid e he) (hs e he)) h

end DiceBot.Toml
