import DiceBot.Proofs.Toml.Scalars
import DiceBot.Toml.Document
import DiceBot.Proofs.Toml.Entries

/-! # What is read from a document

Every part that a reader answers is one that the format has: integers are in range, floating-point
numbers are finite or of the known special ones, dates are in the calendar (`isScalar_of_readScalar`).
So it is for drafts of values (`isRead_of_readValue`) and for the entries of all sections
(`isRead_of_sections?`). -/

namespace DiceBot.Toml

variable {s rest word : Text} {v : Toml}

/-! ### Values without parts -/

theorem isScalar_of_map {o : Option Toml} (ho : ∀ v, o = some v → IsScalar v)
    (h : (o.map fun v => (v, s)) = some (v, rest)) : IsScalar v := by
  obtain ⟨x, hx, heq⟩ := Option.map_eq_some_iff.mp h
  cases heq
  exact ho v hx

theorem isScalar_of_integerOf? {n : Int} (h : integerOf? n = some v) : IsScalar v := by
  unfold integerOf? at h
  split_ifs at h with hn
  cases h
  exact .integer hn.1 hn.2

theorem isScalar_of_floatOf? {negative : Bool} {whole places : Text} {exponent : Int}
    (h : floatOf? negative whole places exponent = some v) : IsScalar v := by
  simp only [floatOf?] at h
  split_ifs at h with hx
  cases h
  exact .float (.finite hx)

theorem isScalar_of_radixInteger? {radix : Nat} (h : radixInteger? radix s = some v) : IsScalar v := by
  unfold radixInteger? at h
  split at h
  · exact isScalar_of_integerOf? h
  · cases h

theorem isScalar_of_decimalInteger? (h : decimalInteger? s = some v) : IsScalar v := by
  unfold decimalInteger? at h
  split at h
  · exact isScalar_of_integerOf? h
  · cases h

theorem isScalar_of_finishFloat {negative : Bool} {whole places : Text}
    (h : finishFloat negative whole places word s = some (v, rest)) : IsScalar v := by
  unfold finishFloat at h
  split at h
  · exact isScalar_of_map (fun _ => isScalar_of_floatOf?) h
  · split_ifs at h
    obtain ⟨⟨exponent, s'⟩, -, h⟩ := Option.bind_eq_some_iff.mp h
    obtain ⟨x, hx, heq⟩ := Option.bind_eq_some_iff.mp h
    cases heq
    exact isScalar_of_floatOf? hx

theorem isScalar_of_readFloat (h : readFloat word s = some (v, rest)) : IsScalar v := by
  obtain ⟨⟨whole, after⟩, -, h⟩ := Option.bind_eq_some_iff.mp h
  exact isScalar_of_finishFloat h

theorem isScalar_of_readPointFloat (h : readPointFloat word s = some (v, rest)) : IsScalar v := by
  obtain ⟨⟨after, s'⟩, -, h⟩ := Option.bind_eq_some_iff.mp h
  obtain ⟨⟨whole, word'⟩, -, h⟩ := Option.bind_eq_some_iff.mp h
  simp only at h
  split at h
  · obtain ⟨⟨places, word''⟩, -, h⟩ := Option.bind_eq_some_iff.mp h
    exact isScalar_of_finishFloat h
  · cases h

theorem isScalar_of_readNumber (h : readNumber word s = some (v, rest)) : IsScalar v := by
  unfold readNumber at h
  split at h
  · exact isScalar_of_map (fun _ => isScalar_of_radixInteger?) h
  · exact isScalar_of_map (fun _ => isScalar_of_radixInteger?) h
  · exact isScalar_of_map (fun _ => isScalar_of_radixInteger?) h
  split at h
  · exact isScalar_of_readFloat h
  split at h
  · exact isScalar_of_readPointFloat h
  split at h
  · cases h
    exact .float (.infinity _)
  split at h
  · cases h
    exact .float (.infinity _)
  split at h
  · cases h
    exact .float (.nan _)
  split at h
  · cases h
    exact .float (.nan _)
  · exact isScalar_of_map (fun _ => isScalar_of_decimalInteger?) h

theorem isScalar_of_readDatetime (h : readDatetime word s = some (v, rest)) : IsScalar v := by
  obtain ⟨⟨clock, s'⟩, -, h⟩ := Option.bind_eq_some_iff.mp h
  obtain ⟨d, hd, h⟩ := Option.bind_eq_some_iff.mp h
  cases h
  exact .datetime (Datetime.isValid_of_ofText? hd)

theorem isScalar_of_readNumberOrDate (h : readNumberOrDate word s = some (v, rest)) : IsScalar v := by
  unfold readNumberOrDate at h
  split_ifs at h
  · exact isScalar_of_readDatetime h
  · exact isScalar_of_readNumber h

theorem isScalar_of_readWordValue (h : readWordValue word s = some (v, rest)) : IsScalar v := by
  unfold readWordValue at h
  split_ifs at h
  · cases h
    exact .boolean _
  · cases h
    exact .boolean _
  · exact isScalar_of_readNumberOrDate h
  · split at h
    · split_ifs at h
      exact isScalar_of_readNumberOrDate h
    · cases h

/-- **A value without parts is read as one that the format has.** -/
theorem isScalar_of_readScalar (h : readScalar s = some (v, rest)) : IsScalar v := by
  have hstring {s : Text}
      (h : ((readString s).map fun r => (Toml.string r.1.1, r.2)) = some (v, rest)) : IsScalar v := by
    obtain ⟨⟨⟨x, b⟩, s'⟩, -, heq⟩ := Option.map_eq_some_iff.mp h
    cases heq
    exact .string x
  unfold readScalar at h
  split at h
  · obtain ⟨⟨word, s'⟩, -, h⟩ := Option.bind_eq_some_iff.mp h
    exact isScalar_of_readNumber h
  · exact hstring h
  · exact hstring h
  · split at h
    · exact isScalar_of_readWordValue h
    · cases h

/-! ### Drafts -/

/-- A draft as it is read: its parts without parts of their own are values that the format has. -/
inductive Draft.IsRead : Draft → Prop
  | value {v : Toml} (h : IsScalar v) : IsRead (.value v)
  | array {items : List Draft} (h : ∀ d ∈ items, IsRead d) : IsRead (.array items)
  | inline {es : List (Text × Draft)} (h : ∀ e ∈ es, IsRead e.2) : IsRead (.inline es)
  | dotted {es : List (Text × Draft)} (h : ∀ e ∈ es, IsRead e.2) : IsRead (.dotted es)

variable {d : Draft} {es es' : List (Text × Draft)} {key : List Text} {k : Text}

theorem isRead_dottedDraft (hd : d.IsRead) (key : List Text) : (dottedDraft key d).IsRead := by
  induction key with
  | nil => exact hd
  | cons k ks ih => exact .dotted (by simpa using ih)

theorem isRead_replaceFirst (hd : d.IsRead) (hes : ∀ e ∈ es, e.2.IsRead) :
    ∀ e ∈ replaceFirst k d es, e.2.IsRead := by
  induction es with
  | nil => exact hes
  | cons x es ih =>
    obtain ⟨hx, hes⟩ := List.forall_mem_cons.mp hes
    rw [replaceFirst]
    split_ifs
    · exact List.forall_mem_cons.mpr ⟨hd, hes⟩
    · exact List.forall_mem_cons.mpr ⟨hx, ih hes⟩

theorem isRead_append (hes : ∀ e ∈ es, e.2.IsRead) (k : Text) (hd : d.IsRead) :
    ∀ e ∈ es ++ [(k, d)], e.2.IsRead :=
  List.forall_mem_append.mpr ⟨hes, by simpa using hd⟩

theorem isRead_addEntry (hd : d.IsRead) (hes : ∀ e ∈ es, e.2.IsRead) (h : addEntry key d es = some es') :
    ∀ e ∈ es', e.2.IsRead := by
  induction key generalizing es es' with
  | nil =>
    cases h
    exact hes
  | cons k ks ih =>
    cases ks with
    | nil =>
      cases h
      exact isRead_append hes k hd
    | cons k' ks =>
      rw [addEntry.eq_3 _ _ _ _ (by simp)] at h
      split at h
      · rename_i inner hinner
        obtain ⟨inner', hinner', rfl⟩ := Option.map_eq_some_iff.mp h
        have hread : (Draft.dotted inner).IsRead := hes _ (mem_of_lookup? hinner)
        cases hread with
        | dotted hread => exact isRead_replaceFirst (.dotted (ih hread hinner')) hes
      · cases h
      · cases h
        exact isRead_append hes k (isRead_dottedDraft hd _)

/-- What the readers of values answer with a bound `n` on their depth. -/
structure ReadsParts (n : Nat) : Prop where
  value {s rest : Text} {d : Draft} (h : readValue n s = some (d, rest)) : d.IsRead
  items {s rest : Text} {ds : List Draft} (h : readItems n s = some (ds, rest)) : ∀ d ∈ ds, d.IsRead
  inline {s rest : Text} {es : List (Text × Draft)} (h : readInline n s = some (es, rest)) :
    ∀ e ∈ es, e.2.IsRead
  inlineEntries {s rest : Text} {es es' : List (Text × Draft)} (hes : ∀ e ∈ es, e.2.IsRead)
    (h : readInlineEntries n es s = some (es', rest)) : ∀ e ∈ es', e.2.IsRead

/-- The readers of values call each other with smaller bounds, so one induction is about all four. -/
theorem readsParts (n : Nat) : ReadsParts n := by
  induction n with
  | zero => exact ⟨nofun, nofun, nofun, nofun⟩
  | succ n ih =>
    refine ⟨fun {s rest d} h => ?_, fun {s rest ds} h => ?_, fun {s rest es} h => ?_,
      fun {s rest es es'} hes h => ?_⟩
    · unfold readValue at h
      split at h
      · obtain ⟨⟨items, t⟩, hitems, heq⟩ := Option.map_eq_some_iff.mp h
        cases heq
        exact .array (ih.items hitems)
      · obtain ⟨⟨es, t⟩, hes, heq⟩ := Option.map_eq_some_iff.mp h
        cases heq
        exact .inline (ih.inline hes)
      · obtain ⟨⟨v, t⟩, hv, heq⟩ := Option.map_eq_some_iff.mp h
        cases heq
        exact .value (isScalar_of_readScalar hv)
    · rw [readItems] at h
      obtain ⟨t, -, h⟩ := Option.bind_eq_some_iff.mp h
      split at h
      · cases h
        simp
      obtain ⟨⟨d, t'⟩, hd, h⟩ := Option.bind_eq_some_iff.mp h
      obtain ⟨t'', -, h⟩ := Option.bind_eq_some_iff.mp h
      split at h
      · obtain ⟨⟨ds', u⟩, hds, h⟩ := Option.bind_eq_some_iff.mp h
        cases h
        exact List.forall_mem_cons.mpr ⟨ih.value hd, ih.items hds⟩
      · cases h
        simpa using ih.value hd
      · cases h
    · unfold readInline at h
      split at h
      · cases h
        simp
      · exact ih.inlineEntries (by simp) h
    · rw [readInlineEntries] at h
      obtain ⟨⟨key, t⟩, -, h⟩ := Option.bind_eq_some_iff.mp h
      simp only at h
      split at h
      · obtain ⟨⟨d, t'⟩, hd, h⟩ := Option.bind_eq_some_iff.mp h
        obtain ⟨es'', hes', h⟩ := Option.bind_eq_some_iff.mp h
        have hread := isRead_addEntry (ih.value hd) hes hes'
        split at h
        · cases h
          exact hread
        · exact ih.inlineEntries hread h
        · cases h
      · cases h

/-- **A value is read as a draft of values that the format has.** -/
theorem isRead_of_readValue {n : Nat} (h : readValue n s = some (d, rest)) : d.IsRead :=
  (readsParts n).value h

/-! ### Sections -/

theorem isRead_of_readEntry (h : readEntry s = some ((key, d), rest)) : d.IsRead := by
  obtain ⟨⟨key', t⟩, -, h⟩ := Option.bind_eq_some_iff.mp h
  simp only at h
  split at h
  · obtain ⟨⟨d', t'⟩, hd, h⟩ := Option.bind_eq_some_iff.mp h
    obtain ⟨t'', -, h⟩ := Option.bind_eq_some_iff.mp h
    cases h
    exact isRead_of_readValue hd
  · cases h

/-- The entries of a section are such as are read. -/
def Section.IsRead (s : Section) : Prop := ∀ e ∈ s.entries, e.2.IsRead

theorem isRead_of_readSections {n : Nat} {current : Section} {ss : List Section} (hcurrent : current.IsRead)
    (h : readSections n current s = some ss) : ∀ x ∈ ss, x.IsRead := by
  induction n generalizing current s ss with
  | zero => cases h
  | succ n ih =>
    have hnext {path : List Text} {isElement : Bool} {s : Text} {ss' : List Section}
        (h : readSections n ⟨path, isElement, []⟩ s = some ss') : ∀ x ∈ current :: ss', x.IsRead :=
      List.forall_mem_cons.mpr ⟨hcurrent, ih (fun e he => by cases he) h⟩
    unfold readSections at h
    split at h
    · cases h
      simpa using hcurrent
    · exact ih hcurrent h
    · obtain ⟨t, -, h⟩ := Option.bind_eq_some_iff.mp h
      exact ih hcurrent h
    · obtain ⟨⟨path, t⟩, -, h⟩ := Option.bind_eq_some_iff.mp h
      obtain ⟨ss', hss, h⟩ := Option.bind_eq_some_iff.mp h
      cases h
      exact hnext hss
    · obtain ⟨⟨path, t⟩, -, h⟩ := Option.bind_eq_some_iff.mp h
      obtain ⟨ss', hss, h⟩ := Option.bind_eq_some_iff.mp h
      cases h
      exact hnext hss
    · obtain ⟨⟨⟨key, d⟩, t⟩, hentry, h⟩ := Option.bind_eq_some_iff.mp h
      obtain ⟨es, hes, h⟩ := Option.bind_eq_some_iff.mp h
      exact ih (isRead_addEntry (isRead_of_readEntry hentry) hcurrent hes) h

/-- **The sections of a text have values that the format has.** -/
theorem isRead_of_sections? {ss : List Section} (h : sections? s = some ss) : ∀ x ∈ ss, x.IsRead :=
  isRead_of_readSections (show Section.IsRead ⟨[], false, []⟩ from fun e he => by cases he) h

end DiceBot.Toml
