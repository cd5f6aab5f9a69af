import DiceBot.Proofs.Config.Completion
import DiceBot.Proofs.Toml.Storing

/-! # Loading completes the file

What is left in the file when the configuration is loaded from it. If the completed entries can be
stored, the file holds them, and to load it once more changes nothing and falls back on no default; if
an entry without tables stands behind one with a table, the file stays as it was (`load_file`). Since
there is an entry for every setting, that is so with any table of which the key comes before that of a
setting (`load_of_isBefore`). -/

namespace DiceBot.Config

open Toml (Entries lookup? holdsTable LinesFirst isStorable)

variable {content : List UInt8} {es : Entries}

/-! ### Completed entries -/

/-- The entries `completed` are `es` with the default of every setting that is missing or cannot be
used. All other entries are kept, and no more are there. -/
structure Completes (es completed : Entries) : Prop where
  setting : ∀ s ∈ settings, lookup? s.key completed = some (s.valueIn es)
  other : ∀ k, (∀ s ∈ settings, s.key ≠ k) → lookup? k completed = lookup? k es

theorem completes_ofEntries (es : Entries) : Completes es (ofEntries es).2 :=
  ⟨fun _ hs => lookup?_completed hs es, fun _ hk => lookup?_completed_of_other hk es⟩

theorem isUsable_completed {s : Setting} (hs : s ∈ settings) (es : Entries) :
    (lookup? s.key (ofEntries es).2).any s.isUsable := by
  rw [lookup?_completed hs, Option.any_some]
  exact Setting.isUsable_valueIn (isUsable_default s hs) es

/-- Every default is a value that the format has. -/
theorem isScalar_default : ∀ s ∈ settings, Toml.IsScalar s.default := by
  have hnat (n : Nat) (h : n ≤ 300) : Toml.IsScalar (.integer n) := by
    have hmax : Toml.maxInteger = 9223372036854775807 := rfl
    exact .integer (by omega) (by omega)
  simp only [settings, natSetting, textSetting, List.forall_mem_cons, List.not_mem_nil, IsEmpty.forall_iff,
    implies_true, and_true]
  exact ⟨.string _, hnat 64 (by decide), hnat 256 (by decide), hnat 4 (by decide), hnat 300 (by decide),
    hnat 20 (by decide), hnat 200 (by decide), .string _, .string _⟩

/-- No setting holds a table. -/
theorem holdsTable_valueIn {s : Setting} (hs : s ∈ settings) (es : Entries) :
    holdsTable (s.valueIn es) = false := by
  rw [← ofConfig_ofEntries hs]
  simp only [settings, List.mem_cons, List.not_mem_nil, or_false] at hs
  rcases hs with rfl | rfl | rfl | rfl | rfl | rfl | rfl | rfl | rfl <;> rfl

theorem isValid_completed (h : ∀ e ∈ es, Toml.IsValid e.2) :
    ∀ e ∈ (ofEntries es).2, Toml.IsValid e.2 :=
  completed_induction (motive := fun es => ∀ e ∈ es, Toml.IsValid e.2) h fun s hs _ h =>
    Toml.forall_mem_insert (.scalar (isScalar_default s hs)) h

/-- The completed entries of a document can be stored if its own can. -/
theorem isStorable_completed (h : ∀ e ∈ es, isStorable e.2) :
    ∀ e ∈ (ofEntries es).2, isStorable e.2 :=
  completed_induction (motive := fun es => ∀ e ∈ es, isStorable e.2) h fun s hs _ h =>
    Toml.forall_mem_insert (Toml.isStorable_of_isScalar (isScalar_default s hs)) h

/-! ### The file -/

theorem entriesOf_some (h : Toml.ofBytes? content = some es) : entriesOf (some content) = es := by
  rw [entriesOf, Option.bind_some, h, Option.getD_some]

theorem isValid_entriesOf (content : Option (List UInt8)) :
    Toml.Ascending (entriesOf content) ∧ ∀ e ∈ entriesOf content, Toml.IsValid e.2 := by
  unfold entriesOf
  cases hes : content.bind Toml.ofBytes? with
  | none => exact ⟨List.Pairwise.nil, by simp⟩
  | some es =>
    obtain ⟨bytes, -, h⟩ := Option.bind_eq_some_iff.mp hes
    exact Toml.isValid_of_ofBytes? h

variable {file : Option (List UInt8)}

theorem load_eq (hes : entriesOf file = es) :
    load file none = ((ofEntries es).1, completed file (ofEntries es).2) := by
  rw [load, hes]
  rcases ofEntries es with ⟨config, completed⟩
  rfl

theorem load_of_documentText? (hes : entriesOf file = es) {t : Text}
    (ht : Toml.documentText? (ofEntries es).2 = some t) :
    load file none = ((ofEntries es).1, some (Text.toUtf8 t)) := by
  rw [load_eq hes, completed, ht]

/-- Entries that cannot be written leave the file as it was. -/
theorem load_of_not_linesFirst (hes : entriesOf file = es) (hlines : ¬ LinesFirst (ofEntries es).2) :
    load file none = ((ofEntries es).1, file) := by
  rw [load_eq hes, completed, Toml.documentText?_eq_none hlines]

/-- Entries that can be stored are stored, and stay when they are loaded once more. -/
theorem exists_load_of_linesFirst (hes : entriesOf file = es) (hs : ∀ e ∈ es, isStorable e.2)
    (hlines : LinesFirst (ofEntries es).2) :
    ∃ written, load file none = ((ofEntries es).1, some written) ∧
      Toml.ofBytes? written = some (ofEntries es).2 ∧
      load (some written) none = ((ofEntries es).1, some written) := by
  obtain ⟨hasc, hvalid⟩ := hes ▸ isValid_entriesOf file
  obtain ⟨t, htext, hread⟩ := Toml.exists_ofText?_of_isStorable (ascending_completed hasc)
    (isValid_completed hvalid) (isStorable_completed hs) hlines
  have hbytes : Toml.ofBytes? (Text.toUtf8 t) = some (ofEntries es).2 := by
    rw [Toml.ofBytes?, Text.ofUtf8?_toUtf8, Option.bind_some, hread]
  have htext' : Toml.documentText? (ofEntries (ofEntries es).2).2 = some t := by
    rw [ofEntries_completed, htext]
  have hagain : load (some (Text.toUtf8 t)) none = ((ofEntries es).1, some (Text.toUtf8 t)) := by
    rw [load_of_documentText? (entriesOf_some hbytes) htext', ofEntries_completed]
  exact ⟨_, load_of_documentText? hes htext, hbytes, hagain⟩

/-- A file that is missing or cannot be read as TOML is replaced by one with the defaults. -/
theorem exists_load_of_unreadable (h : file.bind Toml.ofBytes? = none) :
    ∃ written, load file none = ((ofEntries []).1, some written) ∧
      Toml.ofBytes? written = some (ofEntries []).2 :=
  have hes : entriesOf file = [] := by rw [entriesOf, h, Option.getD_none]
  have ⟨written, hload, hread, _⟩ := exists_load_of_linesFirst hes (by simp) (by decide +kernel)
  ⟨written, hload, hread⟩

/-- **A file with a table of which the key comes before that of a setting is not completed.** -/
theorem load_of_isBefore (h : Toml.ofBytes? content = some es) {k : Text} {v : Toml}
    (hk : lookup? k es = some v) (hv : holdsTable v) (hother : ∀ s ∈ settings, s.key ≠ k) {s : Setting}
    (hs : s ∈ settings) (hbefore : Text.isBefore k s.key) :
    load (some content) none = ((ofEntries es).1, some content) := by
  refine load_of_not_linesFirst (entriesOf_some h) fun hlines => ?_
  obtain ⟨hasc, -⟩ := Toml.isValid_of_ofBytes? h
  have htable : (k, v) ∈ (ofEntries es).2 :=
    Toml.mem_of_lookup? ((lookup?_completed_of_other hother es).trans hk)
  have hline := Toml.mem_of_lookup? (lookup?_completed hs es)
  have hholds := hlines.holdsTable_of_isBefore (ascending_completed hasc) htable hline hbefore hv
  rw [holdsTable_valueIn hs] at hholds
  cases hholds

/-- **What loading leaves in the file.** -/
theorem load_file (h : Toml.ofBytes? content = some es) (hs : ∀ e ∈ es, isStorable e.2) :
    Completes es (ofEntries es).2 ∧
      (LinesFirst (ofEntries es).2 →
        ∃ written, load (some content) none = ((ofEntries es).1, some written) ∧
          Toml.ofBytes? written = some (ofEntries es).2 ∧
          load (some written) none = ((ofEntries es).1, some written) ∧
          ∀ s ∈ settings, (lookup? s.key (ofEntries es).2).any s.isUsable) ∧
      (¬ LinesFirst (ofEntries es).2 → load (some content) none = ((ofEntries es).1, some content)) := by
  have hes := entriesOf_some h
  refine ⟨completes_ofEntries es, fun hlines => ?_, load_of_not_linesFirst hes⟩
  obtain ⟨written, hload, hread, hagain⟩ := exists_load_of_linesFirst hes hs hlines
  exact ⟨written, hload, hread, hagain, fun s hs => isUsable_completed hs es⟩

/-- A file with a setting that cannot be used, an entry that is no setting and a table behind both. -/
def zoneFile : List UInt8 :=
  Text.toUtf8 "cache_size = \"big\"\nmotd = \"hi\"\n\n[zone]\nhours = [1, 2]\n".toList

/-- The file is completed. -/
theorem load_zoneFile :
    ∃ es written, Toml.ofBytes? zoneFile = some es ∧ (∀ e ∈ es, isStorable e.2) ∧
      load (some zoneFile) none = ((ofEntries es).1, some written) ∧
      Toml.ofBytes? written = some (ofEntries es).2 ∧
      load (some written) none = ((ofEntries es).1, some written) := by
  obtain ⟨es, h⟩ := Option.isSome_iff_exists.mp (show (Toml.ofBytes? zoneFile).isSome by decide +kernel)
  have hes := entriesOf_some h
  have hs : ∀ e ∈ entriesOf (some zoneFile), isStorable e.2 := by decide +kernel
  have hlines : LinesFirst (ofEntries (entriesOf (some zoneFile))).2 := by decide +kernel
  rw [hes] at hs hlines
  obtain ⟨written, hload, hread, hagain, -⟩ := (load_file h hs).2.1 hlines
  exact ⟨es, written, h, hs, hload, hread, hagain⟩

/-- A file with nothing but a table, of which the key comes before those of the settings. -/
def tableFile : List UInt8 := Text.toUtf8 "[a]\n".toList

/-- Not every file that can be read is completed: that of a single table stays as it was, and so it
holds none of the settings. -/
theorem not_completed_tableFile :
    Toml.ofBytes? tableFile = some [("a".toList, .table [])] ∧
      load (some tableFile) none = ((ofEntries []).1, some tableFile) ∧
      ¬ ∀ content es, Toml.ofBytes? content = some es →
        ∃ written, (load (some content) none).2 = some written ∧
          Toml.ofBytes? written = some (ofEntries es).2 := by
  have hread : Toml.ofBytes? tableFile = some [("a".toList, .table [])] := by
    rw [Toml.ofBytes?, tableFile, Text.ofUtf8?_toUtf8]
    rfl
  have hload : load (some tableFile) none = ((ofEntries []).1, some tableFile) := by decide +kernel
  refine ⟨hread, hload, fun hall => ?_⟩
  obtain ⟨written, hwritten, hcompleted⟩ := hall _ _ hread
  rw [hload] at hwritten
  obtain rfl := Option.some.inj hwritten
  have hdefault := lookup?_completed (s := textSetting "db_path" "macros.db" dbPath)
    (List.mem_cons_self ..) [("a".toList, .table [])]
  rw [← Option.some.inj (hread.symm.trans hcompleted)] at hdefault
  cases hdefault

end DiceBot.Config
