import DiceBot.Config
import DiceBot.Proofs.Toml.Entries

/-! # Completing the entries of a configuration

Each of the nine entries that have a default is a *setting*. To complete entries is to go through the
settings and to put the default where the entry is missing or cannot be used (`ofEntries_snd`). After
that every setting has the value that the configuration has (`lookup?_completed`), all other keys lead
to what they led to before (`lookup?_completed_of_other`), and completing once more changes nothing
(`ofEntries_completed`). All of that is put together in `ofEntries_stable`. -/

namespace DiceBot.Config

open Toml (Entries lookup? lookup?_insert)

/-! ### Settings -/

/-- An entry with a default: its key, the check of a value that can be used, the default, and the value
that stands for what a configuration has. -/
structure Setting where
  key : Text
  isUsable : Toml → Bool
  default : Toml
  ofConfig : Config → Toml

/-- Whether a value is an integer from 0 to `bound`. -/
def isNat (bound : Nat) : Toml → Bool
  | .integer n => 0 ≤ n ∧ n ≤ bound
  | _ => false

/-- Whether a value is a string. -/
def isText : Toml → Bool
  | .string _ => true
  | _ => false

/-- A setting whose value is an integer from 0 to `bound`. -/
def natSetting (bound : Nat) (key : String) (default : Nat) (field : Config → Nat) : Setting :=
  ⟨key.toList, isNat bound, .integer default, fun c => .integer (field c)⟩

/-- A setting whose value is a string. -/
def textSetting (key default : String) (field : Config → Text) : Setting :=
  ⟨key.toList, isText, .string default.toList, fun c => .string (field c)⟩

/-- The settings, in the order in which they are completed. -/
def settings : List Setting :=
  [textSetting "db_path" "macros.db" dbPath,
   natSetting maxLong "db_queue_size" 64 dbQueueSize,
   natSetting maxLong "cache_size" 256 cacheSize,
   natSetting maxWord "rng_workers" 4 rngWorkers,
   natSetting maxLong "rng_reseed_s" 300 rngReseedSeconds,
   natSetting maxWord "max_repeats" 20 fun c => c.maxRepeats.toNat,
   natSetting maxWord "max_sides" 200 fun c => c.maxSides.toNat,
   textSetting "command_prefix" "/" commandPrefix,
   textSetting "console_group" "console" consoleGroup]

/-- The key of the list of allowed groups, which has no default. -/
def allowlistKey : Text := "allowlist_path".toList

theorem settings_distinct : settings.Pairwise fun a b => a.key ≠ b.key := by
  simp only [settings, natSetting, textSetting]
  decide

theorem allowlistKey_ne : ∀ s ∈ settings, s.key ≠ allowlistKey := by
  simp only [settings, natSetting, textSetting]
  decide

/-- Every default passes the check of its own setting. -/
theorem isUsable_default : ∀ s ∈ settings, s.isUsable s.default := by decide

namespace Setting

variable {s t : Setting} {es : Entries} {k : Text}

/-- The value that a setting gets: that of its entry if it can be used, the default else. -/
def valueIn (s : Setting) (es : Entries) : Toml :=
  ((lookup? s.key es).filter s.isUsable).getD s.default

/-- The entries with the default of a setting, unless it has a value that can be used. -/
def fill (s : Setting) (es : Entries) : Entries :=
  if (lookup? s.key es).any s.isUsable then es else Toml.insert s.key s.default es

theorem lookup?_fill (s : Setting) (es : Entries) (k : Text) :
    lookup? k (s.fill es) = if s.key = k then some (s.valueIn es) else lookup? k es := by
  unfold fill valueIn
  split_ifs with hu hk hk
  · obtain ⟨v, hv, hu⟩ := (Option.any_eq_true ..).mp hu
    rw [← hk, hv, Option.filter_some_pos hu, Option.getD_some]
  · rfl
  · rw [lookup?_insert, if_pos hk]
    have hnone : (lookup? s.key es).filter s.isUsable = none := by
      rw [Option.filter_eq_none_iff]
      intro v hv hu'
      exact hu ((Option.any_eq_true ..).mpr ⟨v, hv, hu'⟩)
    rw [hnone, Option.getD_none]
  · rw [lookup?_insert, if_neg hk]

theorem lookup?_fill_self (s : Setting) (es : Entries) :
    lookup? s.key (s.fill es) = some (s.valueIn es) := by
  rw [lookup?_fill, if_pos rfl]

theorem lookup?_fill_of_ne (h : s.key ≠ k) (es : Entries) :
    lookup? k (s.fill es) = lookup? k es := by
  rw [lookup?_fill, if_neg h]

theorem valueIn_fill_of_ne (h : s.key ≠ t.key) (es : Entries) :
    t.valueIn (s.fill es) = t.valueIn es := by
  rw [valueIn, lookup?_fill_of_ne h, valueIn]

theorem isUsable_valueIn (h : s.isUsable s.default) (es : Entries) :
    s.isUsable (s.valueIn es) := by
  unfold valueIn
  cases hv : (lookup? s.key es).filter s.isUsable with
  | none => exact h
  | some v => exact (Option.filter_eq_some_iff.mp hv).2

theorem fill_eq_self (h : (lookup? s.key es).any s.isUsable) : s.fill es = es := if_pos h

end Setting

/-! ### All settings -/

/-- The entries with every setting filled in. -/
def fillAll (ss : List Setting) (es : Entries) : Entries := ss.foldl (fun es s => s.fill es) es

/-- To fill in settings leaves other keys alone. -/
theorem lookup?_fillAll_of_ne {ss : List Setting} {k : Text} (h : ∀ s ∈ ss, s.key ≠ k) (es : Entries) :
    lookup? k (fillAll ss es) = lookup? k es := by
  induction ss generalizing es with
  | nil => rfl
  | cons s ss ih =>
    obtain ⟨hs, hss⟩ := List.forall_mem_cons.mp h
    show lookup? k (fillAll ss (s.fill es)) = _
    rw [ih hss, Setting.lookup?_fill_of_ne hs]

/-- A setting that was filled in has its own value, whatever the others are. -/
theorem lookup?_fillAll {ss : List Setting} (hd : ss.Pairwise fun a b => a.key ≠ b.key) {s : Setting}
    (hs : s ∈ ss) (es : Entries) : lookup? s.key (fillAll ss es) = some (s.valueIn es) := by
  induction ss generalizing es with
  | nil => cases hs
  | cons t ss ih =>
    obtain ⟨ht, hss⟩ := List.pairwise_cons.mp hd
    show lookup? s.key (fillAll ss (t.fill es)) = _
    rcases List.mem_cons.mp hs with rfl | hs
    · rw [lookup?_fillAll_of_ne fun u hu => (ht u hu).symm, Setting.lookup?_fill_self]
    · rw [ih hss hs, Setting.valueIn_fill_of_ne (ht s hs)]

/-- Nothing is filled in where every setting can be used. -/
theorem fillAll_eq_self {ss : List Setting} {es : Entries}
    (h : ∀ s ∈ ss, (lookup? s.key es).any s.isUsable) : fillAll ss es = es := by
  induction ss with
  | nil => rfl
  | cons s ss ih =>
    obtain ⟨hs, hss⟩ := List.forall_mem_cons.mp h
    show fillAll ss (s.fill es) = es
    rw [Setting.fill_eq_self hs, ih hss]

/-! ### The configuration that entries give -/

/-- The number that a setting gets. -/
def Setting.natIn (s : Setting) (es : Entries) : Nat :=
  ((s.valueIn es).integer?.getD 0).toNat

/-- The string that a setting gets. -/
def Setting.textIn (s : Setting) (es : Entries) : Text := (s.valueIn es).string?.getD []

theorem natOr_eq (bound : Nat) (key : String) (default : Nat) (field : Config → Nat) (es : Entries) :
    natOr bound key default es =
      ((natSetting bound key default field).natIn es, (natSetting bound key default field).fill es) := by
  unfold natOr natEntry? Setting.natIn Setting.valueIn Setting.fill natSetting
  rcases lookup? key.toList es with _ | v
  · rfl
  · cases v with
    | integer n =>
      by_cases h : 0 ≤ n ∧ n ≤ bound
      · simp [Toml.integer?, isNat, h, Option.filter_some]
      · simp [Toml.integer?, isNat, h, Option.filter_some]
    | _ => rfl

theorem textOr_eq (key default : String) (field : Config → Text) (es : Entries) :
    textOr key default es =
      ((textSetting key default field).textIn es, (textSetting key default field).fill es) := by
  unfold textOr textEntry? Setting.textIn Setting.valueIn Setting.fill textSetting
  rcases lookup? key.toList es with _ | v
  · rfl
  · cases v <;> rfl

theorem natIn_fill_of_ne {s t : Setting} (h : s.key ≠ t.key) (es : Entries) :
    t.natIn (s.fill es) = t.natIn es := by
  rw [Setting.natIn, Setting.valueIn_fill_of_ne h, Setting.natIn]

theorem textIn_fill_of_ne {s t : Setting} (h : s.key ≠ t.key) (es : Entries) :
    t.textIn (s.fill es) = t.textIn es := by
  rw [Setting.textIn, Setting.valueIn_fill_of_ne h, Setting.textIn]

/-- **Completing goes through the settings**: each field is what its setting gets from the entries as
they were, and all settings are filled in. -/
theorem ofEntries_eq (es : Entries) : ofEntries es =
    ({ dbPath := (textSetting "db_path" "macros.db" dbPath).textIn es
       dbQueueSize := (natSetting maxLong "db_queue_size" 64 dbQueueSize).natIn es
       cacheSize := (natSetting maxLong "cache_size" 256 cacheSize).natIn es
       rngWorkers := (natSetting maxWord "rng_workers" 4 rngWorkers).natIn es
       rngReseedSeconds := (natSetting maxLong "rng_reseed_s" 300 rngReseedSeconds).natIn es
       maxRepeats :=
        .ofNat ((natSetting maxWord "max_repeats" 20 fun c => c.maxRepeats.toNat).natIn es)
       maxSides := .ofNat ((natSetting maxWord "max_sides" 200 fun c => c.maxSides.toNat).natIn es)
       commandPrefix := (textSetting "command_prefix" "/" commandPrefix).textIn es
       allowlistPath := textEntry? es allowlistKey
       consoleGroup := (textSetting "console_group" "console" consoleGroup).textIn es },
      fillAll settings es) := by
  simp (disch := decide) only [ofEntries, textOr_eq "db_path" "macros.db" dbPath,
    natOr_eq maxLong "db_queue_size" 64 dbQueueSize, natOr_eq maxLong "cache_size" 256 cacheSize,
    natOr_eq maxWord "rng_workers" 4 rngWorkers,
    natOr_eq maxLong "rng_reseed_s" 300 rngReseedSeconds,
    natOr_eq maxWord "max_repeats" 20 fun c => c.maxRepeats.toNat,
    natOr_eq maxWord "max_sides" 200 fun c => c.maxSides.toNat,
    textOr_eq "command_prefix" "/" commandPrefix, textOr_eq "console_group" "console" consoleGroup,
    natIn_fill_of_ne, textIn_fill_of_ne, fillAll, settings, List.foldl_cons, List.foldl_nil]
  rfl

theorem ofEntries_snd (es : Entries) : (ofEntries es).2 = fillAll settings es := by
  rw [ofEntries_eq]

theorem allowlistPath_ofEntries (es : Entries) :
    (ofEntries es).1.allowlistPath = textEntry? es allowlistKey := by
  rw [ofEntries_eq]

/-- A setting of numbers gets a number within its bound. -/
theorem valueIn_natSetting {bound default : Nat} (h : default ≤ bound) (key : String)
    (field : Config → Nat) (es : Entries) :
    (natSetting bound key default field).valueIn es =
        .integer ((natSetting bound key default field).natIn es) ∧
      (natSetting bound key default field).natIn es ≤ bound := by
  have hu : isNat bound ((natSetting bound key default field).valueIn es) :=
    Setting.isUsable_valueIn (s := natSetting bound key default field) (by simpa [natSetting, isNat]) es
  unfold Setting.natIn
  cases hv : (natSetting bound key default field).valueIn es with
  | integer n =>
    rw [hv] at hu
    obtain ⟨hn, hb⟩ : 0 ≤ n ∧ n ≤ bound := by simpa [isNat] using hu
    simp only [Toml.integer?, Option.getD_some]
    exact ⟨by rw [Int.toNat_of_nonneg hn], by omega⟩
  | _ => rw [hv] at hu; cases hu

/-- A setting of strings gets a string. -/
theorem valueIn_textSetting (key default : String) (field : Config → Text) (es : Entries) :
    (textSetting key default field).valueIn es =
      .string ((textSetting key default field).textIn es) := by
  have hu : isText ((textSetting key default field).valueIn es) :=
    Setting.isUsable_valueIn (s := textSetting key default field) rfl es
  unfold Setting.textIn
  cases hv : (textSetting key default field).valueIn es with
  | string s => rfl
  | _ => rw [hv] at hu; cases hu

/-- **The configuration has what the settings get.** -/
theorem ofConfig_ofEntries {s : Setting} (hs : s ∈ settings) (es : Entries) :
    s.ofConfig (ofEntries es).1 = s.valueIn es := by
  have hword : ∀ key default field, default ≤ maxWord →
      (UInt32.ofNat ((natSetting maxWord key default field).natIn es)).toNat =
        (natSetting maxWord key default field).natIn es := fun key default field h => by
    rw [UInt32.toNat_ofNat', Nat.mod_eq_of_lt]
    exact Nat.lt_succ_of_le (valueIn_natSetting h key field es).2
  rw [ofEntries_eq]
  simp only [settings, List.mem_cons, List.not_mem_nil, or_false] at hs
  rcases hs with rfl | rfl | rfl | rfl | rfl | rfl | rfl | rfl | rfl
  · exact (valueIn_textSetting ..).symm
  · exact (valueIn_natSetting (by decide) ..).1.symm
  · exact (valueIn_natSetting (by decide) ..).1.symm
  · exact (valueIn_natSetting (by decide) ..).1.symm
  · exact (valueIn_natSetting (by decide) ..).1.symm
  · rw [(valueIn_natSetting (by decide) ..).1]
    exact congrArg _ (congrArg _ (hword _ _ _ (by decide)))
  · rw [(valueIn_natSetting (by decide) ..).1]
    exact congrArg _ (congrArg _ (hword _ _ _ (by decide)))
  · exact (valueIn_textSetting ..).symm
  · exact (valueIn_textSetting ..).symm

/-- The settings and the list of allowed groups make up a configuration. -/
theorem eq_of_ofConfig {c c' : Config} (hs : ∀ s ∈ settings, s.ofConfig c = s.ofConfig c')
    (ha : c.allowlistPath = c'.allowlistPath) : c = c' := by
  simp only [settings, natSetting, textSetting, List.forall_mem_cons, Toml.string.injEq,
    Toml.integer.injEq, Int.natCast_inj, UInt32.toNat_inj] at hs
  cases c
  cases c'
  simp_all

/-! ### Completed entries -/

/-- **Every setting of completed entries is there and can be used.** -/
theorem lookup?_completed {s : Setting} (hs : s ∈ settings) (es : Entries) :
    lookup? s.key (ofEntries es).2 = some (s.valueIn es) := by
  rw [ofEntries_snd, lookup?_fillAll settings_distinct hs]

/-- **Completing leaves all other keys alone.** -/
theorem lookup?_completed_of_other {k : Text} (hk : ∀ s ∈ settings, s.key ≠ k) (es : Entries) :
    lookup? k (ofEntries es).2 = lookup? k es := by
  rw [ofEntries_snd, lookup?_fillAll_of_ne hk]

theorem fillAll_completed (es : Entries) : fillAll settings (ofEntries es).2 = (ofEntries es).2 := by
  refine fillAll_eq_self fun s hs => ?_
  rw [lookup?_completed hs, Option.any_some]
  exact Setting.isUsable_valueIn (isUsable_default s hs) es

/-- **Completed entries give the same configuration, and stay as they are.** -/
theorem ofEntries_completed (es : Entries) : ofEntries (ofEntries es).2 = ofEntries es := by
  have hsnd : (ofEntries (ofEntries es).2).2 = (ofEntries es).2 := by
    rw [ofEntries_snd (ofEntries es).2, fillAll_completed]
  refine Prod.ext (eq_of_ofConfig (fun s hs => ?_) ?_) hsnd
  · rw [ofConfig_ofEntries hs, ofConfig_ofEntries hs]
    refine Option.some.inj ?_
    rw [← lookup?_completed hs, ← lookup?_completed hs, hsnd]
  · rw [allowlistPath_ofEntries, allowlistPath_ofEntries, textEntry?,
      lookup?_completed_of_other allowlistKey_ne, textEntry?]

/-- What holds of entries, of the defaults and of entries with one more that is no worse holds of
completed entries. -/
theorem completed_induction {motive : Entries → Prop} {es : Entries} (h : motive es)
    (hinsert : ∀ s ∈ settings, ∀ es, motive es → motive (Toml.insert s.key s.default es)) :
    motive (ofEntries es).2 := by
  rw [ofEntries_snd]
  refine List.foldlRecOn settings _ h fun es h s hs => ?_
  unfold Setting.fill
  split_ifs
  · exact h
  · exact hinsert s hs es h

theorem ascending_completed {es : Entries} (h : Toml.Ascending es) : Toml.Ascending (ofEntries es).2 :=
  completed_induction h fun s _ _ h => h.insert s.key s.default

/-- **Completing entries once is enough.** Every setting is then there, has a value that can be used, and
that is the value in the configuration: what the entry was if it could be used, the default else. All other
keys, that of the list of allowed groups among them, lead to what they led to; the entries stay in the order
of their keys; and completing them again gives the same configuration and changes nothing. -/
theorem ofEntries_stable (es : Entries) :
    (∀ s ∈ settings, lookup? s.key (ofEntries es).2 = some (s.ofConfig (ofEntries es).1) ∧
      s.isUsable (s.ofConfig (ofEntries es).1) ∧
      (∀ v, lookup? s.key es = some v → s.isUsable v → lookup? s.key (ofEntries es).2 = some v) ∧
      ((∀ v, lookup? s.key es = some v → s.isUsable v = false) →
        lookup? s.key (ofEntries es).2 = some s.default)) ∧
    (∀ k, (∀ s ∈ settings, s.key ≠ k) → lookup? k (ofEntries es).2 = lookup? k es) ∧
    lookup? allowlistKey (ofEntries es).2 = lookup? allowlistKey es ∧
    (Toml.Ascending es → Toml.Ascending (ofEntries es).2) ∧
    ofEntries (ofEntries es).2 = ofEntries es := by
  refine ⟨fun s hs => ?_, fun k hk => lookup?_completed_of_other hk es,
    lookup?_completed_of_other allowlistKey_ne es, ascending_completed, ofEntries_completed es⟩
  have hlookup := lookup?_completed hs es
  have husable := Setting.isUsable_valueIn (isUsable_default s hs) es
  rw [ofConfig_ofEntries hs]
  refine ⟨hlookup, husable, fun v hv hu => ?_, fun hnone => ?_⟩
  · rw [hlookup, Setting.valueIn, hv, Option.filter_some_pos hu, Option.getD_some]
  · rw [hlookup, Setting.valueIn, Option.filter_eq_none_iff.mpr fun v hv hu => ?_, Option.getD_none]
    rw [hnone v hv] at hu
    cases hu

/-- The greatest number of dice stays; a number of sides beyond the greatest, a negative size and a path that
is no string are replaced; a path of the list of allowed groups that is no string stays, as does a key that
is no setting. -/
theorem ofEntries_stable_mixed :
    let es : Entries := [("allowlist_path".toList, .integer 1), ("cache_size".toList, .integer (-3)),
      ("db_path".toList, .boolean true), ("max_repeats".toList, .integer 4294967295),
      ("max_sides".toList, .integer 4294967296), ("motd".toList, .string "hi".toList)]
    lookup? "max_repeats".toList (ofEntries es).2 = some (.integer 4294967295) ∧
      lookup? "max_sides".toList (ofEntries es).2 = some (.integer 200) ∧
      lookup? "cache_size".toList (ofEntries es).2 = some (.integer 256) ∧
      lookup? "db_path".toList (ofEntries es).2 = some (.string "macros.db".toList) ∧
      lookup? "allowlist_path".toList (ofEntries es).2 = some (.integer 1) ∧
      lookup? "motd".toList (ofEntries es).2 = some (.string "hi".toList) ∧
      (Toml.Ascending es ∧ Toml.Ascending (ofEntries es).2) ∧
      ofEntries (ofEntries es).2 = ofEntries es := by
  intro es
  obtain ⟨hsettings, hother, hallowlist, hascending, hagain⟩ := ofEntries_stable es
  have hes : Toml.Ascending es := by
    unfold Toml.Ascending
    decide
  have hrefused : ∀ {s : Setting} {v : Toml}, lookup? s.key es = some v → s.isUsable v = false →
      ∀ w, lookup? s.key es = some w → s.isUsable w = false := fun hv hu w hw => by
    rwa [← Option.some.inj (hv.symm.trans hw)]
  refine ⟨(hsettings (natSetting maxWord "max_repeats" 20 fun c => c.maxRepeats.toNat) ?_).2.2.1 _ rfl rfl,
    (hsettings (natSetting maxWord "max_sides" 200 fun c => c.maxSides.toNat) ?_).2.2.2 (hrefused rfl rfl),
    (hsettings (natSetting maxLong "cache_size" 256 cacheSize) ?_).2.2.2 (hrefused rfl rfl),
    (hsettings (textSetting "db_path" "macros.db" dbPath) ?_).2.2.2 (hrefused rfl rfl),
    hallowlist, (hother _ ?_).trans rfl, ⟨hes, hascending hes⟩, hagain⟩
  case refine_5 =>
    simp only [settings, natSetting, textSetting]
    decide
  all_goals simp [settings]

end DiceBot.Config
