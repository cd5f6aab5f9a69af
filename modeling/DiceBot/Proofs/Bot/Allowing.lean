import DiceBot.Bot.Allowlist
import DiceBot.Proofs.Json.Documents
import Mathlib.Data.List.Forall2

/-! # Who is on the allowlist

Which files list which groups (`Lists`), said on the grammar of JSON and not on its reader, and that a
group may use the bot just if the file lists it. -/

namespace DiceBot

/-! ### Lists of optional results -/

/-- A list whose elements all have results has the list of these. -/
theorem mapM_eq_some_iff {α β : Type} {f : α → Option β} {R : α → β → Prop} {l : List α}
    (h : ∀ a ∈ l, ∀ b, f a = some b ↔ R a b) {r : List β} : l.mapM f = some r ↔ List.Forall₂ R l r := by
  induction l generalizing r with
  | nil => simp [eq_comm]
  | cons a l ih =>
    have hl : ∀ r, l.mapM f = some r ↔ List.Forall₂ R l r := fun r =>
      ih fun a ha => h a (List.mem_cons_of_mem _ ha)
    simp only [List.mapM_cons, Option.bind_eq_bind, Option.bind_eq_some_iff, Option.pure_def,
      Option.some.injEq, List.forall₂_cons_left_iff]
    constructor
    · rintro ⟨b, hb, t, ht, rfl⟩
      exact ⟨b, t, (h a List.mem_cons_self b).mp hb, (hl t).mp ht, rfl⟩
    · rintro ⟨b, t, hb, ht, rfl⟩
      exact ⟨b, (h a List.mem_cons_self b).mpr hb, t, (hl t).mpr ht, rfl⟩

/-- A list that is related to two lists one after the other is in two parts itself. -/
theorem forall₂_append_iff {α β : Type} {R : α → β → Prop} {l : List α} {r r' : List β} :
    List.Forall₂ R l (r ++ r') ↔ ∃ k k', l = k ++ k' ∧ List.Forall₂ R k r ∧ List.Forall₂ R k' r' := by
  constructor
  · intro h
    exact ⟨_, _, (List.take_append_drop r.length l).symm, List.forall₂_take_append l r r' h,
      List.forall₂_drop_append l r r' h⟩
  · rintro ⟨k, k', rfl, hr, hr'⟩
    exact List.rel_append hr hr'

namespace Allowlist

open JsonString

/-! ### The form of the list -/

/-- A string that stands for a group. -/
def IsGroup (item : Json) (group : Text) : Prop := ∃ us, item = .string us ∧ Denotes us group

/-- An array of strings that stand for the groups. -/
def IsList (v : Json) (groups : List Text) : Prop :=
  ∃ items, v = .array items ∧ List.Forall₂ IsGroup items groups

/-- A member whose key is a text other than the key of the list. -/
def IsOther (m : JsonString × Json) : Prop := ∃ name, Denotes m.1 name ∧ name ≠ key

/-- The values that list groups: an object with the key once and any other members around it, or an
array with the one value of that key. -/
inductive IsAllowlist : Json → List Text → Prop
  | object {before after : List (JsonString × Json)} {k : JsonString} {v : Json} {groups : List Text}
      (hbefore : ∀ m ∈ before, IsOther m) (hk : Denotes k key) (hv : IsList v groups)
      (hafter : ∀ m ∈ after, IsOther m) : IsAllowlist (.object (before ++ (k, v) :: after)) groups
  | bare {v : Json} {groups : List Text} (hv : IsList v groups) : IsAllowlist (.array [v]) groups

/-! ### Reading the list -/

variable {v : Json} {s : List UInt8} {groups : List Text}

theorem isGroup_string_iff {us : JsonString} {group : Text} :
    IsGroup (.string us) group ↔ Denotes us group := by
  constructor
  · rintro ⟨us', hus, h⟩
    cases hus
    exact h
  · exact fun h => ⟨us, rfl, h⟩

theorem texts?_array {items : List Json} (h : Json.Padded (.array items) s) :
    texts? (.array items) = some groups ↔ List.Forall₂ IsGroup items groups := by
  refine mapM_eq_some_iff fun item hitem group => ?_
  obtain ⟨y, hy⟩ := h.items item hitem
  cases item with
  | string us => exact (decode?_eq_some_iff hy.units).trans isGroup_string_iff.symm
  | null | bool _ | number _ | array _ | object _ =>
    constructor
    · intro h
      cases h
    · rintro ⟨us, hus, -⟩
      cases hus

theorem texts?_eq_some_iff (h : Json.Padded v s) : texts? v = some groups ↔ IsList v groups := by
  cases v with
  | array items =>
    rw [texts?_array h]
    constructor
    · exact fun h => ⟨items, rfl, h⟩
    · rintro ⟨items', hitems, h⟩
      cases hitems
      exact h
  | null | bool _ | number _ | string _ | object _ =>
    constructor
    · intro h
      cases h
    · rintro ⟨items, hitems, -⟩
      cases hitems

/-- The members with their keys as texts. -/
def Named (m : JsonString × Json) (p : Text × Json) : Prop := Denotes m.1 p.1 ∧ p.2 = m.2

theorem namedMembers?_eq_some_iff {members : List (JsonString × Json)}
    (h : ∀ m ∈ members, m.1.IsNarrow) {named : List (Text × Json)} :
    namedMembers? members = some named ↔ List.Forall₂ Named members named := by
  refine mapM_eq_some_iff fun m hm p => ?_
  obtain ⟨name, v⟩ := p
  simp only [Option.map_eq_some_iff, decode?_eq_some_iff (h m hm), Prod.mk.injEq, Named]
  constructor
  · rintro ⟨name', hname, rfl, rfl⟩
    exact ⟨hname, rfl⟩
  · rintro ⟨hname, rfl⟩
    exact ⟨name, hname, rfl, rfl⟩

/-- Members of other names are the members that are named by other texts. -/
theorem isOther_iff {members : List (JsonString × Json)} :
    (∀ m ∈ members, IsOther m) ↔
      ∃ named, List.Forall₂ Named members named ∧ ∀ p ∈ named, p.1 ≠ key := by
  induction members with
  | nil => simp
  | cons m members ih =>
    rw [List.forall_mem_cons, ih]
    constructor
    · rintro ⟨⟨name, hname, hne⟩, named, hnamed, hnamed'⟩
      exact ⟨(name, m.2) :: named, .cons ⟨hname, rfl⟩ hnamed, List.forall_mem_cons.mpr ⟨hne, hnamed'⟩⟩
    · rintro ⟨_ | ⟨p, named⟩, hnamed, hne⟩
      · cases hnamed
      · obtain ⟨hm, hnamed⟩ := List.forall₂_cons.mp hnamed
        obtain ⟨hp, hne⟩ := List.forall_mem_cons.mp hne
        exact ⟨⟨p.1, hm.1, hp⟩, named, hnamed, hne⟩

/-- The key of the list stands among the named members just once. -/
theorem filter_key_eq_singleton_iff {named : List (Text × Json)} {p : Text × Json} :
    (named.filter fun m => m.1 = key) = [p] ↔
      ∃ before after, named = before ++ p :: after ∧ (∀ m ∈ before, m.1 ≠ key) ∧ p.1 = key ∧
        ∀ m ∈ after, m.1 ≠ key := by
  simp only [List.filter_eq_cons_iff, List.filter_eq_nil_iff, decide_eq_true_eq]

theorem ofJson?_object {members : List (JsonString × Json)} (h : Json.Padded (.object members) s) :
    ofJson? (.object members) = some groups ↔ IsAllowlist (.object members) groups := by
  have hnarrow : ∀ m ∈ members, m.1.IsNarrow := fun m hm => (h.members m hm).1
  have hvalue : ∀ {m}, m ∈ members → (texts? m.2 = some groups ↔ IsList m.2 groups) := fun hm =>
    texts?_eq_some_iff (h.members _ hm).2.choose_spec
  simp only [ofJson?, Option.bind_eq_bind, Option.bind_eq_some_iff, namedMembers?_eq_some_iff hnarrow]
  constructor
  · rintro ⟨named, hnamed, hlist⟩
    split at hlist
    · next name v hfilter =>
      obtain ⟨before, after, rfl, hbefore, hname, hafter⟩ := filter_key_eq_singleton_iff.mp hfilter
      obtain ⟨l, l', rfl, hl, hl'⟩ := forall₂_append_iff.mp hnamed
      obtain ⟨⟨k, u⟩, k', ⟨hk, rfl⟩, hk', rfl⟩ := List.forall₂_cons_right_iff.mp hl'
      have hv := (hvalue (List.mem_append_right l List.mem_cons_self)).mp hlist
      have hkey : Denotes k key := hname ▸ hk
      exact .object (isOther_iff.mpr ⟨before, hl, hbefore⟩) hkey hv
        (isOther_iff.mpr ⟨after, hk', hafter⟩)
    · cases hlist
  · rintro @⟨before, after, k, v, _, hbefore, hk, hv, hafter⟩
    obtain ⟨named, hnamed, hothers⟩ := isOther_iff.mp hbefore
    obtain ⟨named', hnamed', hothers'⟩ := isOther_iff.mp hafter
    have hfilter := filter_key_eq_singleton_iff.mpr
      ⟨named, named', rfl, hothers, (rfl : (key, v).1 = key), hothers'⟩
    refine ⟨named ++ (key, v) :: named', List.rel_append hnamed (.cons ⟨hk, rfl⟩ hnamed'), ?_⟩
    rw [hfilter]
    exact (hvalue (m := (k, v)) (List.mem_append_right before List.mem_cons_self)).mpr hv

theorem ofJson?_eq_some_iff (h : Json.Padded v s) : ofJson? v = some groups ↔ IsAllowlist v groups := by
  cases v with
  | object members => exact ofJson?_object h
  | array items =>
    match items, h with
    | [v], h =>
      obtain ⟨y, hy⟩ := h.items v List.mem_cons_self
      refine (texts?_eq_some_iff hy).trans ⟨.bare, ?_⟩
      intro hlist
      cases hlist with
      | bare hv => exact hv
    | [], _ | _ :: _ :: _, _ =>
      constructor
      · intro h
        cases h
      · intro h
        cases h
  | null | bool _ | number _ | string _ =>
    constructor
    · intro h
      cases h
    · intro h
      cases h

/-- The content of a file that lists the groups. -/
def Lists (content : List UInt8) (groups : List Text) : Prop :=
  ∃ v, Json.Padded v content ∧ IsAllowlist v groups

theorem ofBytes?_eq_some_iff {content : List UInt8} :
    ofBytes? content = some groups ↔ Lists content groups := by
  simp only [ofBytes?, Option.bind_eq_some_iff, Json.ofDocument?_eq_some_iff, Lists]
  exact exists_congr fun v => and_congr_right ofJson?_eq_some_iff

/-! ### Faults -/

/-- The objects and arrays that list no groups: the key of the list is missing or repeated, or its value
is no array of strings. -/
inductive Faulty : Json → Prop
  | missing {members : List (JsonString × Json)} (h : ∀ m ∈ members, ¬ Denotes m.1 key) :
      Faulty (.object members)
  | repeated {before between after : List (JsonString × Json)} {k k' : JsonString} {v v' : Json}
      (hk : Denotes k key) (hk' : Denotes k' key) :
      Faulty (.object (before ++ (k, v) :: (between ++ (k', v') :: after)))
  | element {before after : List (JsonString × Json)} {k : JsonString} {v : Json} (hk : Denotes k key)
      (hv : ∀ strings : List JsonString, v ≠ .array (strings.map .string)) :
      Faulty (.object (before ++ (k, v) :: after))
  | bareElement {v : Json} (hv : ∀ strings : List JsonString, v ≠ .array (strings.map .string)) :
      Faulty (.array [v])

/-- A list of groups is an array of strings. -/
theorem IsList.strings (h : IsList v groups) : ∃ strings : List JsonString, v = .array (strings.map .string) := by
  obtain ⟨items, rfl, h⟩ := h
  induction h with
  | nil => exact ⟨[], rfl⟩
  | cons hitem _ ih =>
    obtain ⟨us, rfl, -⟩ := hitem
    obtain ⟨strings, hstrings⟩ := ih
    cases hstrings
    exact ⟨us :: strings, rfl⟩

theorem not_isOther {k : JsonString} (hk : Denotes k key) (v : Json) : ¬ IsOther (k, v) := by
  rintro ⟨name, hname, hne⟩
  exact hne (hname.unique hk)

/-- In an object that lists groups a member with the key of the list has the others around it. -/
theorem IsAllowlist.split {before after : List (JsonString × Json)} {k : JsonString}
    (h : IsAllowlist (.object (before ++ (k, v) :: after)) groups) (hk : Denotes k key) :
    IsList v groups ∧ ∀ m ∈ after, IsOther m := by
  generalize hmembers : before ++ (k, v) :: after = members at h
  obtain @⟨before', after', k', v', _, hbefore, hk', hv, hafter⟩ := h
  rcases List.append_eq_append_iff.mp hmembers with ⟨l, rfl, hl⟩ | ⟨l, rfl, hl⟩
  · cases l with
    | nil =>
      cases hl
      exact ⟨hv, hafter⟩
    | cons m l =>
      obtain ⟨rfl, -⟩ := List.cons.inj hl
      exact absurd (hbefore _ (List.mem_append_right before List.mem_cons_self)) (not_isOther hk v)
  · cases l with
    | nil =>
      cases hl
      exact ⟨hv, hafter⟩
    | cons m l =>
      obtain ⟨-, rfl⟩ := List.cons.inj hl
      exact absurd (hafter _ (List.mem_append_right l List.mem_cons_self)) (not_isOther hk v)

theorem Faulty.not_isAllowlist (h : Faulty v) : ¬ IsAllowlist v groups := by
  intro hlist
  cases h with
  | missing h =>
    obtain @⟨before, after, k, v, _, -, hk, -, -⟩ := hlist
    exact h (k, v) (List.mem_append_right before List.mem_cons_self) hk
  | @repeated before between after k k' v v' hk hk' =>
    have hother := (hlist.split hk).2 (k', v') (List.mem_append_right between List.mem_cons_self)
    exact not_isOther hk' v' hother
  | element hk hv =>
    obtain ⟨strings, hstrings⟩ := (hlist.split hk).1.strings
    exact hv strings hstrings
  | bareElement hv =>
    cases hlist with
    | bare hlist =>
      obtain ⟨strings, hstrings⟩ := hlist.strings
      exact hv strings hstrings

end Allowlist

/-! ### Access -/

open Allowlist

section

variable {content : List UInt8} {groups : List Text}

theorem allows_of_lists (h : Lists content groups) (group : Text) :
    (Access.allowlist (some content)).allows group = .ok (decide (group ∈ groups)) := by
  rw [Access.allows, ofBytes?_eq_some_iff.mpr h]
  exact congrArg Except.ok (List.contains_eq_mem group groups)

theorem allows_of_not_lists (h : ∀ groups, ¬ Lists content groups) (group : Text) :
    (Access.allowlist (some content)).allows group = .error .json := by
  have hread : ofBytes? content = none :=
    Option.eq_none_iff_forall_ne_some.mpr fun groups hgroups => h groups (ofBytes?_eq_some_iff.mp hgroups)
  rw [Access.allows, hread]

end

/-- **A group may use the bot just if the whole file is one document that lists it.** A file that lists
groups answers for every group; every other file is refused, and so is a missing one. -/
theorem Access.allows_allowlist :
    (∀ group, (Access.allowlist none).allows group = .error .io) ∧
      ∀ (content : List UInt8) (group : Text),
        ((Access.allowlist (some content)).allows group = .ok true ↔
            ∃ groups, Lists content groups ∧ group ∈ groups) ∧
          (∀ groups, Lists content groups →
            (Access.allowlist (some content)).allows group = .ok (decide (group ∈ groups))) ∧
          ((∀ groups, ¬ Lists content groups) →
            (Access.allowlist (some content)).allows group = .error .json) ∧
          ((∀ v, ¬ Json.Padded v content) →
            (Access.allowlist (some content)).allows group = .error .json) ∧
          ∀ v, Json.Padded v content →
            (Faulty v → (Access.allowlist (some content)).allows group = .error .json) ∧
              ∀ extra, ¬ Json.Blanks extra →
                (Access.allowlist (some (content ++ extra))).allows group = .error .json := by
  refine ⟨fun _ => rfl, fun content group => ⟨⟨fun h => ?_, ?_⟩, fun groups hlists => ?_, fun h => ?_,
    fun h => ?_, fun v hv => ⟨fun hfaulty => ?_, fun extra hextra => ?_⟩⟩⟩
  · by_cases hlists : ∃ groups, Lists content groups
    · obtain ⟨groups, hlists⟩ := hlists
      rw [allows_of_lists hlists] at h
      exact ⟨groups, hlists, of_decide_eq_true (Except.ok.inj h)⟩
    · rw [allows_of_not_lists (not_exists.mp hlists)] at h
      cases h
  · rintro ⟨groups, hlists, hgroup⟩
    rw [allows_of_lists hlists, decide_eq_true hgroup]
  · exact allows_of_lists hlists group
  · exact allows_of_not_lists h group
  · exact allows_of_not_lists (fun _ ⟨v, hv, _⟩ => h v hv) group
  · refine allows_of_not_lists (fun groups ⟨u, hu, hlist⟩ => ?_) group
    rw [hu.unique hv] at hlist
    exact hfaulty.not_isAllowlist hlist
  · refine allows_of_not_lists (fun groups ⟨u, hu, hlist⟩ => hextra ?_) group
    refine hv.blanks_of_append hu ?_
    cases hlist with
    | object _ _ _ _ => exact Or.inr ⟨_, rfl⟩
    | bare _ => exact Or.inl ⟨_, rfl⟩

/-- A list with escapes in its key and its groups, behind a member with a value that has no text. -/
def escapedFile : List UInt8 := Text.toUtf8
  "\x7b\"x\":[-1.5e3,\x7b\"y\":\"\\ud83d\"\x7d], \"allowed\\u0053ervers\" : [\"\\u0061\",\"é\"]\x7d\n".toList

/-- The key and a list of one group. -/
def listMember : List UInt8 := Text.toUtf8 "\"allowedServers\":[\"a\"]".toList

theorem writtenMember_listMember : Json.WrittenMember
    ((Text.toUtf8 key).map .byte, .array [.string [.byte 0x61]]) listMember := by
  have hplain : (Text.toUtf8 key).all fun b => Json.IsPlain b := by decide +kernel
  have hkey : Json.WrittenUnits ((Text.toUtf8 key).map .byte) (Text.toUtf8 key) :=
    Json.writtenUnits_map_byte fun b hb => of_decide_eq_true (List.all_eq_true.mp hplain b hb)
  have hgroup : Json.WrittenUnits [.byte 0x61] [0x61] := .plain (by decide) .nil
  have hlist := (Json.Written.items (.last (Json.Written.string hgroup).padded)).padded
  have hmember := Json.WrittenMember.mk Json.blanks_nil hkey Json.blanks_nil hlist
  have hbytes : [] ++ Json.quoteMark :: (Text.toUtf8 key ++ Json.quoteMark :: ([] ++ Json.colon ::
      Json.leftBracket :: (Json.quoteMark :: ([0x61] ++ [Json.quoteMark]) ++ [Json.rightBracket]))) =
        listMember := by decide +kernel
  exact hbytes ▸ hmember

/-- An object with the list twice. -/
def repeatedFile : List UInt8 :=
  Json.leftBrace :: ((listMember ++ Json.comma :: listMember) ++ [Json.rightBrace])

/-- A list with escapes, the same with a bracket behind it, an object with two lists, and no bytes. -/
theorem Access.allows_escaped :
    (Lists escapedFile [['a'], ['é']] ∧ (Access.allowlist (some escapedFile)).allows ['a'] = .ok true ∧
        (Access.allowlist (some escapedFile)).allows ['b'] = .ok false) ∧
      (Access.allowlist (some (escapedFile ++ [Json.rightBracket]))).allows ['a'] = .error .json ∧
      (Access.allowlist (some repeatedFile)).allows ['a'] = .error .json ∧
      (Access.allowlist (some [])).allows ['a'] = .error .json := by
  have hlists : Lists escapedFile [['a'], ['é']] := ofBytes?_eq_some_iff.mp (by decide +kernel)
  have ⟨v, hv, _⟩ := hlists
  have hbracket : ¬ Json.Blanks [Json.rightBracket] := fun h => absurd (h _ List.mem_cons_self) (by decide)
  have hmember := writtenMember_listMember
  have hrepeated := (Json.Written.members (.cons hmember (.last hmember))).padded
  have hkey := JsonString.denotes_map_byte key
  have hnothing : Json.ofDocument? [] = none := by decide +kernel
  have hempty : ∀ v, ¬ Json.Padded v [] := fun v h => by
    rw [← Json.ofDocument?_eq_some_iff, hnothing] at h
    cases h
  obtain ⟨-, h⟩ := Access.allows_allowlist
  refine ⟨⟨hlists, (h escapedFile ['a']).2.1 _ hlists, (h escapedFile ['b']).2.1 _ hlists⟩, ?_, ?_, ?_⟩
  · exact ((h escapedFile ['a']).2.2.2.2 v hv).2 _ hbracket
  · exact ((h repeatedFile ['a']).2.2.2.2 _ hrepeated).1 (@Faulty.repeated [] [] [] _ _ _ _ hkey hkey)
  · exact (h [] ['a']).2.2.2.1 hempty

/-- An object with a string that is not UTF-8 before its list. -/
def notUtf8File : List UInt8 :=
  Json.leftBrace :: ((Text.toUtf8 "\"x\":\"".toList ++ 0xff :: Json.quoteMark :: Json.comma :: listMember) ++
    [Json.rightBrace])

/-- An object with half of a pair as a key before its list. -/
def unpairedFile : List UInt8 :=
  Json.leftBrace :: ((Text.toUtf8 "\"\\ud800\":0".toList ++ Json.comma :: listMember) ++ [Json.rightBrace])

/-- A file that is no text, and so no JSON, gives access; and a member whose key is no text denies it,
though the file is an object with the list just once. -/
theorem Access.allows_notUtf8File :
    ((Access.allowlist (some notUtf8File)).allows ['a'] = .ok true ∧ ∀ t, Text.toUtf8 t ≠ notUtf8File) ∧
      (Access.allowlist (some unpairedFile)).allows ['a'] = .error .json ∧
      Json.Padded (.object [([.code 0xd800], .number [Json.zero]),
        ((Text.toUtf8 key).map .byte, .array [.string [.byte 0x61]])]) unpairedFile := by
  have hlists : ofBytes? notUtf8File = some [['a']] := by decide +kernel
  have hnone : ofBytes? unpairedFile = none := by decide +kernel
  have htext : Text.ofUtf8? notUtf8File = none := by decide +kernel
  refine ⟨⟨?_, fun t ht => ?_⟩, ?_, ?_⟩
  · rw [Access.allows, hlists]
    rfl
  · rw [← ht, Text.ofUtf8?_toUtf8] at htext
    cases htext
  · rw [Access.allows, hnone]
  · have hkey : Json.WrittenUnits [.code 0xd800]
        [Json.backslash, Json.letterU, 0x64, 0x38, 0x30, 0x30] := .code rfl .nil
    have hzero : Json.IsNumber [Json.zero] :=
      ⟨[], [Json.zero], [], [], Or.inl rfl, Or.inl rfl, Or.inl rfl, Or.inl rfl, rfl⟩
    have hmember := Json.WrittenMember.mk Json.blanks_nil hkey Json.blanks_nil
      (Json.Written.scalar (.number hzero)).padded
    have hbytes : [] ++ Json.quoteMark :: ([Json.backslash, Json.letterU, 0x64, 0x38, 0x30, 0x30] ++
        Json.quoteMark :: ([] ++ Json.colon :: [Json.zero])) = Text.toUtf8 "\"\\ud800\":0".toList := by decide +kernel
    rw [hbytes] at hmember
    exact (Json.Written.members (.cons hmember (.last writtenMember_listMember))).padded

end DiceBot
