import DiceBot.Proofs.Toml.Building
import DiceBot.Proofs.Toml.Reading

/-! # What a document holds

Every value of a document is one that the format has, and the entries of every table in it stand in the
order of their keys, each key once (`isValid_of_ofText?`). -/

namespace DiceBot.Toml

variable {v : Toml} {k : Text}

/-- A value as it can be read: its parts are, and the entries of its tables ascend. -/
inductive IsValid : Toml → Prop
  | scalar {v : Toml} (h : IsScalar v) : IsValid v
  | array {items : List Toml} (h : ∀ v ∈ items, IsValid v) : IsValid (.array items)
  | table {es : Entries} (hasc : Ascending es) (h : ∀ e ∈ es, IsValid e.2) : IsValid (.table es)

theorem forall_mem_insert {α : Type} {P : Text × α → Prop} {x : α} {es : List (Text × α)} (hx : P (k, x))
    (hes : ∀ e ∈ es, P e) : ∀ e ∈ insert k x es, P e := fun e he =>
  (mem_of_mem_insert he).elim (fun heq => heq ▸ hx) (hes e)

/-! ### The values of drafts -/

theorem isValid_of_spelledDate? {body : List (Text × Draft)} (h : spelledDate? body = some v) :
    IsValid v := by
  obtain ⟨⟨k, d⟩, -, hd⟩ := Option.bind_eq_some_iff.mp h
  unfold Draft.date? at hd
  split at hd
  · obtain ⟨date, hdate, rfl⟩ := Option.map_eq_some_iff.mp hd
    exact .scalar (.datetime (Datetime.isValid_of_ofText? hdate))
  · cases hd

/-- A draft can only have values as they can be read. -/
def Draft.Finishes (d : Draft) : Prop := ∀ v, d.finish = some v → IsValid v

theorem isValid_of_finishItems {ds : List Draft} {vs : List Toml} (hds : ∀ d ∈ ds, d.Finishes)
    (h : finishItems ds = some vs) : ∀ v ∈ vs, IsValid v := by
  induction ds generalizing vs with
  | nil =>
    cases h
    simp
  | cons d ds ih =>
    obtain ⟨hd, hds⟩ := List.forall_mem_cons.mp hds
    rw [finishItems] at h
    split at h
    · rename_i hv hvs
      cases h
      exact List.forall_mem_cons.mpr ⟨hd _ hv, ih hds hvs⟩
    · cases h

theorem isValid_of_finishEntries {body : List (Text × Draft)} {es : Entries}
    (hbody : ∀ e ∈ body, e.2.Finishes) (h : finishEntries body = some es) :
    Ascending es ∧ ∀ e ∈ es, IsValid e.2 := by
  induction body generalizing es with
  | nil =>
    cases h
    exact ⟨List.Pairwise.nil, by simp⟩
  | cons e body ih =>
    obtain ⟨k, d⟩ := e
    obtain ⟨hd, hbody⟩ := List.forall_mem_cons.mp hbody
    rw [finishEntries] at h
    split at h
    · rename_i hv hes
      obtain ⟨hasc, hvalid⟩ := ih hbody hes
      split_ifs at h
      cases h
      exact ⟨hasc.insert .., forall_mem_insert (hd _ hv) hvalid⟩
    · cases h

/-- The table of entries, or the date and time that they spell. -/
theorem isValid_of_tableOrDate {body : List (Text × Draft)} (hbody : ∀ e ∈ body, e.2.Finishes)
    (h : (if spellsDate body then spelledDate? body else (finishEntries body).map Toml.table) = some v) :
    IsValid v := by
  split_ifs at h
  · exact isValid_of_spelledDate? h
  · obtain ⟨es, hes, rfl⟩ := Option.map_eq_some_iff.mp h
    obtain ⟨hasc, hvalid⟩ := isValid_of_finishEntries hbody hes
    exact .table hasc hvalid

theorem finishes_of_isRead {d : Draft} (h : d.IsRead) : d.Finishes := by
  induction h with
  | value h =>
    intro v hv
    rw [Draft.finish] at hv
    cases hv
    exact .scalar h
  | array _ ih =>
    intro v hv
    rw [Draft.finish] at hv
    obtain ⟨vs, hvs, rfl⟩ := Option.map_eq_some_iff.mp hv
    exact .array (isValid_of_finishItems ih hvs)
  | inline _ ih =>
    intro v hv
    rw [Draft.finish] at hv
    exact isValid_of_tableOrDate ih hv
  | dotted _ ih =>
    intro v hv
    rw [Draft.finish] at hv
    exact isValid_of_tableOrDate ih hv

/-! ### The parts of a document -/

/-- A part of a document with values as they can be read. -/
inductive Node.IsValid : Node → Prop
  | plain {v : Toml} (h : Toml.IsValid v) : IsValid (.plain v)
  | table {named : Bool} {es : List (Text × Node)} (hasc : Ascending es) (h : ∀ e ∈ es, IsValid e.2) :
    IsValid (.table named es)
  | elements {last : Node} {earlier : List Node} (hlast : IsValid last) (h : ∀ n ∈ earlier, IsValid n) :
    IsValid (.elements last earlier)

variable {nodes : List (Text × Node)} {node : Node} {body : List (Text × Draft)} {a : Option Node}

theorem ascending_plainNodes {es : Entries} (h : Ascending es) : Ascending (plainNodes es) :=
  List.pairwise_map.mpr h

theorem isValid_plainNodes {es : Entries} (h : ∀ e ∈ es, IsValid e.2) :
    ∀ e ∈ plainNodes es, e.2.IsValid := by
  intro e he
  obtain ⟨x, hx, rfl⟩ := List.mem_map.mp he
  exact .plain (h x hx)

theorem isValid_of_sectionNode? (hbody : ∀ e ∈ body, e.2.IsRead) (h : sectionNode? body = some node) :
    node.IsValid := by
  unfold sectionNode? at h
  split_ifs at h
  · obtain ⟨v, hv, rfl⟩ := Option.map_eq_some_iff.mp h
    exact .plain (isValid_of_spelledDate? hv)
  · obtain ⟨es, hes, rfl⟩ := Option.map_eq_some_iff.mp h
    obtain ⟨hasc, hvalid⟩ := isValid_of_finishEntries (fun e he => finishes_of_isRead (hbody e he)) hes
    exact .table (ascending_plainNodes hasc) (isValid_plainNodes hvalid)

theorem isValid_of_addPlain {new : Entries} {nodes' : List (Text × Node)} (hasc : Ascending nodes)
    (hnodes : ∀ e ∈ nodes, e.2.IsValid) (hnew : ∀ e ∈ new, IsValid e.2)
    (h : addPlain new nodes = some nodes') : Ascending nodes' ∧ ∀ e ∈ nodes', e.2.IsValid := by
  induction new generalizing nodes with
  | nil =>
    cases h
    exact ⟨hasc, hnodes⟩
  | cons e new ih =>
    obtain ⟨k, v⟩ := e
    obtain ⟨hv, hnew⟩ := List.forall_mem_cons.mp hnew
    rw [addPlain] at h
    split_ifs at h
    exact ih (hasc.insert ..) (forall_mem_insert (.plain hv) hnodes) hnew h

theorem isValid_of_addSection {isElement : Bool} (hbody : ∀ e ∈ body, e.2.IsRead)
    (ha : ∀ n ∈ a, n.IsValid) (h : addSection isElement body a = some node) : node.IsValid := by
  unfold addSection at h
  split at h
  · split_ifs at h
    · obtain ⟨n, hn, rfl⟩ := Option.map_eq_some_iff.mp h
      exact .elements (isValid_of_sectionNode? hbody hn) (by simp)
    · exact isValid_of_sectionNode? hbody h
  · split_ifs at h
    obtain ⟨new, hnew, h⟩ := Option.bind_eq_some_iff.mp h
    obtain ⟨nodes', hnodes', rfl⟩ := Option.map_eq_some_iff.mp h
    obtain ⟨-, hvalid⟩ := isValid_of_finishEntries (fun e he => finishes_of_isRead (hbody e he)) hnew
    cases ha _ rfl with
    | table hasc hnodes =>
      obtain ⟨hasc', hnodes'⟩ := isValid_of_addPlain hasc hnodes hvalid hnodes'
      exact .table hasc' hnodes'
  · split_ifs at h
    obtain ⟨n, hn, rfl⟩ := Option.map_eq_some_iff.mp h
    cases ha _ rfl with
    | elements hlast hearlier =>
      exact .elements (isValid_of_sectionNode? hbody hn) (List.forall_mem_cons.mpr ⟨hlast, hearlier⟩)
  · cases h

theorem isValid_of_lookup? (hnodes : ∀ e ∈ nodes, e.2.IsValid) (k : Text) :
    ∀ n ∈ lookup? k nodes, n.IsValid := fun n hn => hnodes (k, n) (mem_of_lookup? hn)

/-- A section leaves the parts of a document valid. -/
theorem isValid_of_insertAt {isElement : Bool} {path : List Text} (hbody : ∀ e ∈ body, e.2.IsRead)
    (ha : ∀ n ∈ a, n.IsValid) (h : insertAt isElement body path a = some node) : node.IsValid := by
  induction path generalizing a node with
  | nil => exact isValid_of_addSection hbody ha h
  | cons k ks ih =>
    cases a with
    | none =>
      rw [insertAt] at h
      split_ifs at h
      obtain ⟨n, hn, rfl⟩ := Option.map_eq_some_iff.mp h
      exact .table (List.pairwise_singleton ..) (by simpa using ih (by simp) hn)
    | some old =>
      have hold := ha old rfl
      cases hold with
      | plain => cases h
      | table hasc hnodes =>
        rw [insertAt] at h
        split_ifs at h
        obtain ⟨n, hn, rfl⟩ := Option.map_eq_some_iff.mp h
        exact .table (hasc.insert ..) (forall_mem_insert (ih (isValid_of_lookup? hnodes _) hn) hnodes)
      | elements hlast hearlier =>
        cases hlast with
        | table hasc hnodes =>
          rw [insertAt] at h
          split_ifs at h
          obtain ⟨n, hn, rfl⟩ := Option.map_eq_some_iff.mp h
          exact .elements (.table (hasc.insert ..)
            (forall_mem_insert (ih (isValid_of_lookup? hnodes _) hn) hnodes)) hearlier
        | _ => cases h

/-! ### The whole document -/

theorem isValid_of_topEntries {es es' : Entries} (hbody : ∀ e ∈ body, e.2.IsRead) (hasc : Ascending es)
    (hes : ∀ e ∈ es, IsValid e.2) (h : topEntries body es = some es') :
    Ascending es' ∧ ∀ e ∈ es', IsValid e.2 := by
  induction body generalizing es with
  | nil =>
    cases h
    exact ⟨hasc, hes⟩
  | cons e body ih =>
    obtain ⟨k, d⟩ := e
    obtain ⟨hd, hbody⟩ := List.forall_mem_cons.mp hbody
    rw [topEntries] at h
    split at h
    · rename_i hv
      exact ih hbody (hasc.insert ..) (forall_mem_insert (finishes_of_isRead hd _ hv) hes) h
    · cases h

theorem isValid_of_addTopSection {fixed : Option (List Text)} {s : Section} {nodes' : List (Text × Node)}
    (hs : s.IsRead) (hasc : Ascending nodes) (hnodes : ∀ e ∈ nodes, e.2.IsValid)
    (h : addTopSection fixed nodes s = some nodes') : Ascending nodes' ∧ ∀ e ∈ nodes', e.2.IsValid := by
  unfold addTopSection at h
  split at h
  · cases h
  · simp only at h
    split at h
    · cases h
    obtain ⟨n, hn, rfl⟩ := Option.map_eq_some_iff.mp h
    have hvalid : n.IsValid := by
      refine isValid_of_insertAt hs ?_ hn
      split_ifs
      · simp
      · exact isValid_of_lookup? hnodes _
    exact ⟨hasc.insert .., forall_mem_insert hvalid hnodes⟩

theorem isValid_of_addTopSections {fixed : Option (List Text)} {ss : List Section}
    {nodes' : List (Text × Node)} (hss : ∀ s ∈ ss, s.IsRead) (hasc : Ascending nodes)
    (hnodes : ∀ e ∈ nodes, e.2.IsValid) (h : ss.foldlM (addTopSection fixed) nodes = some nodes') :
    Ascending nodes' ∧ ∀ e ∈ nodes', e.2.IsValid := by
  induction ss generalizing nodes with
  | nil =>
    cases h
    exact ⟨hasc, hnodes⟩
  | cons s ss ih =>
    obtain ⟨hs, hss⟩ := List.forall_mem_cons.mp hss
    obtain ⟨nodes₁, h₁, h⟩ := Option.bind_eq_some_iff.mp h
    obtain ⟨hasc₁, hnodes₁⟩ := isValid_of_addTopSection hs hasc hnodes h₁
    exact ih hss hasc₁ hnodes₁ h

theorem isValid_value (h : node.IsValid) : IsValid node.value := by
  induction h with
  | plain h => rwa [Node.value]
  | table hasc _ ih =>
    rw [Node.value, nodeValues_eq_map]
    exact .table (List.pairwise_map.mpr hasc) (List.forall_mem_map.mpr ih)
  | elements _ _ ihlast ih =>
    rw [Node.value, elementValues_eq_map]
    refine .array fun v hv => ?_
    rcases List.mem_append.mp hv with hv | hv
    · obtain ⟨n, hn, rfl⟩ := List.mem_map.mp (List.mem_reverse.mp hv)
      exact ih n hn
    · obtain rfl := List.mem_singleton.mp hv
      exact ihlast

theorem isValid_of_ofSections? {ss : List Section} {es : Entries} (hss : ∀ s ∈ ss, s.IsRead)
    (h : ofSections? ss = some es) : Ascending es ∧ ∀ e ∈ es, IsValid e.2 := by
  cases ss with
  | nil =>
    cases h
    exact ⟨List.Pairwise.nil, by simp⟩
  | cons top rest =>
    obtain ⟨htop, hrest⟩ := List.forall_mem_cons.mp hss
    obtain ⟨es₀, hes₀, h⟩ := Option.bind_eq_some_iff.mp h
    obtain ⟨nodes, hnodes, h⟩ := Option.bind_eq_some_iff.mp h
    cases h
    obtain ⟨hasc₀, hvalid₀⟩ := isValid_of_topEntries htop List.Pairwise.nil (by simp) hes₀
    obtain ⟨hasc, hvalid⟩ := isValid_of_addTopSections hrest (ascending_plainNodes hasc₀)
      (isValid_plainNodes hvalid₀) hnodes
    rw [nodeValues_eq_map]
    exact ⟨List.pairwise_map.mpr hasc, List.forall_mem_map.mpr fun e he => isValid_value (hvalid e he)⟩

/-- **The entries of a document** ascend and have values that the format has. -/
theorem isValid_of_ofText? {s : Text} {es : Entries} (h : ofText? s = some es) :
    Ascending es ∧ ∀ e ∈ es, IsValid e.2 := by
  obtain ⟨ss, hss, h⟩ := Option.bind_eq_some_iff.mp h
  exact isValid_of_ofSections? (isRead_of_sections? hss) h

theorem isValid_of_ofBytes? {content : List UInt8} {es : Entries} (h : ofBytes? content = some es) :
    Ascending es ∧ ∀ e ∈ es, IsValid e.2 := by
  obtain ⟨s, -, h⟩ := Option.bind_eq_some_iff.mp h
  exact isValid_of_ofText? h

end DiceBot.Toml
