import DiceBot.Toml.Document
import DiceBot.Proofs.Toml.Entries

/-! # Building a document from sections

How sections turn one part of a document into another (`Builds`). What sections below a key build in
the empty place, they build under that key in a table, be that a table by itself or the last element of
an array (`Builds.lift`), and at the top of the document (`Builds.lift_top`). So the sections of the
entries of a table, one entry after another, build the table (`Grows.builds`). -/

namespace DiceBot.Toml

variable {path ks : List Text} {k : Text} {s : Section} {ss ss' : List Section} {a b c : Option Node}
  {es : List (Text × Node)} {named : Bool}

/-! ### The values of nodes -/

theorem nodeValues_eq_map (nodes : List (Text × Node)) :
    nodeValues nodes = nodes.map fun e => (e.1, e.2.value) := by
  induction nodes with
  | nil => rfl
  | cons e nodes ih =>
    obtain ⟨k, node⟩ := e
    rw [nodeValues, ih, List.map_cons]

theorem nodeValues_plainNodes (es : Entries) : nodeValues (plainNodes es) = es := by
  rw [nodeValues_eq_map, plainNodes, List.map_map]
  exact List.map_id' es

theorem lookup?_plainNodes (k : Text) (es : Entries) :
    lookup? k (plainNodes es) = (lookup? k es).map Node.plain := by
  induction es with
  | nil => rfl
  | cons e es ih =>
    obtain ⟨l, v⟩ := e
    show lookup? k ((l, Node.plain v) :: plainNodes es) = _
    rw [lookup?_cons, lookup?_cons, ih]
    split_ifs <;> rfl

theorem elementValues_eq_map (earlier : List Node) :
    elementValues earlier = (earlier.map Node.value).reverse := by
  induction earlier with
  | nil => rfl
  | cons n earlier ih => rw [elementValues, ih, List.map_cons, List.reverse_cons]

/-! ### Sections one after another -/

/-- Later sections may go into the part of the document: it is a table or the array of one. -/
inductive IsOpen : Node → Prop
  | table (named : Bool) (es : List (Text × Node)) : IsOpen (.table named es)
  | elements (named : Bool) (es : List (Text × Node)) (earlier : List Node) :
    IsOpen (.elements (.table named es) earlier)

/-- Sections with paths that begin with `path` turn the part `a` of the document there into `b`, and
leave it open all along. -/
inductive Builds (path : List Text) : List Section → Option Node → Option Node → Prop
  | nil (a : Option Node) : Builds path [] a a
  | cons {s : Section} {ss : List Section} {ks : List Text} {a c : Option Node} {node : Node}
      (hpath : s.path = path ++ ks) (hinsert : insertAt s.isElement s.entries ks a = some node)
      (hopen : IsOpen node) (hrest : Builds path ss (some node) c) : Builds path (s :: ss) a c

namespace Builds

theorem append (h : Builds path ss a b) (h' : Builds path ss' b c) : Builds path (ss ++ ss') a c := by
  induction h with
  | nil => exact h'
  | cons hpath hinsert hopen _ ih => exact .cons hpath hinsert hopen (ih h')

end Builds

/-! ### Below a table -/

/-- A table by itself, or as the last element of an array. -/
def slot (earlier : Option (List Node)) (named : Bool) (es : List (Text × Node)) : Node :=
  match earlier with
  | none => .table named es
  | some nodes => .elements (.table named es) nodes

theorem isOpen_slot (earlier : Option (List Node)) (named : Bool) (es : List (Text × Node)) :
    IsOpen (slot earlier named es) := by
  cases earlier
  · exact .table ..
  · exact .elements ..

theorem insertAt_slot (earlier : Option (List Node)) (named : Bool) (es : List (Text × Node))
    (isElement : Bool) (body : List (Text × Draft)) (k : Text) (ks : List Text) :
    insertAt isElement body (k :: ks) (some (slot earlier named es)) =
      if es.isEmpty && k = dateKey then none
      else (insertAt isElement body ks (lookup? k es)).map fun node =>
        slot earlier named (insert k node es) := by
  cases earlier <;> rfl

/-- The entries with a part of the document under a key, if there is one. -/
def put (k : Text) (a : Option Node) (es : List (Text × Node)) : List (Text × Node) :=
  match a with
  | none => es
  | some node => insert k node es

theorem lookup?_put (hk : lookup? k es = none) : lookup? k (put k a es) = a := by
  cases a with
  | none => exact hk
  | some node => exact lookup?_insert_self ..

theorem insert_put (node : Node) : insert k node (put k a es) = insert k node es := by
  cases a with
  | none => rfl
  | some old => exact insert_insert ..

/-- **Sections below a key build the same in a table.** -/
theorem Builds.lift (h : Builds (path ++ [k]) ss a b) (hk : lookup? k es = none)
    (hdate : es ≠ [] ∨ k ≠ dateKey) (earlier : Option (List Node)) (named : Bool) :
    Builds path ss (some (slot earlier named (put k a es))) (some (slot earlier named (put k b es))) := by
  induction h with
  | nil => exact .nil _
  | @cons s ss ks a c node hpath hinsert _ _ ih =>
    have hguard : ((put k a es).isEmpty && decide (k = dateKey)) = false := by
      cases a with
      | none =>
        show (es.isEmpty && _) = false
        rcases hdate with hne | hne
        · simp [hne]
        · simp [hne]
      | some old =>
        have hne := insert_ne_nil k old es
        simp [put, hne]
    have hbelow : s.path = path ++ k :: ks := by
      rw [hpath, List.append_assoc]
      rfl
    refine .cons hbelow ?_ (isOpen_slot ..) ih
    rw [insertAt_slot, hguard, if_neg Bool.false_ne_true, lookup?_put hk, hinsert]
    show some (slot earlier named (insert k node (put k a es))) = _
    rw [insert_put]
    rfl

/-- Sections below a key build a table without a header of its own. -/
theorem Builds.lift_none (h : Builds (path ++ [k]) ss none b) (hne : ss ≠ []) (hdate : k ≠ dateKey) :
    Builds path ss none (some (.table false (put k b []))) := by
  cases h with
  | nil => exact absurd rfl hne
  | @cons s ss ks _ _ node hpath hinsert hopen hrest =>
    have hbelow : s.path = path ++ k :: ks := by
      rw [hpath, List.append_assoc]
      rfl
    refine .cons hbelow ?_ (.table ..)
      (hrest.lift rfl (Or.inr hdate) none false)
    rw [insertAt, if_neg hdate, hinsert]
    rfl

/-! ### The entries of a table -/

/-- The sections of entries, one entry after another, build nodes with the values of the entries. -/
inductive Grows (path : List Text) : Entries → List Section → List (Text × Node) → Prop
  | nil : Grows path [] [] []
  | cons {k : Text} {v : Toml} {es : Entries} {ss ss' : List Section} {node : Node}
      {nodes : List (Text × Node)} (hne : ss ≠ []) (hbuilds : Builds (path ++ [k]) ss none (some node))
      (hvalue : node.value = v) (hrest : Grows path es ss' nodes) :
      Grows path ((k, v) :: es) (ss ++ ss') ((k, node) :: nodes)

variable {vs : Entries} {nodes : List (Text × Node)}

/-- The nodes have the keys and the values of the entries. -/
theorem Grows.nodes_eq (h : Grows path vs ss nodes) : nodes.map (fun e => (e.1, e.2.value)) = vs := by
  induction h with
  | nil => rfl
  | cons _ _ hvalue _ ih => rw [List.map_cons, hvalue, ih]

theorem Grows.ne_nil (h : Grows path vs ss nodes) (hne : vs ≠ []) : ss ≠ [] := by
  cases h with
  | nil => exact absurd rfl hne
  | cons hss => exact fun hnil => hss (List.append_eq_nil_iff.mp hnil).1

/-- **The sections of entries add them to a table.** -/
theorem Grows.builds (h : Grows path vs ss nodes) (hd : vs.Pairwise fun a b => a.1 ≠ b.1)
    (hnew : ∀ e ∈ vs, lookup? e.1 es = none) (hdate : es ≠ [] ∨ vs.head?.map Prod.fst ≠ some dateKey)
    (earlier : Option (List Node)) (named : Bool) :
    Builds path ss (some (slot earlier named es)) (some (slot earlier named (insertAll nodes es))) := by
  induction h generalizing es with
  | nil => exact .nil _
  | @cons k v vs ss ss' node nodes _ hbuilds _ _ ih =>
    obtain ⟨hk, hd⟩ := List.pairwise_cons.mp hd
    obtain ⟨hx, hnew⟩ := List.forall_mem_cons.mp hnew
    have hdate' : es ≠ [] ∨ k ≠ dateKey := hdate.imp_right fun h heq => h (by rw [heq]; rfl)
    refine (hbuilds.lift hx hdate' earlier named).append (ih hd (fun e he => ?_) (Or.inl ?_))
    · show lookup? e.1 (insert k node es) = none
      rw [lookup?_insert_of_ne (hk e he), hnew e he]
    · exact insert_ne_nil _ _ _

/-- The sections of the first entries of a table make the table. -/
theorem Grows.builds_none (h : Grows path vs ss nodes) (hne : vs ≠ [])
    (hd : vs.Pairwise fun a b => a.1 ≠ b.1) (hdate : vs.head?.map Prod.fst ≠ some dateKey) :
    Builds path ss none (some (.table false (insertAll nodes []))) := by
  cases h with
  | nil => exact absurd rfl hne
  | @cons k v vs ss ss' node nodes hss hbuilds _ hrest =>
    obtain ⟨hk, hd⟩ := List.pairwise_cons.mp hd
    have hdate' : k ≠ dateKey := fun heq => hdate (by rw [heq]; rfl)
    refine (hbuilds.lift_none hss hdate').append
      (hrest.builds hd (fun e he => ?_) (Or.inl (insert_ne_nil _ _ _)) none false)
    show lookup? e.1 (insert k node []) = none
    rw [lookup?_insert_of_ne (hk e he)]
    rfl

/-! ### The top of the document -/

theorem replaces_of_isOpen {node : Node} (h : IsOpen node) (s : Section) :
    replaces s (some node) = false := by
  cases h <;> rfl

/-- Sections below a key build the same at the top of the document. -/
theorem Builds.lift_top (h : Builds [k] ss a b) (hk : lookup? k es = none)
    (ha : ∀ node ∈ a, IsOpen node) (fixed : Option (List Text)) :
    ss.foldlM (addTopSection fixed) (put k a es) = some (put k b es) := by
  induction h with
  | nil => rfl
  | @cons s ss ks a c node hpath hinsert hopen _ ih =>
    have hreplaces : replaces s a = false := by
      cases a with
      | none => rfl
      | some old => exact replaces_of_isOpen (ha old rfl) s
    have hstep : addTopSection fixed (put k a es) s = some (insert k node es) := by
      rw [addTopSection, hpath]
      simp only [List.cons_append, List.nil_append]
      rw [lookup?_put hk, hreplaces]
      simp only [Bool.false_and, Bool.false_eq_true, if_false, hinsert]
      show some (insert k node (put k a es)) = _
      rw [insert_put]
    rw [List.foldlM_cons, hstep]
    exact ih fun n hn => Option.some.inj hn ▸ hopen

/-- **The sections of entries add them to the top of the document.** -/
theorem Grows.builds_top (h : Grows [] vs ss nodes) (hd : vs.Pairwise fun a b => a.1 ≠ b.1)
    (hnew : ∀ e ∈ vs, lookup? e.1 es = none) (fixed : Option (List Text)) :
    ss.foldlM (addTopSection fixed) es = some (insertAll nodes es) := by
  induction h generalizing es with
  | nil => rfl
  | @cons k v vs ss ss' node nodes _ hbuilds _ _ ih =>
    obtain ⟨hk, hd⟩ := List.pairwise_cons.mp hd
    obtain ⟨hx, hnew⟩ := List.forall_mem_cons.mp hnew
    have hfirst := Builds.lift_top (a := none) hbuilds hx (by simp) fixed
    rw [List.foldlM_append, show ss.foldlM (addTopSection fixed) es = _ from hfirst]
    refine ih hd fun e he => ?_
    show lookup? e.1 (insert k node es) = none
    rw [lookup?_insert_of_ne (hk e he), hnew e he]

end DiceBot.Toml
