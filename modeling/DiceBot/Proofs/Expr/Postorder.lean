import DiceBot.Expr.Tree

/-! # Postorders

A list of tokens is the postorder of at most one tree. `assemble` finds trees as the machine finds values,
with a stack: an operand is a tree, and an operator makes one of the two latest trees. It takes back a
postorder (`assemble_postorder_append`), and the postorders of the trees that it ends with are the tokens
it has read (`postorders_of_assemble`). So `ofPostorder?` decides whether tokens are a postorder, and of
which tree (`ofPostorder?_eq_some_iff`). -/

namespace DiceBot.ExprTree

/-- The postorders of trees, the last tree first. -/
def postorders (F : List ExprTree) : List Token := F.reverse.flatMap postorder

/-- The trees of tokens in postorder, on top of earlier ones; the latest tree comes first. -/
def assemble : List ExprTree → List Token → Option (List ExprTree)
  | F, [] => some F
  | F, t :: ts =>
    match t.kind, F with
    | .operand o, F => assemble (leaf o t.text :: F) ts
    | .operator op, r :: l :: F => assemble (node op t.text l r :: F) ts
    | _, _ => none

/-- The tree of which the tokens are the postorder. -/
def ofPostorder? (ts : List Token) : Option ExprTree :=
  match assemble [] ts with
  | some [e] => some e
  | _ => none

theorem postorders_cons (e : ExprTree) (F : List ExprTree) :
    postorders (e :: F) = postorders F ++ e.postorder := by
  simp [postorders]

/-- **A postorder is taken back**: what follows it finds the tree on top of the others. -/
theorem assemble_postorder_append (e : ExprTree) : ∀ (F : List ExprTree) (ts : List Token),
    assemble F (e.postorder ++ ts) = assemble (e :: F) ts := by
  induction e with
  | leaf o x => exact fun F ts => rfl
  | node op x l r ihl ihr =>
    intro F ts
    rw [postorder, List.append_assoc, List.append_assoc, ihl, ihr]
    rfl

/-- **Nothing is lost**: the trees account for all tokens. -/
theorem postorders_of_assemble : ∀ {ts : List Token} {F F' : List ExprTree},
    assemble F ts = some F' → postorders F' = postorders F ++ ts
  | [], F, F', h => by
    cases h
    exact (List.append_nil _).symm
  | ⟨.operand o, x⟩ :: ts, F, F', h => by
    have hrest : assemble (leaf o x :: F) ts = some F' := h
    rw [postorders_of_assemble hrest, postorders_cons, postorder, List.append_assoc,
      List.singleton_append]
  | ⟨.operator op, x⟩ :: ts, r :: l :: F, F', h => by
    have hrest : assemble (node op x l r :: F) ts = some F' := h
    rw [postorders_of_assemble hrest]
    simp [postorders_cons, postorder]
  | ⟨.operator _, _⟩ :: _, [], _, h => by cases h
  | ⟨.operator _, _⟩ :: _, [_], _, h => by cases h
  | ⟨.leftParen, _⟩ :: _, _, _, h => by cases h
  | ⟨.rightParen, _⟩ :: _, _, _, h => by cases h

/-- **The tree of a postorder** is found, and only that of a postorder. -/
theorem ofPostorder?_eq_some_iff {ts : List Token} {e : ExprTree} :
    ofPostorder? ts = some e ↔ ts = e.postorder := by
  constructor
  · intro h
    unfold ofPostorder? at h
    split at h
    · next hF =>
      cases h
      simpa [postorders] using (postorders_of_assemble hF).symm
    · cases h
  · rintro rfl
    have hF : assemble [] e.postorder = some [e] := by
      rw [← List.append_nil e.postorder, assemble_postorder_append]
      rfl
    rw [ofPostorder?, hF]

theorem postorder_inj {e e' : ExprTree} (h : e.postorder = e'.postorder) : e = e' := by
  have hfound := ofPostorder?_eq_some_iff.mpr h
  rw [ofPostorder?_eq_some_iff.mpr rfl] at hfound
  exact Option.some.inj hfound

instance (ts : List Token) : Decidable (∃ e : ExprTree, ts = e.postorder) :=
  decidable_of_iff ((ofPostorder? ts).isSome = true) <| by
    rw [Option.isSome_iff_exists]
    exact exists_congr fun e => ofPostorder?_eq_some_iff

end DiceBot.ExprTree
