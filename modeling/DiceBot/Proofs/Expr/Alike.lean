import DiceBot.Proofs.Expr.Accepting
import DiceBot.Proofs.Expr.Meaning
import Mathlib.Data.List.Forall2

/-! # Expressions of one shape

Two tokens are alike if they are equal or both of them are operands. The order of operators and
parentheses and the number of values on the stack do not depend on the operands, so tokens that are alike
have postfix orders that are alike (`Arranges.exists_alike`), and what is alike to the postorder of a
tree is one too (`exists_postorder_of_alike`). A tree whose tokens are spelled only ends in a value or in an
error of arithmetic (`ExprTree.Spelled.eval_endsIn`). So if a text has a value, then with other operands
and other dice it has a value or fails for its arithmetic (`evaluate_endsIn_of_alike`). -/

namespace DiceBot

open Postfix

/-- Two tokens that stand in the same place of an expression: equal ones, or operands. -/
inductive Token.Alike : Token → Token → Prop where
  | same (t : Token) : Alike t t
  | operand (o o' : Operand) (x x' : Text) : Alike ⟨.operand o, x⟩ ⟨.operand o', x'⟩

theorem alike_refl (ts : List Token) : List.Forall₂ Token.Alike ts ts :=
  List.forall₂_same.mpr fun t _ => .same t

/-- Only an operand is alike to an operand. -/
theorem Token.Alike.exists_operand {o : Operand} {x : Text} {u : Token}
    (h : Alike u ⟨.operand o, x⟩) : ∃ o' x', u = ⟨.operand o', x'⟩ := by
  cases h with
  | same => exact ⟨o, x, rfl⟩
  | operand o' _ x' _ => exact ⟨o', x', rfl⟩

/-- Tokens that are no operands are alike only if they are equal. -/
theorem Token.Alike.eq_of_operand?_eq_none {t u : Token} (h : Alike u t) (ht : t.operand? = none) :
    u = t := by
  cases h with
  | same => rfl
  | operand => cases ht

/-! ### The same order -/

/-- **The order does not depend on the operands.** -/
theorem Postfix.Arranges.exists_alike {ts S p : List Token} (h : Arranges ts S p) :
    ∀ {us : List Token}, List.Forall₂ Token.Alike us ts →
      ∃ q, Arranges us S q ∧ List.Forall₂ Token.Alike q p := by
  induction h with
  | done hS =>
    intro us hus
    obtain rfl := List.forall₂_nil_right_iff.mp hus
    exact ⟨_, .done hS, alike_refl _⟩
  | operand _ ih =>
    intro us hus
    obtain ⟨u, us, hu, htail, rfl⟩ := List.forall₂_cons_right_iff.mp hus
    obtain ⟨q, hq, hqp⟩ := ih htail
    obtain ⟨o', x', rfl⟩ := hu.exists_operand
    exact ⟨_, .operand hq, .cons hu hqp⟩
  | operator hws hS _ ih =>
    intro us hus
    obtain ⟨u, us, hu, htail, rfl⟩ := List.forall₂_cons_right_iff.mp hus
    obtain ⟨q, hq, hqp⟩ := ih htail
    obtain rfl := hu.eq_of_operand?_eq_none rfl
    exact ⟨_, .operator hws hS hq, List.rel_append (alike_refl _) hqp⟩
  | leftParen _ ih =>
    intro us hus
    obtain ⟨u, us, hu, htail, rfl⟩ := List.forall₂_cons_right_iff.mp hus
    obtain ⟨q, hq, hqp⟩ := ih htail
    obtain rfl := hu.eq_of_operand?_eq_none rfl
    exact ⟨q, .leftParen hq, hqp⟩
  | rightParen hws _ ih =>
    intro us hus
    obtain ⟨u, us, hu, htail, rfl⟩ := List.forall₂_cons_right_iff.mp hus
    obtain ⟨q, hq, hqp⟩ := ih htail
    obtain rfl := hu.eq_of_operand?_eq_none rfl
    exact ⟨_, .rightParen hws hq, List.rel_append (alike_refl _) hqp⟩

/-- The postfix order has no other tokens than those that are arranged and those that wait. -/
theorem Postfix.Arranges.mem_or_mem {ts S p : List Token} (h : Arranges ts S p) :
    ∀ t ∈ p, t ∈ ts ∨ t ∈ S := by
  induction h with
  | done _ => exact fun t ht => Or.inr ht
  | operand _ ih =>
    intro t ht
    rcases List.mem_cons.mp ht with rfl | ht
    · exact Or.inl List.mem_cons_self
    · exact (ih t ht).imp_left (List.mem_cons_of_mem _)
  | operator _ _ _ ih =>
    intro t ht
    rcases List.mem_append.mp ht with ht | ht
    · exact Or.inr (List.mem_append_left _ ht)
    · rcases ih t ht with ht | ht
      · exact Or.inl (List.mem_cons_of_mem _ ht)
      · rcases List.mem_cons.mp ht with rfl | ht
        · exact Or.inl List.mem_cons_self
        · exact Or.inr (List.mem_append_right _ ht)
  | leftParen _ ih =>
    intro t ht
    rcases ih t ht with ht | ht
    · exact Or.inl (List.mem_cons_of_mem _ ht)
    · rcases List.mem_cons.mp ht with rfl | ht
      · exact Or.inl List.mem_cons_self
      · exact Or.inr ht
  | rightParen _ _ ih =>
    intro t ht
    rcases List.mem_append.mp ht with ht | ht
    · exact Or.inr (List.mem_append_left _ ht)
    · rcases ih t ht with ht | ht
      · exact Or.inl (List.mem_cons_of_mem _ ht)
      · exact Or.inr (List.mem_append_right _ (List.mem_cons_of_mem _ ht))

/-! ### Trees of the same shape -/

/-- A dice term that is spelled has dice and sides. -/
theorem Spells.counts_pos {t : DiceTerm} {x : Text} (h : Spells (.operand (.dice t)) x) :
    0 < t.repeats.toNat ∧ 0 < t.sides.toNat := by
  cases h with
  | dice k hn hm => exact ⟨hn.pos, hm.pos⟩

namespace ExprTree

/-- Tokens that are alike to the postorder of a tree are the postorder of another tree. -/
theorem exists_postorder_of_alike : ∀ (e : ExprTree) {p : List Token},
    List.Forall₂ Token.Alike p e.postorder → ∃ e' : ExprTree, p = e'.postorder
  | leaf _ _, p, h => by
    obtain ⟨u, us, hu, hus, rfl⟩ := List.forall₂_cons_right_iff.mp h
    obtain rfl := List.forall₂_nil_right_iff.mp hus
    obtain ⟨o', x', rfl⟩ := hu.exists_operand
    exact ⟨leaf o' x', rfl⟩
  | node op x l r, p, h => by
    -- the tokens of both operands, and behind them the operator
    have hoperands := List.forall₂_take_append _ _ _ h
    have hop := List.forall₂_drop_append _ _ _ h
    obtain ⟨l', hl⟩ := l.exists_postorder_of_alike (List.forall₂_take_append _ _ _ hoperands)
    obtain ⟨r', hr⟩ := r.exists_postorder_of_alike (List.forall₂_drop_append _ _ _ hoperands)
    obtain ⟨u, us, hu, hus, hlast⟩ := List.forall₂_cons_right_iff.mp hop
    obtain rfl := List.forall₂_nil_right_iff.mp hus
    obtain rfl := hu.eq_of_operand?_eq_none rfl
    refine ⟨node op x l' r', ?_⟩
    rw [postorder, ← hl, ← hr, ← hlast, List.take_append_drop, List.take_append_drop]

/-- The tokens of a tree are spelled if those of its postorder are. -/
theorem spelled_of_postorder : ∀ {e : ExprTree}, (∀ t ∈ e.postorder, Spells t.kind t.text) →
    e.Spelled
  | leaf _ _, h => h _ List.mem_cons_self
  | node op x _ _, h =>
    ⟨h ⟨.operator op, x⟩ (List.mem_append_right _ List.mem_cons_self),
      spelled_of_postorder fun t ht => h t (List.mem_append_left _ (List.mem_append_left _ ht)),
      spelled_of_postorder fun t ht => h t (List.mem_append_left _ (List.mem_append_right _ ht))⟩

theorem Spelled.not_isEmpty : ∀ {e : ExprTree}, e.Spelled → ∀ {t : DiceTerm} {x : Text},
    (.dice t, x) ∈ e.operands → ¬t.IsEmpty
  | leaf o y, h, t, x, hx => by
    obtain ⟨rfl, rfl⟩ := Prod.mk.inj (List.mem_singleton.mp hx)
    obtain ⟨hr, hs⟩ := Spells.counts_pos h
    exact DiceTerm.not_isEmpty hr hs
  | node _ _ l r, ⟨_, hl, hr⟩, t, x, hx => by
    rcases List.mem_append.mp hx with hx | hx
    · exact hl.not_isEmpty hx
    · exact hr.not_isEmpty hx

/-- **A tree ends in its arithmetic**: it has a value unless a division or the range stands against it. -/
theorem Spelled.eval_endsIn {σ : Type} [WordSource σ] {e : ExprTree} (h : e.Spelled) (g : σ) :
    e.eval.EndsIn EvalError.IsArithmetic g := by
  refine (e.eval_endsIn g).mono fun err herr => herr.resolve_right ?_
  rintro ⟨t, x, hx, hempty, -⟩
  exact h.not_isEmpty hx hempty

end ExprTree

/-! ### The same text with other operands and other dice -/

section Evaluate

variable {σ τ : Type} [WordSource σ] [WordSource τ] {limits : Limits} {out : Outcome} {g g' : σ}

/-- **Whether a text has a shape does not depend on its operands**: if one text has a value, another one
with tokens alike, within the limits, has a value or fails for its arithmetic. -/
theorem evaluate_endsIn_of_alike {s s' : Text} {ts ts' : List Token} (hcut : IsCut s ts)
    (hcut' : IsCut s' ts') (halike : List.Forall₂ Token.Alike ts' ts)
    (hlimits : limits.AllowsAll ts')
    (h : (evaluate limits s).Yields g out g') (k : τ) :
    (evaluate limits s').EndsIn EvalError.IsArithmetic k := by
  obtain ⟨p, hp, hrun⟩ := yields_evaluate_iff.mp h
  obtain ⟨us, hus, -, harr⟩ := parse_eq_ok_iff.mp hp
  obtain rfl : us = ts := hus.tokens_eq.symm.trans hcut.tokens_eq
  obtain ⟨e, rfl⟩ := Machine.exists_postorder_of_yields hrun
  obtain ⟨q, harr', hq⟩ := harr.exists_alike halike
  obtain ⟨e', rfl⟩ := e.exists_postorder_of_alike hq
  have hspelled : e'.Spelled := ExprTree.spelled_of_postorder fun t ht => by
    rcases harr'.mem_or_mem t ht with ht | ht
    · exact hcut'.spells t ht
    · cases ht
  have hparse : parse limits s' = .ok e'.postorder := parse_eq_ok_iff.mpr ⟨ts', hcut', hlimits, harr'⟩
  unfold evaluate
  rw [hparse, Rolling.ofExcept_ok, pure_bind, Machine.evaluate_postorder]
  exact hspelled.eval_endsIn k

/-- **A text that has a value** with some dice has a value or fails for its arithmetic with any dice. -/
theorem evaluate_endsIn_of_yields {s : Text} (h : (evaluate limits s).Yields g out g') (k : τ) :
    (evaluate limits s).EndsIn EvalError.IsArithmetic k := by
  obtain ⟨p, hp, -⟩ := yields_evaluate_iff.mp h
  obtain ⟨ts, hcut, hlimits, -⟩ := parse_eq_ok_iff.mp hp
  exact evaluate_endsIn_of_alike hcut hcut (alike_refl ts) hlimits h k

end Evaluate

end DiceBot
