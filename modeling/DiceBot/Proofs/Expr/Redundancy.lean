import DiceBot.Proofs.Expr.Shape
import Mathlib.Logic.Relation

/-! # Redundant parentheses

A pair of parentheses is redundant if what it holds binds tightly enough to stand bare: more tightly than
an operator in front of the pair, and at least as tightly as an operator behind it (`BareBehind`,
`BareBefore`). `Unwraps ts us` says that `us` is `ts` without one such pair, and `SameButPairs` that pairs
are taken out and put in any number of times.

* `Unwraps.ofInfix_eq`: the postfix order does not change, whether the tokens are an expression or not.
* `Infix.wrapped`: by such steps, in any surroundings, an expression comes to have parentheses around
  every operand of an operator.
* `ofInfix_derived`: so expressions that differ in redundant pairs have the same postfix order, the
  postorder of one tree, and other expressions have another one. -/

namespace DiceBot

open Postfix

/-- What has operators of at least the precedence `p` can stand bare behind these tokens: they are none,
or they end in an opening parenthesis or in an operator that binds less tightly. -/
def BareBehind (p : Nat) (before : List Token) : Prop :=
  ∀ t ∈ before.getLast?, isOpening t ∨ ∃ op, t.kind = .operator op ∧ op.precedence < p

/-- What has operators of at least the precedence `p` can stand bare in front of these tokens: they are
none, or they begin with a closing parenthesis or with an operator that binds no tighter. -/
def BareBefore (p : Nat) (after : List Token) : Prop :=
  ∀ t ∈ after.head?, t.isClosing ∨ ∃ op, t.kind = .operator op ∧ op.precedence ≤ p

/-- The second tokens are the first without a redundant pair of parentheses. -/
inductive Unwraps : List Token → List Token → Prop where
  | pair {p : Nat} {before part after : List Token} {e : ExprTree} (x y : Text) :
      Infix p part e → BareBehind p before → BareBefore p after →
      Unwraps (before ++ ⟨.leftParen, x⟩ :: (part ++ ⟨.rightParen, y⟩ :: after))
        (before ++ (part ++ after))

/-- The tokens differ only in redundant pairs of parentheses. -/
def SameButPairs : List Token → List Token → Prop := Relation.EqvGen Unwraps

/-! ### The same order -/

/-- Tokens that have the same order wherever an operator of the precedence `p` would release nothing have
it behind all tokens that end so. -/
theorem arrange_append_congr {p : Nat} {ts us : List Token}
    (h : ∀ S, Holds p S → arrange ts S = arrange us S) : ∀ {before S : List Token},
      BareBehind p before → (before = [] → Holds p S) →
        arrange (before ++ ts) S = arrange (before ++ us) S
  | [], S, _, hS => h S (hS rfl)
  | ⟨k, x⟩ :: before, S, hb, _ => by
    -- the last token in front of the two decides what they find on top of the stack
    have hlast : before = [] → isOpening ⟨k, x⟩ ∨ ∃ op, k = .operator op ∧ op.precedence < p := by
      rintro rfl
      exact hb ⟨k, x⟩ rfl
    have hbefore : BareBehind p before := by
      cases before with
      | nil => intro t ht; cases ht
      | cons u before => exact fun t ht => hb t ht
    have ih : ∀ T, (before = [] → Holds p T) → arrange (before ++ ts) T = arrange (before ++ us) T :=
      fun T hT => arrange_append_congr h hbefore hT
    rw [List.cons_append, List.cons_append]
    cases k with
    | operand o =>
      have hT : before = [] → Holds p S := fun hnil => by
        rcases hlast hnil with hopen | ⟨_, hop, _⟩
        · cases hopen
        · cases hop
      rw [arrange_operand, arrange_operand, ih S hT]
    | operator op =>
      obtain ⟨ws, S, rfl, hws, hS⟩ := exists_released_kept op.precedence S
      have hT : before = [] → Holds p (⟨.operator op, x⟩ :: S) := fun hnil => by
        rcases hlast hnil with hopen | ⟨op', hop, hlt⟩
        · cases hopen
        · cases hop
          exact holds_cons (by simp [yields, hlt])
      rw [arrange_operator _ _ hws hS, arrange_operator _ _ hws hS, ih _ hT]
    | leftParen =>
      have hT : before = [] → Holds p (⟨.leftParen, x⟩ :: S) := fun _ => holds_cons rfl
      rw [arrange_leftParen, arrange_leftParen, ih _ hT]
    | rightParen =>
      have hT : ∀ T, before = [] → Holds p T := fun T hnil => by
        rcases hlast hnil with hopen | ⟨_, hop, _⟩
        · cases hopen
        · cases hop
      rcases exists_opening S with hS | ⟨ws, y, S, rfl, hws⟩
      · rw [arrange_rightParen_unmatched _ _ hS, arrange_rightParen_unmatched _ _ hS]
      · rw [arrange_rightParen _ _ _ _ hws, arrange_rightParen _ _ _ _ hws, ih S (hT S)]

/-- Operators that wait come first if what follows would release them. -/
theorem arrange_pending {p : Nat} {pending after : List Token} (hpend : ∀ w ∈ pending, yields p w)
    (ha : BareBefore p after) (S : List Token) :
    arrange after (pending ++ S) = (arrange after S).map (pending ++ ·) := by
  have hopen : ∀ w ∈ pending, isOpening w = false := fun w hw => isOpening_of_yields (hpend w hw)
  cases after with
  | nil =>
    have hany : (pending ++ S).any isOpening = S.any isOpening := by
      have hnone : pending.any isOpening = false := by simpa using hopen
      rw [List.any_append, hnone, Bool.false_or]
    rw [arrange, arrange, hany]
    split <;> rfl
  | cons t after =>
    obtain ⟨k, x⟩ := t
    rcases ha ⟨k, x⟩ rfl with hclose | ⟨op, hop, hle⟩
    · obtain rfl : k = .rightParen := by simpa [Token.isClosing] using hclose
      rcases exists_opening S with hS | ⟨ws, y, S, rfl, hws⟩
      · have hall : ∀ w ∈ pending ++ S, isOpening w = false := fun w hw =>
          (List.mem_append.mp hw).elim (hopen w) (hS w)
        rw [arrange_rightParen_unmatched _ _ hall, arrange_rightParen_unmatched _ _ hS]
        rfl
      · have hall : ∀ w ∈ pending ++ ws, isOpening w = false := fun w hw =>
          (List.mem_append.mp hw).elim (hopen w) (hws w)
        rw [← List.append_assoc, arrange_rightParen _ _ _ _ hall, arrange_rightParen _ _ _ _ hws,
          map_append_map]
    · obtain rfl : k = .operator op := hop
      obtain ⟨ws, S, rfl, hws, hS⟩ := exists_released_kept op.precedence S
      have hall : ∀ w ∈ pending ++ ws, yields op.precedence w := fun w hw =>
        (List.mem_append.mp hw).elim (fun hw => yields_mono hle (hpend w hw)) (hws w)
      rw [← List.append_assoc, arrange_operator _ _ hall hS, arrange_operator _ _ hws hS,
        map_append_map]

/-- **A redundant pair makes no difference** to the postfix order. -/
theorem Unwraps.ofInfix_eq {ts us : List Token} (h : Unwraps ts us) : ofInfix ts = ofInfix us := by
  obtain @⟨p, before, part, after, e, x, y, hpart, hbehind, hbefore⟩ := h
  obtain ⟨out, pending, -, hpend, harr⟩ := Infix.arrange_append hpart
  refine arrange_append_congr (fun S hS => ?_) hbehind fun _ w hw => by cases hw
  have hopened : Holds p (⟨.leftParen, x⟩ :: S) := holds_cons rfl
  have hclose := arrange_rightParen x y after S fun w hw => isOpening_of_yields (hpend w hw)
  rw [arrange_leftParen, harr hopened, hclose, harr hS, arrange_pending hpend hbefore]

theorem SameButPairs.ofInfix_eq {ts us : List Token} (h : SameButPairs ts us) :
    ofInfix ts = ofInfix us := by
  induction h with
  | rel ts us h => exact h.ofInfix_eq
  | refl ts => rfl
  | symm ts us _ ih => exact ih.symm
  | trans ts us vs _ _ ih ih' => exact ih.trans ih'

/-! ### The same tree -/

theorem SameButPairs.symm {ts us : List Token} (h : SameButPairs ts us) : SameButPairs us ts :=
  Relation.EqvGen.symm _ _ h

theorem SameButPairs.trans {ts us vs : List Token} (h : SameButPairs ts us)
    (h' : SameButPairs us vs) : SameButPairs ts vs :=
  Relation.EqvGen.trans _ _ _ h h'

theorem bareBehind_concat {p : Nat} {t : Token}
    (ht : isOpening t ∨ ∃ op, t.kind = .operator op ∧ op.precedence < p) (before : List Token) :
    BareBehind p (before ++ [t]) := by
  intro u hu
  rw [List.getLast?_concat] at hu
  cases hu
  exact ht

theorem bareBefore_cons {p : Nat} {t : Token}
    (ht : t.isClosing ∨ ∃ op, t.kind = .operator op ∧ op.precedence ≤ p) (after : List Token) :
    BareBefore p (t :: after) := by
  intro u hu
  cases hu
  exact ht

/-- Between parentheses an expression can be given parentheses around all of its operands. -/
theorem Infix.wrapped {p : Nat} {ts : List Token} {e : ExprTree} (h : Infix p ts e) :
    ∀ (before after : List Token) (x y : Text),
      SameButPairs (before ++ ⟨.leftParen, x⟩ :: (ts ++ ⟨.rightParen, y⟩ :: after))
        (before ++ ⟨.leftParen, x⟩ :: (e.bracketed ++ ⟨.rightParen, y⟩ :: after)) := by
  induction h with
  | operand o x' => exact fun before after x y => .refl _
  | @parens ts e x' y' he ih =>
    intro before after x y
    -- the inner pair is redundant
    have hinner := Unwraps.pair x' y' he
      (bareBehind_concat (t := ⟨.leftParen, x⟩) (Or.inl rfl) before)
      (bareBefore_cons (t := ⟨.rightParen, y⟩) (Or.inl rfl) after)
    have hdropped : SameButPairs
        (before ++ ⟨.leftParen, x⟩ ::
          (⟨.leftParen, x'⟩ :: ts ++ [⟨.rightParen, y'⟩] ++ ⟨.rightParen, y⟩ :: after))
        (before ++ ⟨.leftParen, x⟩ :: (ts ++ ⟨.rightParen, y⟩ :: after)) :=
      .rel _ _ (by simpa using hinner)
    exact hdropped.trans (ih before after x y)
  | @binary ts us l r op x' hl hr ihl ihr =>
    intro before after x y
    -- each operand is given a pair, and within it all of its own operands
    have hleft := Unwraps.pair ['('] [')'] hl
      (bareBehind_concat (t := ⟨.leftParen, x⟩) (Or.inl rfl) before)
      (bareBefore_cons (t := ⟨.operator op, x'⟩) (Or.inr ⟨op, rfl, Nat.le_refl _⟩)
        (us ++ ⟨.rightParen, y⟩ :: after))
    have hinleft := ihl (before ++ [⟨.leftParen, x⟩])
      (⟨.operator op, x'⟩ :: (us ++ ⟨.rightParen, y⟩ :: after)) ['('] [')']
    have hright := Unwraps.pair ['('] [')'] hr
      (bareBehind_concat (t := ⟨.operator op, x'⟩) (Or.inr ⟨op, rfl, Nat.lt_succ_self _⟩)
        (before ++ ⟨.leftParen, x⟩ :: ⟨.leftParen, ['(']⟩ :: (l.bracketed ++ [⟨.rightParen, [')']⟩])))
      (bareBefore_cons (t := ⟨.rightParen, y⟩) (Or.inl rfl) after)
    have hinright := ihr
      (before ++ ⟨.leftParen, x⟩ :: ⟨.leftParen, ['(']⟩ :: (l.bracketed ++ [⟨.rightParen, [')']⟩]) ++
        [⟨.operator op, x'⟩]) (⟨.rightParen, y⟩ :: after) ['('] [')']
    have hl' := (SameButPairs.symm (.rel _ _ hleft)).trans hinleft
    have hr' := (SameButPairs.symm (.rel _ _ hright)).trans hinright
    simp only [List.append_assoc, List.cons_append, List.nil_append] at hl' hr'
    simpa [ExprTree.bracketed] using hl'.trans hr'
  | looser _ ih => exact ih

/-- **Expressions of one tree** differ only in redundant pairs of parentheses. -/
theorem sameButPairs_of_isExpression {ts us : List Token} {e : ExprTree} (ht : IsExpression ts e)
    (hu : IsExpression us e) : SameButPairs ts us := by
  have hbracketed : ∀ {vs : List Token}, IsExpression vs e →
      SameButPairs (⟨.leftParen, ['(']⟩ :: (e.bracketed ++ [⟨.rightParen, [')']⟩])) vs := by
    intro vs hv
    have hbehind : BareBehind 1 [] := fun t ht => by cases ht
    have hbefore : BareBefore 1 [] := fun t ht => by cases ht
    have hpair := Unwraps.pair ['('] [')'] hv hbehind hbefore
    have hwrapped := (Infix.wrapped hv [] [] ['('] [')']).symm
    simp only [List.nil_append, List.append_nil] at hpair hwrapped
    exact hwrapped.trans (.rel _ _ hpair)
  exact (hbracketed ht).symm.trans (hbracketed hu)

/-- **The postfix order of an expression** is the postorder of its tree, which has no parentheses; and two
expressions have the same postfix order if and only if they differ only in redundant pairs of
parentheses. -/
theorem ofInfix_derived {ts : List Token} {e : ExprTree} (h : IsExpression ts e) :
    ofInfix ts = .ok e.postorder ∧ (∀ t ∈ e.postorder, t.isParen = false) ∧
      ∀ us f, IsExpression us f → (ofInfix us = ofInfix ts ↔ SameButPairs ts us) := by
  have hpost := ofInfix_of_isExpression h
  refine ⟨hpost, fun t ht => ?_, fun us f hf => ⟨fun hsame => ?_, fun hpairs => hpairs.ofInfix_eq.symm⟩⟩
  · rcases ExprTree.kind_of_mem_postorder ht with ⟨o, hk⟩ | ⟨op, hk⟩
    · simp [Token.isParen, isOpening, Token.isClosing, hk]
    · simp [Token.isParen, isOpening, Token.isClosing, hk]
  · rw [hpost, ofInfix_of_isExpression hf] at hsame
    obtain rfl := ExprTree.postorder_inj (Except.ok.inj hsame)
    exact sameButPairs_of_isExpression h hf

/-- Differences group to the left: the parentheses around the first one are redundant, those around the
second one are not. -/
theorem ofInfix_derived_differences :
    let eight : ExprTree := .leaf (.integer 8) ['8']
    let four : ExprTree := .leaf (.integer 4) ['4']
    let two : ExprTree := .leaf (.integer 2) ['2']
    let left : ExprTree := .node .sub ['-'] (.node .sub ['-'] eight four) two
    let right : ExprTree := .node .sub ['-'] eight (.node .sub ['-'] four two)
    let bare := Lexer.tokens "8-4-2".toList
    let redundant := Lexer.tokens "((8)-4)-2".toList
    let needed := Lexer.tokens "8-(4-2)".toList
    (IsExpression bare left ∧ IsExpression redundant left ∧ IsExpression needed right) ∧
      ofInfix bare = .ok left.postorder ∧ SameButPairs bare redundant ∧ ¬SameButPairs bare needed := by
  intro eight four two left right bare redundant needed
  have hexpr : ∀ {ts : List Token} {e : ExprTree}, ofInfix ts = .ok e.postorder →
      placed false ts → IsExpression ts e := fun hpost => (placed_iff_isExpression hpost).mp
  have hbare : IsExpression bare left := hexpr (by decide +kernel) (by decide +kernel)
  have hredundant : IsExpression redundant left := hexpr (by decide +kernel) (by decide +kernel)
  have hneeded : IsExpression needed right := hexpr (by decide +kernel) (by decide +kernel)
  obtain ⟨hpost, -, hpairs⟩ := ofInfix_derived hbare
  have hother : ofInfix needed ≠ ofInfix bare := by decide +kernel
  exact ⟨⟨hbare, hredundant, hneeded⟩, hpost, (hpairs _ _ hredundant).mp (by decide +kernel),
    fun h => hother ((hpairs _ _ hneeded).mpr h)⟩

end DiceBot
