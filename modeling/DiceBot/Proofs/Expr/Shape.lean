import DiceBot.Proofs.Expr.Meaning

/-! # The shape of what has a value

The postfix order is made without a look at the shape of the tokens, and the machine only counts its
values. So a text with a value need not be an expression: `1 1 +` has a value, and so has `()1`. What
the counting makes sure of is that there is one operand more than there are operators. That is enough
once every operator stands between two operands (`placed`): no two operands can then be adjacent
(`alternates_of_placed`), and tokens that take turns and whose parentheses match are an expression
(`Alternates.exists_isExpression`). Parentheses with nothing between them make no difference
(`arrange_withoutEmptyPairs`). -/

namespace DiceBot

open Postfix

/-! ### Empty pairs of parentheses -/

/-- The tokens without the parentheses that have nothing between them but such parentheses. -/
def withoutEmptyPairs : List Token → List Token
  | [] => []
  | t :: ts =>
    match t.kind, withoutEmptyPairs ts with
    | .leftParen, u :: us => if u.isClosing then us else t :: u :: us
    | _, us => t :: us

theorem arrange_cons_congr {ts us : List Token} (h : ∀ S, arrange ts S = arrange us S) (t : Token)
    (S : List Token) : arrange (t :: ts) S = arrange (t :: us) S := by
  rw [arrange, arrange]
  simp only [h]

theorem arrange_emptyPair (x y : Text) (ts S : List Token) :
    arrange (⟨.leftParen, x⟩ :: ⟨.rightParen, y⟩ :: ts) S = arrange ts S := by
  have hclose : arrange (⟨.rightParen, y⟩ :: ts) ([] ++ ⟨.leftParen, x⟩ :: S) =
      (arrange ts S).map ([] ++ ·) := arrange_rightParen x y ts S (by simp)
  rw [arrange_leftParen, ← List.nil_append (⟨.leftParen, x⟩ :: S), hclose]
  cases arrange ts S <;> rfl

/-- **Empty pairs make no difference** to the postfix order. -/
theorem arrange_withoutEmptyPairs : ∀ ts S : List Token,
    arrange (withoutEmptyPairs ts) S = arrange ts S
  | [], S => by rw [withoutEmptyPairs]
  | ⟨k, x⟩ :: ts, S => by
    have ih := arrange_withoutEmptyPairs ts
    have hcons := arrange_cons_congr ih ⟨k, x⟩ S
    rw [withoutEmptyPairs]
    split
    · next u us hk hus =>
      obtain rfl : k = .leftParen := hk
      rw [hus] at hcons
      by_cases hu : u.kind = .rightParen
      · obtain ⟨ku, y⟩ := u
        obtain rfl : ku = .rightParen := hu
        rw [← hcons, arrange_emptyPair]
        rfl
      · rw [if_neg (by simpa [Token.isClosing] using hu), hcons]
    · exact hcons

/-! ### Operators between operands -/

/-- Whether every operator stands between two operands: an operator, a closing parenthesis and the end
come only where an operand has just ended. `ended` says whether one has ended in front of the tokens. -/
def placed : (ended : Bool) → (tokens : List Token) → Bool
  | ended, [] => ended
  | ended, t :: ts =>
    match t.kind with
    | .operand _ => placed true ts
    | .operator _ => ended && placed false ts
    | .leftParen => placed false ts
    | .rightParen => ended && placed true ts

/-- Operands and operators take turns: an operand comes only where none has just ended. -/
inductive Alternates : (ended : Bool) → (tokens : List Token) → Prop where
  | done : Alternates true []
  | operand {o : Operand} {x : Text} {ts : List Token} : Alternates true ts →
      Alternates false (⟨.operand o, x⟩ :: ts)
  | operator {op : Operator} {x : Text} {ts : List Token} : Alternates false ts →
      Alternates true (⟨.operator op, x⟩ :: ts)
  | leftParen {x : Text} {ts : List Token} : Alternates false ts →
      Alternates false (⟨.leftParen, x⟩ :: ts)
  | rightParen {x : Text} {ts : List Token} : Alternates true ts →
      Alternates true (⟨.rightParen, x⟩ :: ts)

/-- The number of operands. -/
def operandCount (ts : List Token) : Nat := (ts.filterMap Token.operand?).length

/-- The number of operators. -/
def operatorCount (ts : List Token) : Nat := ts.countP Token.isOperator

theorem operandCount_cons (k : TokenKind) (x : Text) (ts : List Token) :
    operandCount (⟨k, x⟩ :: ts) =
      operandCount ts + (match k with | .operand _ => 1 | _ => 0) := by
  cases k <;> rfl

theorem operatorCount_cons (k : TokenKind) (x : Text) (ts : List Token) :
    operatorCount (⟨k, x⟩ :: ts) =
      operatorCount ts + (match k with | .operator _ => 1 | _ => 0) := by
  cases k <;> simp [operatorCount, List.countP_cons, Token.isOperator]

/-- Where operators stand between operands there are more operands than operators. -/
theorem operatorCount_lt_of_placed : ∀ {ts : List Token} {b : Bool}, placed b ts →
    operatorCount ts < operandCount ts + b.toNat
  | [], b, h => by
    obtain rfl : b = true := h
    decide
  | ⟨k, x⟩ :: ts, b, h => by
    rw [placed] at h
    rw [operandCount_cons, operatorCount_cons]
    cases k with
    | operand o =>
      have hlt : operatorCount ts < operandCount ts + 1 := operatorCount_lt_of_placed h
      show operatorCount ts < operandCount ts + 1 + b.toNat
      omega
    | operator op =>
      obtain ⟨rfl, h⟩ := Bool.and_eq_true_iff.mp h
      have hlt : operatorCount ts < operandCount ts := operatorCount_lt_of_placed h
      show operatorCount ts + 1 < operandCount ts + 1
      omega
    | leftParen =>
      have hlt : operatorCount ts < operandCount ts := operatorCount_lt_of_placed h
      show operatorCount ts < operandCount ts + b.toNat
      omega
    | rightParen =>
      obtain ⟨rfl, h⟩ := Bool.and_eq_true_iff.mp h
      exact operatorCount_lt_of_placed h

/-- **The counting keeps operands apart**: if there is only one operand more than there are operators,
none of them is left over. -/
theorem alternates_of_placed : ∀ {ts : List Token} {b : Bool}, placed b ts →
    operandCount ts + b.toNat = operatorCount ts + 1 → Alternates b ts
  | [], b, h, _ => by
    obtain rfl : b = true := h
    exact .done
  | ⟨k, x⟩ :: ts, b, h, hcount => by
    rw [placed] at h
    rw [operandCount_cons, operatorCount_cons] at hcount
    cases k with
    | operand o =>
      have hlt : operatorCount ts < operandCount ts + 1 := operatorCount_lt_of_placed h
      have hcount : operandCount ts + 1 + b.toNat = operatorCount ts + 1 := hcount
      obtain rfl : b = false := Bool.toNat_eq_zero.mp (by omega)
      exact .operand (alternates_of_placed h hcount)
    | operator op =>
      obtain ⟨rfl, h⟩ := Bool.and_eq_true_iff.mp h
      have hcount : operandCount ts + 1 = operatorCount ts + 1 + 1 := hcount
      exact .operator (alternates_of_placed h (Nat.succ.inj hcount))
    | leftParen =>
      have hlt : operatorCount ts < operandCount ts := operatorCount_lt_of_placed h
      have hcount : operandCount ts + b.toNat = operatorCount ts + 1 := hcount
      obtain rfl : b = false := Bool.toNat_eq_zero.mp (by omega)
      exact .leftParen (alternates_of_placed h hcount)
    | rightParen =>
      obtain ⟨rfl, h⟩ := Bool.and_eq_true_iff.mp h
      exact .rightParen (alternates_of_placed h hcount)

/-! ### Expressions from tokens that take turns -/

/-- The beginning of an expression: one as it stands if an operand has just ended, otherwise one as
soon as an operand or parentheses follow. -/
def Begins : (ended : Bool) → (tokens : List Token) → Prop
  | true, ts => ∃ e, IsExpression ts e
  | false, ts => ∀ us e, Infix 3 us e → ∃ e', IsExpression (ts ++ us) e'

theorem begins_nil : Begins false [] := fun _ e hus => ⟨e, hus.mono (by decide)⟩

/-- An expression is a product, or a sum that ends in one. -/
theorem IsExpression.product_or_sum {ts : List Token} {e : ExprTree} (h : IsExpression ts e) :
    Infix 2 ts e ∨ ∃ us vs l r op x, ts = us ++ ⟨.operator op, x⟩ :: vs ∧ op.precedence = 1 ∧
      IsExpression us l ∧ Infix 2 vs r := by
  obtain ⟨p, hp⟩ : ∃ p, p = 1 := ⟨1, rfl⟩
  unfold IsExpression at h
  rw [← hp] at h
  cases h with
  | operand => cases hp
  | parens => cases hp
  | binary op x hl hr =>
    rw [hp] at hl hr
    exact Or.inr ⟨_, _, _, _, op, x, rfl, hp, hl, hr⟩
  | looser h =>
    rw [hp] at h
    exact Or.inl h

theorem Begins.operator {ts : List Token} (h : Begins true ts) (op : Operator) (x : Text) :
    Begins false (ts ++ [⟨.operator op, x⟩]) := by
  obtain ⟨e, he⟩ := h
  intro us f hus
  rw [List.append_assoc, List.singleton_append]
  have hp := op.precedence_le
  by_cases hop : op.precedence = 1
  · have hsum := Infix.binary op x (he.mono hop.le) (hus.mono (by omega))
    exact ⟨_, hsum.mono hp.1⟩
  · -- a product takes only the last factors of a sum
    have hop : op.precedence = 2 := by omega
    rcases he.product_or_sum with he | ⟨as, bs, l, r, op', y, rfl, hop', hl, hr⟩
    · have hproduct := Infix.binary op x (he.mono hop.le) (hus.mono (by omega))
      exact ⟨_, hproduct.mono hp.1⟩
    · have hproduct := Infix.binary op x (hr.mono hop.le) (hus.mono (by omega))
      have hsum := Infix.binary op' y (hl.mono hop'.le) (hproduct.mono (by omega))
      rw [List.append_assoc, List.cons_append]
      exact ⟨_, hsum.mono op'.precedence_le.1⟩

/-- **Tokens that take turns** go on with a begun expression up to the first parenthesis that they
close without having opened it, and to the end if there is none. -/
theorem Alternates.exists_split : ∀ {ts : List Token} {b : Bool} {d : Nat}, Alternates b ts →
    Matched d ts → ∃ us rest, ts = us ++ rest ∧ (∀ w, Begins b w → Begins true (w ++ us)) ∧
      (d = 0 ∧ rest = [] ∨ ∃ d' x rest', d = d' + 1 ∧ rest = ⟨.rightParen, x⟩ :: rest' ∧
        Alternates true rest' ∧ Matched d' rest')
  | [], _, d, .done, hm =>
    ⟨[], [], rfl, fun w hw => by rwa [List.append_nil], Or.inl ⟨hm.eq.symm, rfl⟩⟩
  | ⟨.operand o, x⟩ :: ts, _, d, .operand h, hm => by
    obtain ⟨us, rest, rfl, hus, hrest⟩ := h.exists_split (hm.of_cons rfl)
    refine ⟨⟨.operand o, x⟩ :: us, rest, rfl, fun w hw => ?_, hrest⟩
    have := hus _ (hw _ _ (.operand o x))
    rwa [List.append_assoc] at this
  | ⟨.operator op, x⟩ :: ts, _, d, .operator h, hm => by
    obtain ⟨us, rest, rfl, hus, hrest⟩ := h.exists_split (hm.of_cons rfl)
    refine ⟨⟨.operator op, x⟩ :: us, rest, rfl, fun w hw => ?_, hrest⟩
    have := hus _ (hw.operator op x)
    rwa [List.append_assoc] at this
  | ⟨.leftParen, x⟩ :: ts, _, d, .leftParen h, hm => by
    -- what stands between the parentheses comes first, and then what follows the closing one
    have hopened : Matched (d + 1) ts := hm.of_cons rfl
    obtain ⟨us, rest, hts, hus, hrest⟩ := h.exists_split hopened
    rcases hrest with ⟨hd, -⟩ | ⟨d', y, rest', hd, rfl, halt, hm'⟩
    · cases hd
    · obtain rfl : d = d' := Nat.succ.inj hd
      have hlt : rest'.length < ts.length := by simp [hts]; omega
      obtain ⟨vs, rest, hrest', hvs, hrest⟩ := halt.exists_split hm'
      obtain ⟨e, he⟩ := hus [] begins_nil
      refine ⟨⟨.leftParen, x⟩ :: us ++ ⟨.rightParen, y⟩ :: vs, rest, ?_, fun w hw => ?_, hrest⟩
      · simp [hts, hrest']
      · have := hvs _ (hw _ _ (.parens x y he))
        simpa using this
  | ⟨.rightParen, x⟩ :: ts, _, d, .rightParen h, hm => by
    obtain ⟨d', hd, hm'⟩ := hm.exists_of_rightParen
    exact ⟨[], _, rfl, fun w hw => by rwa [List.append_nil],
      Or.inr ⟨d', x, ts, hd, rfl, h, hm'⟩⟩
termination_by ts => ts.length

theorem Alternates.exists_isExpression {ts : List Token} (h : Alternates false ts)
    (hm : Matched 0 ts) : ∃ e, IsExpression ts e := by
  obtain ⟨us, rest, rfl, hus, ⟨-, rfl⟩ | ⟨d', _, _, hd, -⟩⟩ := h.exists_split hm
  · simpa [Begins] using hus [] begins_nil
  · cases hd

/-- In an expression operators stand between operands. -/
theorem Infix.placed_append {p : Nat} {ts : List Token} {e : ExprTree} (h : Infix p ts e) :
    ∀ {rest : List Token} (b : Bool), placed true rest → placed b (ts ++ rest) := by
  induction h with
  | operand o x => exact fun b hrest => hrest
  | parens x y _ ih =>
    intro rest b hrest
    have hclose : placed true (⟨.rightParen, y⟩ :: rest) := hrest
    simpa [placed] using ih false hclose
  | binary op x _ _ ihl ihr =>
    intro rest b hrest
    have hop := ihr false hrest
    rw [List.append_assoc]
    exact ihl b hop
  | looser _ ih => exact ih

theorem placed_of_isExpression {ts : List Token} {e : ExprTree} (h : IsExpression ts e) :
    placed false ts := by
  have hend : placed true [] := rfl
  have := Infix.placed_append h false hend
  rwa [List.append_nil] at this

/-! ### What has a value -/

namespace ExprTree

theorem filterMap_postorder (e : ExprTree) :
    e.postorder.filterMap Token.operand? = e.operands := by
  induction e with
  | leaf o x => rfl
  | node op x l r ihl ihr =>
    rw [postorder, List.filterMap_append, List.filterMap_append, ihl, ihr, operands]
    exact List.append_nil _

theorem length_operands (e : ExprTree) :
    e.operands.length = operatorCount e.postorder + 1 := by
  induction e with
  | leaf o x => rfl
  | node op x l r ihl ihr =>
    have hcount : operatorCount (postorder (.node op x l r)) =
        operatorCount l.postorder + operatorCount r.postorder + 1 := by
      rw [postorder, operatorCount, List.countP_append, List.countP_append]
      rfl
    rw [operands, List.length_append, ihl, ihr, hcount]
    omega

end ExprTree

/-- The tokens that have the postorder of a tree as their postfix order: as many operands and
operators as the tree has, and matching parentheses. -/
theorem count_of_ofInfix {ts : List Token} {e : ExprTree} (h : ofInfix ts = .ok e.postorder) :
    Matched 0 ts ∧ operandCount ts = operatorCount ts + 1 ∧
      ts.filterMap Token.operand? = e.operands := by
  have harr : Arranges ts [] e.postorder := arrange_eq_ok_iff.mp h
  have hoperands := harr.filterMap_operand? (by simp)
  have hoperators := harr.countP_isOperator
  rw [e.filterMap_postorder] at hoperands
  have hlen := e.length_operands
  rw [operatorCount, hoperators, hoperands] at hlen
  exact ⟨harr.matched, hlen, hoperands.symm⟩

/-- **The shape of an expression**: of the tokens that have the postorder of a tree as their postfix
order, those are an expression whose operators stand between operands. -/
theorem placed_iff_isExpression {ts : List Token} {e : ExprTree}
    (h : ofInfix ts = .ok e.postorder) : placed false ts ↔ IsExpression ts e := by
  constructor
  · intro hplaced
    obtain ⟨hmatched, hcount, -⟩ := count_of_ofInfix h
    obtain ⟨e', he'⟩ := (alternates_of_placed hplaced hcount).exists_isExpression hmatched
    have hsame := (ofInfix_of_isExpression he').symm.trans h
    rwa [ExprTree.postorder_inj (Except.ok.inj hsame)] at he'
  · exact placed_of_isExpression

/-- **What has a value has the operands of a tree**, and one more of them than operators, and its value
is that of the tree; it is an expression if and only if its operators stand between operands. The same
holds when empty pairs of parentheses are left out, and the tree stays the same. -/
theorem evaluate_shape {σ : Type} [WordSource σ] {limits : Limits} {s : Text} {out : Outcome}
    {g g' : σ} (h : (evaluate limits s).Yields g out g') :
    ∃ ts e, IsCut s ts ∧ Matched 0 ts ∧ operandCount ts = operatorCount ts + 1 ∧
      ts.filterMap Token.operand? = e.operands ∧ (e.eval).Yields g out g' ∧
      (placed false ts ↔ IsExpression ts e) ∧
      (placed false (withoutEmptyPairs ts) ↔ IsExpression (withoutEmptyPairs ts) e) := by
  obtain ⟨p, hp, hrun⟩ := yields_evaluate_iff.mp h
  obtain ⟨ts, hcut, -, harr⟩ := parse_eq_ok_iff.mp hp
  obtain ⟨e, rfl⟩ := Machine.exists_postorder_of_yields hrun
  have hpost : ofInfix ts = .ok e.postorder := harr.arrange_eq
  have hpairs : ofInfix (withoutEmptyPairs ts) = .ok e.postorder :=
    (arrange_withoutEmptyPairs ts []).trans hpost
  obtain ⟨hmatched, hcount, hoperands⟩ := count_of_ofInfix hpost
  rw [Machine.evaluate_postorder] at hrun
  exact ⟨ts, e, hcut, hmatched, hcount, hoperands, hrun, placed_iff_isExpression hpost,
    placed_iff_isExpression hpairs⟩

/-- An empty pair between an operand and an operator: without it the tokens are a difference. -/
theorem evaluate_shape_emptyPair :
    (evaluate ⟨none, none⟩ "1d4()-2".toList).Yields (⟨[0, 7]⟩ : Script)
        ⟨-1, [⟨"1d4".toList, [1]⟩]⟩ ⟨[7]⟩ ∧
      ∃ e, IsExpression (withoutEmptyPairs (Lexer.tokens "1d4()-2".toList)) e ∧
        e.eval.Yields (⟨[0, 7]⟩ : Script) ⟨-1, [⟨"1d4".toList, [1]⟩]⟩ ⟨[7]⟩ := by
  have hyields : (evaluate ⟨none, none⟩ "1d4()-2".toList).Yields (⟨[0, 7]⟩ : Script)
      ⟨-1, [⟨"1d4".toList, [1]⟩]⟩ ⟨[7]⟩ := by
    unfold Rolling.Yields
    decide +kernel
  obtain ⟨ts, e, hcut, -, -, -, heval, -, hshape⟩ := evaluate_shape hyields
  have hplaced : placed false (withoutEmptyPairs (Lexer.tokens "1d4()-2".toList)) := by decide +kernel
  rw [← hcut.tokens_eq] at hshape
  exact ⟨hyields, e, hshape.mp hplaced, heval⟩

/-- An operator behind its operands, and an empty pair: neither text is an expression, yet both have a
value. -/
theorem yields_of_not_isExpression :
    ((evaluate ⟨none, none⟩ "1 1 +".toList).Yields (⟨[]⟩ : Script) ⟨2, []⟩ ⟨[]⟩ ∧
      ¬∃ ts e, IsCut "1 1 +".toList ts ∧ IsExpression ts e) ∧
    ((evaluate ⟨none, none⟩ "()1".toList).Yields (⟨[]⟩ : Script) ⟨1, []⟩ ⟨[]⟩ ∧
      ¬∃ ts e, IsCut "()1".toList ts ∧ IsExpression ts e) := by
  have hno : ∀ {s : Text}, placed false (Lexer.tokens s) = false →
      ¬∃ ts e, IsCut s ts ∧ IsExpression ts e := by
    rintro s hs ⟨ts, e, hcut, he⟩
    have hplaced := placed_of_isExpression he
    rw [← hcut.tokens_eq, hs] at hplaced
    cases hplaced
  refine ⟨⟨?_, hno (by decide +kernel)⟩, ?_, hno (by decide +kernel)⟩
  · unfold Rolling.Yields
    decide +kernel
  · unfold Rolling.Yields
    decide +kernel

end DiceBot
