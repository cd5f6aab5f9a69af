import DiceBot.Proofs.Expr.Parsing
import DiceBot.Proofs.Expr.Stack

/-! # The meaning of an expression

`Writes s e` says that the text `s` is one way to write the tree `e`: with parentheses at least where
the precedence of the operators or their grouping to the left asks for them, with blanks between the
tokens and zeros in front of numbers. Every tree whose numbers are in range can be written
(`exists_writes_iff`). However it is written, it is evaluated as the tree is: left operand, right
operand, operator, with the same records, the same first error and the same words drawn
(`evaluate_eq_eval`). -/

namespace DiceBot

/-- The text is an expression with this tree. -/
def Writes (s : Text) (e : ExprTree) : Prop := ∃ ts, IsCut s ts ∧ IsExpression ts e

/-! ### Every tree can be written -/

namespace ExprTree

/-- The tokens of the tree, each with a text that spells it. -/
def Spelled : ExprTree → Prop
  | leaf o x => Spells (.operand o) x
  | node op x l r => Spells (.operator op) x ∧ l.Spelled ∧ r.Spelled

/-- The tree in infix order, with parentheses around both operands of every operator. -/
def bracketed : ExprTree → List Token
  | leaf o x => [⟨.operand o, x⟩]
  | node op x l r =>
    ⟨.leftParen, ['(']⟩ :: l.bracketed ++ [⟨.rightParen, [')']⟩] ++
      ⟨.operator op, x⟩ :: (⟨.leftParen, ['(']⟩ :: r.bracketed ++ [⟨.rightParen, [')']⟩])

end ExprTree

theorem Infix.mono {p q : Nat} {ts : List Token} {e : ExprTree} (h : Infix p ts e) (hqp : q ≤ p) :
    Infix q ts e := by
  induction p with
  | zero => rwa [Nat.le_zero.mp hqp]
  | succ p ih =>
    rcases Nat.lt_or_ge p q with hpq | hpq
    · rwa [show q = p + 1 by omega]
    · exact ih (.looser h) hpq

theorem Operator.precedence_le (op : Operator) : 1 ≤ op.precedence ∧ op.precedence ≤ 2 := by
  cases op <;> decide

theorem isExpression_bracketed (e : ExprTree) : IsExpression e.bracketed e := by
  induction e with
  | leaf o x => exact (Infix.operand o x).mono (by decide)
  | node op x l r ihl ihr =>
    have hp := op.precedence_le
    have hl := (Infix.parens ['('] [')'] ihl).mono (show op.precedence ≤ 3 by omega)
    have hr := (Infix.parens ['('] [')'] ihr).mono (show op.precedence + 1 ≤ 3 by omega)
    exact (Infix.binary op x hl hr).mono hp.1

theorem ExprTree.Spelled.of_mem_bracketed {e : ExprTree} (he : e.Spelled) :
    ∀ t ∈ e.bracketed, Spells t.kind t.text := by
  induction e with
  | leaf o x =>
    intro t ht
    obtain rfl := List.mem_singleton.mp ht
    exact he
  | node op x l r ihl ihr =>
    obtain ⟨hop, hl, hr⟩ := he
    intro t ht
    simp only [bracketed, List.mem_append, List.mem_cons, List.not_mem_nil, or_false] at ht
    rcases ht with ((rfl | ht) | rfl) | rfl | (rfl | ht) | rfl
    · exact .leftParen
    · exact ihl hl t ht
    · exact .rightParen
    · exact hop
    · exact .leftParen
    · exact ihr hr t ht
    · exact .rightParen

/-- Spellings with a space behind each of them are cut where the spaces are. -/
theorem isCut_spaced : ∀ {ts : List Token}, (∀ t ∈ ts, Spells t.kind t.text) →
    IsCut (ts.flatMap fun t => t.text ++ [' ']) ts
  | [], _ => .nil
  | t :: ts, h => by
    have hrest := isCut_spaced fun u hu => h u (List.mem_cons_of_mem _ hu)
    rw [List.flatMap_cons, List.append_assoc, List.singleton_append]
    exact .token (h t List.mem_cons_self) (fun hd => by cases hd.2) (.blank (by decide) hrest)

theorem IsCut.spells {s : Text} {ts : List Token} (h : IsCut s ts) :
    ∀ t ∈ ts, Spells t.kind t.text := by
  induction h with
  | nil => simp
  | blank _ _ ih => exact ih
  | token hx _ _ ih =>
    intro t ht
    rcases List.mem_cons.mp ht with rfl | ht
    · exact hx
    · exact ih t ht

theorem Infix.spelled {p : Nat} {ts : List Token} {e : ExprTree} (h : Infix p ts e) :
    (∀ t ∈ ts, Spells t.kind t.text) → e.Spelled := by
  induction h with
  | operand o x => exact fun hts => hts _ List.mem_cons_self
  | parens x y _ ih =>
    exact fun hts => ih fun t ht => hts t (by simp [ht])
  | binary op x _ _ ihl ihr =>
    intro hts
    exact ⟨hts ⟨.operator op, x⟩ (by simp), ihl fun t ht => hts t (by simp [ht]),
      ihr fun t ht => hts t (by simp [ht])⟩
  | looser _ ih => exact ih

/-- **The trees that can be written** are those whose operands can be spelled. -/
theorem exists_writes_iff {e : ExprTree} : (∃ s, Writes s e) ↔ e.Spelled := by
  constructor
  · rintro ⟨s, ts, hcut, he⟩
    exact Infix.spelled he hcut.spells
  · intro he
    exact ⟨_, _, isCut_spaced he.of_mem_bracketed, isExpression_bracketed e⟩

/-! ### Evaluation -/

/-- The dice terms of an expression are those of its tree. -/
theorem IsExpression.allowsAll {ts : List Token} {e : ExprTree} (h : IsExpression ts e)
    {limits : Limits} (hl : ∀ t x, (.dice t, x) ∈ e.operands → limits.Allows t) :
    limits.AllowsAll ts := by
  intro t ht term hk
  refine hl term t.text ?_
  rw [← Infix.filterMap_operand h]
  exact List.mem_filterMap.mpr ⟨t, ht, by rw [hk]⟩

/-- **An expression means what its tree means**: its value, the records of its dice, the error that comes
first and the words that are drawn are those of the tree. -/
theorem evaluate_eq_eval {σ : Type} [WordSource σ] {limits : Limits} {s : Text} {e : ExprTree}
    (hw : Writes s e) (hl : ∀ t x, (.dice t, x) ∈ e.operands → limits.Allows t) :
    (evaluate limits s : Rolling σ Outcome) = e.eval := by
  obtain ⟨ts, hcut, he⟩ := hw
  have harr := Postfix.arrange_eq_ok_iff.mp (Postfix.ofInfix_of_isExpression he)
  have hparse : parse limits s = .ok e.postorder :=
    parse_eq_ok_iff.mpr ⟨ts, hcut, he.allowsAll hl, harr⟩
  calc (evaluate limits s : Rolling σ Outcome)
      = (do let p ← Rolling.ofExcept (.ok e.postorder); Machine.evaluate p) := by
        rw [evaluate, hparse]
    _ = Machine.evaluate e.postorder := pure_bind _ _
    _ = e.eval := Machine.evaluate_postorder e

/-- The product binds tighter than the difference, and `03` stands in parentheses it does not need. The
quotient is negative: `-5` divided by `3`, truncated toward zero. -/
theorem evaluate_eq_eval_quotient :
    let product : ExprTree := .node .mul ['*'] (.leaf (.dice ⟨2, 6, .highest⟩) "2d6!".toList)
      (.leaf (.integer 3) "03".toList)
    let difference : ExprTree := .node .sub ['-'] (.leaf (.integer 10) "10".toList) product
    let e : ExprTree := .node .div ['/'] difference (.leaf (.integer 3) "3".toList)
    Writes "(10 -2d6!*(03))/ 3".toList e ∧
      (∀ t x, (.dice t, x) ∈ e.operands → Limits.Allows ⟨some 2, some 6⟩ t) ∧
      (evaluate ⟨some 2, some 6⟩ "(10 -2d6!*(03))/ 3".toList : Rolling Script Outcome) = e.eval ∧
      (evaluate ⟨some 2, some 6⟩ "(10 -2d6!*(03))/ 3".toList).run (⟨[0x60000000, 0xB0000000]⟩ : Script) =
        some (.ok ⟨-1, [⟨"2d6!".toList, [3, 5]⟩]⟩, ⟨[]⟩) := by
  intro product difference e
  have hproduct := Infix.binary .mul ['*']
    ((Infix.operand (.dice ⟨2, 6, .highest⟩) "2d6!".toList).mono (show 2 ≤ 3 by decide))
    (Infix.parens ['('] [')'] ((Infix.operand (.integer 3) "03".toList).mono (by decide)))
  have hdifference := Infix.binary .sub ['-']
    ((Infix.operand (.integer 10) "10".toList).mono (show 1 ≤ 3 by decide)) hproduct
  have hquotient := Infix.binary .div ['/']
    ((Infix.parens ['('] [')'] hdifference).mono (show 2 ≤ 3 by decide))
    (Infix.operand (.integer 3) "3".toList)
  have hw : Writes "(10 -2d6!*(03))/ 3".toList e :=
    ⟨_, isCut_iff.mpr ⟨by decide +kernel, by decide +kernel⟩, hquotient.mono (by decide)⟩
  have hl : ∀ t x, (.dice t, x) ∈ e.operands → Limits.Allows ⟨some 2, some 6⟩ t := by
    simp [e, difference, product, ExprTree.operands, Limits.Allows]
  have heval := evaluate_eq_eval (σ := Script) hw hl
  refine ⟨hw, hl, heval, ?_⟩
  rw [heval]
  decide +kernel

end DiceBot
