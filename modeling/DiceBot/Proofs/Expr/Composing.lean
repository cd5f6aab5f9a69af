import DiceBot.Proofs.Expr.Locality
import DiceBot.Proofs.Expr.Meaning

/-! # Texts put together

What is parsed on its own is parsed alike between parentheses: the operators that wait above an opening
parenthesis are released as they are above nothing (`Postfix.Arranges.parens`). So a text between
parentheses is evaluated as it is alone, and two texts between parentheses with an operator between them
are evaluated one after the other and then combined (`evaluate_composed`). This holds of every text that
is parsed, whether it is a proper expression or not. -/

namespace DiceBot

/-- The text between parentheses. -/
def inParens (s : Text) : Text := '(' :: s ++ [')']

/-! ### Tokens -/

/-- The tokens between parentheses. -/
def Token.inParens (ts : List Token) : List Token :=
  ⟨.leftParen, ['(']⟩ :: ts ++ [⟨.rightParen, [')']⟩]

/-- A text in parentheses that is followed by another is cut between them. -/
theorem isCut_inParens_append {s rest : Text} {ts us : List Token} (hs : IsCut s ts)
    (hrest : IsCut rest us) : IsCut (inParens s ++ rest) (Token.inParens ts ++ us) := by
  have hparted : Parted s (')' :: rest) := by
    rintro c - d ⟨⟩
    exact Or.inr (by decide)
  have hclose : IsCut (')' :: rest) (⟨.rightParen, [')']⟩ :: us) :=
    .token (x := [')']) .rightParen (fun h => by cases h.1) hrest
  have hinner : IsCut (s ++ ')' :: rest) (ts ++ ⟨.rightParen, [')']⟩ :: us) :=
    (isCut_append_iff hparted).mpr ⟨_, _, rfl, hs, hclose⟩
  have hopen := IsCut.token (x := ['(']) .leftParen (fun h => by cases h.1) hinner
  simpa [inParens, Token.inParens] using hopen

/-! ### Order -/

namespace Postfix

/-- What comes behind a closing parenthesis is arranged with what waits below the opening one. -/
theorem Arranges.close {ts S p : List Token} (h : Arranges ts S p) (x y : Text)
    {rest T q : List Token} (hrest : Arranges rest T q) :
    Arranges (ts ++ ⟨.rightParen, y⟩ :: rest) (S ++ ⟨.leftParen, x⟩ :: T) (p ++ q) := by
  induction h with
  | done hS => exact .rightParen hS hrest
  | operand _ ih => exact .operand ih
  | @operator op _ _ ws S _ hws hS _ ih =>
    -- the opening parenthesis is no operator, so it holds where nothing does
    have hholds : Holds op.precedence (S ++ ⟨.leftParen, x⟩ :: T) := by
      cases S with
      | nil => exact holds_cons rfl
      | cons w S => exact hS
    rw [List.append_assoc, List.append_assoc]
    exact .operator hws hholds ih
  | leftParen _ ih => exact .leftParen ih
  | rightParen hws _ ih =>
    rw [List.append_assoc, List.append_assoc]
    exact .rightParen hws ih

/-- **Parentheses separate**: the tokens between them are arranged as they are alone. -/
theorem Arranges.parens {ts p rest T q : List Token} (h : Arranges ts [] p) (hrest : Arranges rest T q) :
    Arranges (Token.inParens ts ++ rest) T (p ++ q) := by
  have := Arranges.leftParen (h.close ['('] [')'] hrest)
  simpa [Token.inParens] using this

end Postfix

/-! ### Texts -/

/-- Parentheses are within all limits. -/
theorem Limits.AllowsAll.inParens_append {l : Limits} {ts us : List Token} (hts : l.AllowsAll ts)
    (hus : l.AllowsAll us) : l.AllowsAll (Token.inParens ts ++ us) := by
  intro t ht term hk
  simp only [Token.inParens, List.mem_append, List.mem_cons, List.not_mem_nil, or_false] at ht
  rcases ht with ((rfl | ht) | rfl) | ht
  · cases hk
  · exact hts t ht term hk
  · cases hk
  · exact hus t ht term hk

section Evaluate

variable {σ : Type} [WordSource σ] {limits : Limits} {x y : Text} {p q : List Token}

/-- A text in parentheses is parsed as it is alone. -/
theorem parse_inParens (hx : parse limits x = .ok p) : parse limits (inParens x) = .ok p := by
  obtain ⟨ts, hcut, hlimits, harr⟩ := parse_eq_ok_iff.mp hx
  have hcut' := isCut_inParens_append hcut .nil
  have hlimits' := Limits.AllowsAll.inParens_append hlimits (List.forall_mem_nil _)
  have harr' := harr.parens (.done (List.forall_mem_nil _))
  simp only [List.append_nil] at hcut' hlimits' harr'
  exact parse_eq_ok_iff.mpr ⟨_, hcut', hlimits', harr'⟩

/-- Of two texts in parentheses with an operator between them, the operator comes last. -/
theorem parse_operation (hx : parse limits x = .ok p) (hy : parse limits y = .ok q) (op : Operator) :
    parse limits (inParens x ++ op.symbol :: inParens y) =
      .ok (p ++ (q ++ [⟨.operator op, [op.symbol]⟩])) := by
  obtain ⟨ts, hcutx, hlimitsx, harrx⟩ := parse_eq_ok_iff.mp hx
  obtain ⟨us, hcuty, hlimitsy, harry⟩ := parse_eq_ok_iff.mp hy
  have hcut := isCut_inParens_append hcuty .nil
  have hlimits := Limits.AllowsAll.inParens_append hlimitsy (List.forall_mem_nil _)
  rw [List.append_nil] at hcut
  -- the operator waits below the second pair of parentheses
  have hwait : Postfix.Arranges [] [⟨.operator op, [op.symbol]⟩] [⟨.operator op, [op.symbol]⟩] :=
    .done (List.forall_mem_singleton.mpr rfl)
  have harr := @Postfix.Arranges.operator op [op.symbol] _ [] [] _ (List.forall_mem_nil _)
    (fun _ hw => by cases hw) (harry.parens hwait)
  have hop : IsCut (op.symbol :: inParens y) (⟨.operator op, [op.symbol]⟩ :: _) :=
    .token (x := [op.symbol]) (.operator op) (fun h => by cases h.2) hcut
  have hopLimits : limits.AllowsAll (⟨.operator op, [op.symbol]⟩ :: (Token.inParens us ++ [])) :=
    fun t ht term hk => by
      rcases List.mem_cons.mp ht with rfl | ht
      · cases hk
      · exact hlimits t ht term hk
  exact parse_eq_ok_iff.mpr ⟨_, isCut_inParens_append hcutx hop,
    Limits.AllowsAll.inParens_append hlimitsx hopLimits, harrx.parens harr⟩

/-- **The evaluation of a composed text.** A text that is parsed has the same end in parentheses, with
the same words drawn. If one text has a value and another has one when it goes on with the words that the
first has left, then both in parentheses with an operator between them have the value that the operator
gives, and the records of both, or fail as the operator does; and the same words are left. -/
theorem evaluate_composed (limits : Limits) :
    (∀ x p, parse limits x = .ok p →
      (evaluate limits (inParens x) : Rolling σ Outcome) = evaluate limits x) ∧
    ∀ (x y : Text) (op : Operator) (a b : Outcome) (g₀ g₁ g₂ : σ),
      (evaluate limits x).Yields g₀ a g₁ → (evaluate limits y).Yields g₁ b g₂ →
      (evaluate limits (inParens x ++ op.symbol :: inParens y)).run g₀ =
        some ((op.apply a.value b.value).map fun c => ⟨c, a.rolls ++ b.rolls⟩, g₂) := by
  refine ⟨fun x p hx => ?_, fun x y op a b g₀ g₁ g₂ ha hb => ?_⟩
  · unfold evaluate
    rw [hx, parse_inParens hx]
  · obtain ⟨p, hx, ha⟩ := yields_evaluate_iff.mp ha
    obtain ⟨q, hy, hb⟩ := yields_evaluate_iff.mp hb
    obtain ⟨l, rfl⟩ := Machine.exists_postorder_of_yields ha
    obtain ⟨r, rfl⟩ := Machine.exists_postorder_of_yields hb
    rw [Machine.evaluate_postorder] at ha hb
    have hpost : l.postorder ++ (r.postorder ++ [⟨.operator op, [op.symbol]⟩]) =
        (ExprTree.node op [op.symbol] l r).postorder := by
      rw [ExprTree.postorder, List.append_assoc]
    unfold evaluate
    rw [parse_operation hx hy op, Rolling.ofExcept_ok, pure_bind, hpost, Machine.evaluate_postorder,
      ExprTree.eval, ha.run_bind, hb.run_bind]
    cases op.apply a.value b.value <;> rfl

/-- A text that is no proper expression in front of a division, by a die that shows a two. -/
theorem evaluate_composed_quotient :
    ((evaluate ⟨none, none⟩ "7 1d2 -".toList).Yields (⟨[0, 0x80000000]⟩ : Script)
        ⟨6, [⟨"1d2".toList, [1]⟩]⟩ ⟨[0x80000000]⟩ ∧
      (evaluate ⟨none, none⟩ "1d2".toList).Yields (⟨[0x80000000]⟩ : Script)
        ⟨2, [⟨"1d2".toList, [2]⟩]⟩ ⟨[]⟩) ∧
    (evaluate ⟨none, none⟩ "(7 1d2 -)/(1d2)".toList).run (⟨[0, 0x80000000]⟩ : Script) =
        some (.ok ⟨3, [⟨"1d2".toList, [1]⟩, ⟨"1d2".toList, [2]⟩]⟩, ⟨[]⟩) := by
  have hx : (evaluate ⟨none, none⟩ "7 1d2 -".toList).Yields (⟨[0, 0x80000000]⟩ : Script)
      ⟨6, [⟨"1d2".toList, [1]⟩]⟩ ⟨[0x80000000]⟩ := by
    unfold Rolling.Yields
    decide +kernel
  have hy : (evaluate ⟨none, none⟩ "1d2".toList).Yields (⟨[0x80000000]⟩ : Script)
      ⟨2, [⟨"1d2".toList, [2]⟩]⟩ ⟨[]⟩ := by
    unfold Rolling.Yields
    decide +kernel
  have htext : inParens "7 1d2 -".toList ++ Operator.div.symbol :: inParens "1d2".toList =
      "(7 1d2 -)/(1d2)".toList := by decide
  have hrun := (evaluate_composed ⟨none, none⟩).2 _ _ .div _ _ _ _ _ hx hy
  rw [htext] at hrun
  exact ⟨⟨hx, hy⟩, hrun⟩

end Evaluate

end DiceBot
