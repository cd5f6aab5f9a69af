import DiceBot.Expr.Infix
import DiceBot.Expr.Postfix
import DiceBot.Proofs.Result

/-! # The postfix order

`Arranges ts S p` says that `p` is the postfix order of the tokens `ts` while the tokens of `S` wait;
it has one rule for each kind of token, and `arrange` computes it (`arrange_eq_ok_iff`). Of an infix
expression every token is put in its place but for the operators that still wait when it ends, all of
which bind at least as tightly as the expression (`Infix.arrange_append`); so the postfix order of a whole
expression is the postorder of its tree (`ofInfix_of_isExpression`). Of any tokens, well formed or not,
the postfix order has the same operands in the same order (`Arranges.filterMap_operand?`) and the same
operators (`Arranges.countP_isOperator`), and the parentheses match (`Arranges.matched`). -/

namespace DiceBot

namespace Token

/-- The operand of a token and the text it was typed as. -/
def operand? (t : Token) : Option (Operand × Text) :=
  match t.kind with
  | .operand o => some (o, t.text)
  | _ => none

/-- Whether a token is an operator. -/
def isOperator (t : Token) : Bool :=
  match t.kind with
  | .operator _ => true
  | _ => false

/-- Whether a token closes a parenthesis. -/
def isClosing (t : Token) : Bool := t.kind = .rightParen

/-- Whether a token is a parenthesis. -/
def isParen (t : Token) : Bool := Postfix.isOpening t || t.isClosing

end Token

namespace Postfix

/-! ### Waiting tokens -/

theorem yields_mono {p q : Nat} (hpq : p ≤ q) {w : Token} (h : yields q w) : yields p w := by
  unfold yields at h ⊢
  split at h
  · next op hop =>
    simp only [decide_eq_true_eq] at h ⊢
    omega
  · cases h

theorem exists_operator_of_yields {p : Nat} {w : Token} (h : yields p w) :
    ∃ op, w.kind = .operator op := by
  unfold yields at h
  split at h
  · next op hop => exact ⟨op, hop⟩
  · cases h

theorem isOpening_of_yields {p : Nat} {w : Token} (h : yields p w) : isOpening w = false := by
  obtain ⟨op, hop⟩ := exists_operator_of_yields h
  simp [isOpening, hop]

/-- An operator of this precedence releases none of the waiting tokens. -/
def Holds (p : Nat) (S : List Token) : Prop := ∀ w ∈ S.head?, yields p w = false

theorem Holds.mono {p q : Nat} {S : List Token} (hpq : p ≤ q) (h : Holds p S) : Holds q S := by
  intro w hw
  have hp := h w hw
  rw [Bool.eq_false_iff] at hp ⊢
  exact fun hq => hp (yields_mono hpq hq)

theorem holds_cons {p : Nat} {w : Token} {S : List Token} (h : yields p w = false) :
    Holds p (w :: S) := by
  intro v hv
  cases hv
  exact h

theorem released_append {p : Nat} {ws S : List Token} (hw : ∀ w ∈ ws, yields p w) (hS : Holds p S) :
    released p (ws ++ S) = ws := by
  rw [released, List.takeWhile_append_of_pos hw]
  cases S with
  | nil => simp
  | cons v S => simp [hS v rfl]

theorem kept_append {p : Nat} {ws S : List Token} (hw : ∀ w ∈ ws, yields p w) (hS : Holds p S) :
    kept p (ws ++ S) = S := by
  rw [kept, List.dropWhile_append_of_pos hw]
  cases S with
  | nil => rfl
  | cons v S => simp [hS v rfl]

/-- The waiting tokens are those that are released and those that are kept. -/
theorem exists_released_kept (p : Nat) (S : List Token) :
    ∃ ws S', S = ws ++ S' ∧ (∀ w ∈ ws, yields p w) ∧ Holds p S' := by
  induction S with
  | nil => exact ⟨[], [], rfl, by simp, by simp [Holds]⟩
  | cons w S ih =>
    by_cases hw : yields p w
    · obtain ⟨ws, S', rfl, hws, hS'⟩ := ih
      refine ⟨w :: ws, S', rfl, fun v hv => ?_, hS'⟩
      rcases List.mem_cons.mp hv with rfl | hv
      · exact hw
      · exact hws v hv
    · exact ⟨[], w :: S, rfl, by simp, holds_cons (by simpa using hw)⟩

/-- Among the waiting tokens there is a latest opening parenthesis, or there is none. -/
theorem exists_opening (S : List Token) :
    (∀ w ∈ S, isOpening w = false) ∨
      ∃ ws x S', S = ws ++ ⟨.leftParen, x⟩ :: S' ∧ ∀ w ∈ ws, isOpening w = false := by
  induction S with
  | nil => exact Or.inl (by simp)
  | cons w S ih =>
    by_cases hw : w.kind = .leftParen
    · obtain ⟨k, x⟩ := w
      obtain rfl : k = .leftParen := hw
      exact Or.inr ⟨[], x, S, rfl, by simp⟩
    · have hw' : isOpening w = false := by simp [isOpening, hw]
      rcases ih with hS | ⟨ws, x, S', rfl, hws⟩
      · exact Or.inl (by simpa [hw'] using hS)
      · exact Or.inr ⟨w :: ws, x, S', rfl, by simpa [hw'] using hws⟩

/-! ### The rules -/

/-- The postfix order of tokens while others wait. -/
inductive Arranges : (tokens stack order : List Token) → Prop where
  | done {S : List Token} : (∀ w ∈ S, isOpening w = false) → Arranges [] S S
  | operand {o : Operand} {x : Text} {ts S p : List Token} : Arranges ts S p →
      Arranges (⟨.operand o, x⟩ :: ts) S (⟨.operand o, x⟩ :: p)
  | operator {op : Operator} {x : Text} {ts ws S p : List Token} :
      (∀ w ∈ ws, yields op.precedence w) → Holds op.precedence S →
      Arranges ts (⟨.operator op, x⟩ :: S) p → Arranges (⟨.operator op, x⟩ :: ts) (ws ++ S) (ws ++ p)
  | leftParen {x : Text} {ts S p : List Token} : Arranges ts (⟨.leftParen, x⟩ :: S) p →
      Arranges (⟨.leftParen, x⟩ :: ts) S p
  | rightParen {x y : Text} {ts ws S p : List Token} : (∀ w ∈ ws, isOpening w = false) →
      Arranges ts S p → Arranges (⟨.rightParen, y⟩ :: ts) (ws ++ ⟨.leftParen, x⟩ :: S) (ws ++ p)

theorem arrange_operand (o : Operand) (x : Text) (ts S : List Token) :
    arrange (⟨.operand o, x⟩ :: ts) S = (arrange ts S).map (⟨.operand o, x⟩ :: ·) := by
  rw [arrange]
  cases arrange ts S <;> rfl

theorem arrange_operator {op : Operator} {ws S : List Token} (x : Text) (ts : List Token)
    (hws : ∀ w ∈ ws, yields op.precedence w) (hS : Holds op.precedence S) :
    arrange (⟨.operator op, x⟩ :: ts) (ws ++ S) =
      (arrange ts (⟨.operator op, x⟩ :: S)).map (ws ++ ·) := by
  simp only [arrange, released_append hws hS, kept_append hws hS]
  cases arrange ts (⟨.operator op, x⟩ :: S) <;> rfl

theorem arrange_leftParen (x : Text) (ts S : List Token) :
    arrange (⟨.leftParen, x⟩ :: ts) S = arrange ts (⟨.leftParen, x⟩ :: S) := by
  rw [arrange]

theorem arrange_rightParen {ws : List Token} (x y : Text) (ts S : List Token)
    (hws : ∀ w ∈ ws, isOpening w = false) :
    arrange (⟨.rightParen, y⟩ :: ts) (ws ++ ⟨.leftParen, x⟩ :: S) =
      (arrange ts S).map (ws ++ ·) := by
  have hws' : ∀ w ∈ ws, (!isOpening w) = true := fun w hw => by rw [hws w hw]; rfl
  have hopen : (!isOpening ⟨.leftParen, x⟩) = false := rfl
  simp only [arrange, List.dropWhile_append_of_pos hws', List.takeWhile_append_of_pos hws',
    List.dropWhile_cons, List.takeWhile_cons, hopen, Bool.false_eq_true, if_false, List.append_nil]
  cases arrange ts S <;> rfl

/-- A closing parenthesis has no partner if no opening one waits. -/
theorem arrange_rightParen_unmatched {S : List Token} (y : Text) (ts : List Token)
    (hS : ∀ w ∈ S, isOpening w = false) :
    arrange (⟨.rightParen, y⟩ :: ts) S = .error .mismatchedParen := by
  have hS' : ∀ w ∈ S, (!isOpening w) = true := fun w hw => by rw [hS w hw]; rfl
  have hdrop : S.dropWhile (fun w => !isOpening w) = [] := by
    rw [← List.append_nil S, List.dropWhile_append_of_pos hS', List.dropWhile_nil]
  simp only [arrange, hdrop]

theorem Arranges.arrange_eq {ts S p : List Token} (h : Arranges ts S p) : arrange ts S = .ok p := by
  induction h with
  | done hS => rw [arrange, if_neg (by simpa using hS)]
  | operand _ ih => rw [arrange_operand, ih]; rfl
  | operator hws hS _ ih => rw [arrange_operator _ _ hws hS, ih]; rfl
  | leftParen _ ih => rw [arrange_leftParen, ih]
  | rightParen hws _ ih => rw [arrange_rightParen _ _ _ _ hws, ih]; rfl

theorem arranges_of_arrange_eq : ∀ {ts S p : List Token}, arrange ts S = .ok p → Arranges ts S p
  | [], S, p, h => by
    rw [arrange] at h
    split at h
    · cases h
    · next hS =>
      cases h
      exact .done (by simpa using hS)
  | ⟨.operand o, x⟩ :: ts, S, p, h => by
    rw [arrange_operand, map_eq_ok_iff] at h
    obtain ⟨q, hq, rfl⟩ := h
    exact .operand (arranges_of_arrange_eq hq)
  | ⟨.operator op, x⟩ :: ts, S, p, h => by
    obtain ⟨ws, S, rfl, hws, hS⟩ := exists_released_kept op.precedence S
    rw [arrange_operator _ _ hws hS, map_eq_ok_iff] at h
    obtain ⟨q, hq, rfl⟩ := h
    exact .operator hws hS (arranges_of_arrange_eq hq)
  | ⟨.leftParen, x⟩ :: ts, S, p, h => by
    rw [arrange_leftParen] at h
    exact .leftParen (arranges_of_arrange_eq h)
  | ⟨.rightParen, y⟩ :: ts, S, p, h => by
    rcases exists_opening S with hS | ⟨ws, x, S, rfl, hws⟩
    · rw [arrange_rightParen_unmatched _ _ hS] at h
      cases h
    · rw [arrange_rightParen _ _ _ _ hws, map_eq_ok_iff] at h
      obtain ⟨q, hq, rfl⟩ := h
      exact .rightParen hws (arranges_of_arrange_eq hq)

/-- **The rules** describe what `arrange` answers. -/
theorem arrange_eq_ok_iff {ts S p : List Token} : arrange ts S = .ok p ↔ Arranges ts S p :=
  ⟨arranges_of_arrange_eq, Arranges.arrange_eq⟩

/-- There is no postfix order only for the parentheses. -/
theorem eq_mismatchedParen_of_arrange {e : EvalError} : ∀ {ts S : List Token},
    arrange ts S = .error e → e = .mismatchedParen
  | [], S, h => by
    rw [arrange] at h
    split at h <;> cases h
    rfl
  | ⟨.operand o, x⟩ :: ts, S, h => by
    rw [arrange_operand, map_eq_error_iff] at h
    exact eq_mismatchedParen_of_arrange h
  | ⟨.operator op, x⟩ :: ts, S, h => by
    obtain ⟨ws, S, rfl, hws, hS⟩ := exists_released_kept op.precedence S
    rw [arrange_operator _ _ hws hS, map_eq_error_iff] at h
    exact eq_mismatchedParen_of_arrange h
  | ⟨.leftParen, x⟩ :: ts, S, h => by
    rw [arrange_leftParen] at h
    exact eq_mismatchedParen_of_arrange h
  | ⟨.rightParen, y⟩ :: ts, S, h => by
    rcases exists_opening S with hS | ⟨ws, x, S, rfl, hws⟩
    · rw [arrange_rightParen_unmatched _ _ hS] at h
      cases h
      rfl
    · rw [arrange_rightParen _ _ _ _ hws, map_eq_error_iff] at h
      exact eq_mismatchedParen_of_arrange h

/-! ### Infix expressions -/

theorem map_append_map (r : Except EvalError (List Token)) (xs ys : List Token) :
    (r.map (ys ++ ·)).map (xs ++ ·) = r.map (xs ++ ys ++ ·) := by
  cases r with
  | error e => rfl
  | ok p => exact congrArg Except.ok (List.append_assoc xs ys p).symm

/-- Of an infix expression with operators of at least the precedence `p`, all is put in its place but
for operators of at least this precedence, which wait for what comes next. -/
theorem Infix.arrange_append {p : Nat} {ts : List Token} {e : ExprTree} (h : Infix p ts e) :
    ∃ out pending, e.postorder = out ++ pending ∧ (∀ w ∈ pending, yields p w) ∧
      ∀ {S : List Token}, Holds p S → ∀ rest : List Token,
        arrange (ts ++ rest) S = (arrange rest (pending ++ S)).map (out ++ ·) := by
  induction h with
  | operand o x =>
    refine ⟨[⟨.operand o, x⟩], [], rfl, by simp, fun {S} _ rest => ?_⟩
    exact arrange_operand o x rest S
  | @parens ts e x y _ ih =>
    obtain ⟨out, pending, he, hpend, harr⟩ := ih
    refine ⟨e.postorder, [], (List.append_nil _).symm, by simp, fun {S} _ rest => ?_⟩
    -- the opening parenthesis keeps everything below it from being released
    have hinner := harr (holds_cons (w := ⟨.leftParen, x⟩) (S := S) rfl) (⟨.rightParen, y⟩ :: rest)
    have hclose := arrange_rightParen x y rest S fun w hw => isOpening_of_yields (hpend w hw)
    have htokens : ⟨.leftParen, x⟩ :: ts ++ [⟨.rightParen, y⟩] ++ rest =
        ⟨.leftParen, x⟩ :: (ts ++ ⟨.rightParen, y⟩ :: rest) := by simp
    rw [htokens, arrange_leftParen, hinner, hclose, map_append_map, ← he]
    rfl
  | @binary ts us l r op x _ _ ihl ihr =>
    obtain ⟨outl, pendl, hel, hpendl, harrl⟩ := ihl
    obtain ⟨outr, pendr, her, hpendr, harrr⟩ := ihr
    refine ⟨l.postorder ++ outr, pendr ++ [⟨.operator op, x⟩], by simp [ExprTree.postorder, her],
      fun w hw => ?_, fun {S} hS rest => ?_⟩
    · rcases List.mem_append.mp hw with hw | hw
      · exact yields_mono (Nat.le_succ _) (hpendr w hw)
      · obtain rfl := List.mem_singleton.mp hw
        simp [yields]
    · have hop : yields (op.precedence + 1) ⟨.operator op, x⟩ = false := by simp [yields]
      have hleft := harrl hS (⟨.operator op, x⟩ :: (us ++ rest))
      have hreleased := arrange_operator x (us ++ rest) hpendl hS
      have hright := harrr (holds_cons (S := S) hop) rest
      have htokens : ts ++ ⟨.operator op, x⟩ :: us ++ rest =
          ts ++ ⟨.operator op, x⟩ :: (us ++ rest) := by simp
      rw [htokens, hleft, hreleased, hright, map_append_map, map_append_map, ← hel,
        List.append_assoc pendr]
      rfl
  | looser _ ih =>
    obtain ⟨out, pending, he, hpend, harr⟩ := ih
    exact ⟨out, pending, he, fun w hw => yields_mono (Nat.le_succ _) (hpend w hw),
      fun hS => harr (hS.mono (Nat.le_succ _))⟩

/-- **The postfix order of an expression** is the postorder of its tree. -/
theorem ofInfix_of_isExpression {ts : List Token} {e : ExprTree} (h : IsExpression ts e) :
    ofInfix ts = .ok e.postorder := by
  obtain ⟨out, pending, he, hpend, harr⟩ := Infix.arrange_append h
  have hnone : Holds 1 [] := fun w hw => by cases hw
  have hwhole := harr hnone []
  have hend : arrange [] pending = .ok pending :=
    (Arranges.done fun w hw => isOpening_of_yields (hpend w hw)).arrange_eq
  rw [List.append_nil, List.append_nil, hend] at hwhole
  rw [ofInfix, hwhole, he]
  rfl

/-! ### Any tokens -/

/-- **The operands keep their order.** -/
theorem Arranges.filterMap_operand? {ts S p : List Token} (h : Arranges ts S p)
    (hS : ∀ w ∈ S, w.operand? = none) : p.filterMap Token.operand? = ts.filterMap Token.operand? := by
  induction h with
  | done _ => exact List.filterMap_eq_nil_iff.mpr hS
  | operand _ ih => simp only [List.filterMap_cons, ih hS]
  | @operator op x ts ws S p _ _ _ ih =>
    have hws : ws.filterMap Token.operand? = [] :=
      List.filterMap_eq_nil_iff.mpr fun w hw => hS w (List.mem_append_left _ hw)
    have hrest := ih (List.forall_mem_cons.mpr
      ⟨rfl, fun w hw => hS w (List.mem_append_right _ hw)⟩)
    rw [List.filterMap_append, hws, List.nil_append, hrest]
    rfl
  | leftParen _ ih =>
    have hrest := ih (List.forall_mem_cons.mpr ⟨rfl, hS⟩)
    rw [hrest]
    rfl
  | @rightParen x y ts ws S p _ _ ih =>
    have hws : ws.filterMap Token.operand? = [] :=
      List.filterMap_eq_nil_iff.mpr fun w hw => hS w (List.mem_append_left _ hw)
    have hrest := ih fun w hw => hS w (List.mem_append_right _ (List.mem_cons_of_mem _ hw))
    rw [List.filterMap_append, hws, List.nil_append, hrest]
    rfl

/-- **No operator is lost**, and none comes up twice. -/
theorem Arranges.countP_isOperator {ts S p : List Token} (h : Arranges ts S p) :
    p.countP Token.isOperator = ts.countP Token.isOperator + S.countP Token.isOperator := by
  induction h with
  | done _ => simp
  | operand _ ih => simpa [List.countP_cons, Token.isOperator] using ih
  | operator _ _ _ ih =>
    simp only [List.countP_append, List.countP_cons, Token.isOperator] at ih ⊢
    omega
  | leftParen _ ih => simpa [List.countP_cons, Token.isOperator] using ih
  | rightParen _ _ ih =>
    simp only [List.countP_append, List.countP_cons, Token.isOperator, ih, Bool.false_eq_true,
      if_false]
    omega

/-- In a list of tokens behind `d` open parentheses each parenthesis has a partner: nowhere are more
closed than opened, and in the end as many. -/
structure Matched (d : Nat) (ts : List Token) : Prop where
  le : ∀ us, us <+: ts → us.countP Token.isClosing ≤ d + us.countP isOpening
  eq : ts.countP Token.isClosing = d + ts.countP isOpening

theorem countP_cons_eq (f : Token → Bool) (t : Token) (us : List Token) :
    (t :: us).countP f = [t].countP f + us.countP f := by
  rw [← List.countP_append, List.singleton_append]

theorem Matched.cons {d d' : Nat} {t : Token} {ts : List Token} (h : Matched d' ts)
    (hd : d' + [t].countP Token.isClosing = d + [t].countP isOpening) : Matched d (t :: ts) := by
  refine ⟨fun us hus => ?_, ?_⟩
  · rcases List.prefix_cons_iff.mp hus with rfl | ⟨us, rfl, hus'⟩
    · simp
    · have := h.le us hus'
      rw [countP_cons_eq, countP_cons_eq isOpening]
      omega
  · have := h.eq
    rw [countP_cons_eq, countP_cons_eq isOpening]
    omega

theorem Matched.of_cons {d d' : Nat} {t : Token} {ts : List Token} (h : Matched d (t :: ts))
    (hd : d' + [t].countP Token.isClosing = d + [t].countP isOpening) : Matched d' ts := by
  refine ⟨fun us hus => ?_, ?_⟩
  · have := h.le (t :: us) (List.cons_prefix_cons.mpr ⟨rfl, hus⟩)
    rw [countP_cons_eq, countP_cons_eq isOpening] at this
    omega
  · have := h.eq
    rw [countP_cons_eq, countP_cons_eq isOpening] at this
    omega

/-- A closing parenthesis closes one that is open. -/
theorem Matched.exists_of_rightParen {d : Nat} {x : Text} {ts : List Token}
    (h : Matched d (⟨.rightParen, x⟩ :: ts)) : ∃ d', d = d' + 1 ∧ Matched d' ts := by
  have hle := h.le [⟨.rightParen, x⟩] ⟨ts, rfl⟩
  simp [Token.isClosing, isOpening] at hle
  exact ⟨d - 1, by omega, h.of_cons (by simp [Token.isClosing, isOpening]; omega)⟩

/-- **The parentheses match** if there is a postfix order. -/
theorem Arranges.matched {ts S p : List Token} (h : Arranges ts S p) :
    Matched (S.countP isOpening) ts := by
  induction h with
  | @done S hS =>
    have h0 : S.countP isOpening = 0 := List.countP_eq_zero.mpr fun w hw => by simp [hS w hw]
    rw [h0]
    exact ⟨fun us hus => by simp [List.prefix_nil.mp hus], rfl⟩
  | operand _ ih => exact ih.cons rfl
  | @operator op x ts ws S p hws _ _ ih =>
    have h0 : ws.countP isOpening = 0 :=
      List.countP_eq_zero.mpr fun w hw => by simp [isOpening_of_yields (hws w hw)]
    rw [List.countP_append, h0, Nat.zero_add]
    exact ih.cons rfl
  | leftParen _ ih => exact ih.cons (by simp [isOpening, Token.isClosing])
  | @rightParen x y ts ws S p hws _ ih =>
    have h0 : ws.countP isOpening = 0 := List.countP_eq_zero.mpr fun w hw => by simp [hws w hw]
    rw [List.countP_append, h0, Nat.zero_add]
    exact ih.cons (by simp [isOpening, Token.isClosing])

end Postfix

end DiceBot
