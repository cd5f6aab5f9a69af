import DiceBot.Proofs.Expr.Parsing

/-! # The postfix order of any tokens

Tokens that are no expression have a postfix order too, as long as their parentheses match
(`Matched.exists_arranges`). To say where each token goes, the tokens are taken with their places
(`List.zipIdx`), for equal tokens may stand in several places. The postfix order has all tokens but the
parentheses, and nothing comes up in front of an operand that stood behind it (`Reordered`): the operands
keep their order, and an operator comes behind all operands that it stood behind.

* `Arranges.exists_reordered`: the postfix order is such a reordering, by induction on the rules; what
  waits are operators and opening parentheses from places further left (`Waits`).
* `ofInfix_reorders`: there is no postfix order if and only if the parentheses do not match. -/

namespace DiceBot

open Postfix

/-- Whether a token is an operand. -/
def Token.isOperand (t : Token) : Bool := t.operand?.isSome

/-- Somewhere more parentheses are closed than opened, or not as many in the end. -/
def Unbalanced (ts : List Token) : Prop :=
  (∃ us, us <+: ts ∧ us.countP isOpening < us.countP Token.isClosing) ∨
    ts.countP isOpening ≠ ts.countP Token.isClosing

/-- The tokens `q`, each with its place, are those of `us` without the parentheses, and whatever comes in
front of an operand stood in front of it. -/
structure Reordered (us q : List (Token × Nat)) : Prop where
  perm : q.Perm (us.filter fun u => !u.1.isParen)
  lt : q.Pairwise fun u v => v.1.isOperand → u.2 < v.2

/-! ### Matching parentheses -/

namespace Postfix

/-- **Where the parentheses match** there is a postfix order. -/
theorem Matched.exists_arranges : ∀ {ts S : List Token}, Matched (S.countP isOpening) ts →
    ∃ p, Arranges ts S p
  | [], S, h => by
    have hnone : S.countP isOpening = 0 := h.eq.symm
    exact ⟨S, .done fun w hw => by simpa using List.countP_eq_zero.mp hnone w hw⟩
  | ⟨.operand o, x⟩ :: ts, S, h => by
    obtain ⟨p, hp⟩ := (h.of_cons rfl).exists_arranges
    exact ⟨_, .operand hp⟩
  | ⟨.operator op, x⟩ :: ts, S, h => by
    obtain ⟨ws, S, rfl, hws, hS⟩ := exists_released_kept op.precedence S
    have hnone : ws.countP isOpening = 0 :=
      List.countP_eq_zero.mpr fun w hw => by simp [isOpening_of_yields (hws w hw)]
    rw [List.countP_append, hnone, Nat.zero_add] at h
    have hrest : Matched ((⟨.operator op, x⟩ :: S).countP isOpening) ts := h.of_cons rfl
    obtain ⟨p, hp⟩ := hrest.exists_arranges
    exact ⟨_, .operator hws hS hp⟩
  | ⟨.leftParen, x⟩ :: ts, S, h => by
    have hrest : Matched ((⟨.leftParen, x⟩ :: S).countP isOpening) ts :=
      h.of_cons (by simp [isOpening, Token.isClosing])
    obtain ⟨p, hp⟩ := hrest.exists_arranges
    exact ⟨_, .leftParen hp⟩
  | ⟨.rightParen, y⟩ :: ts, S, h => by
    obtain ⟨d, hd, hrest⟩ := h.exists_of_rightParen
    rcases exists_opening S with hS | ⟨ws, x, S, rfl, hws⟩
    · have hnone : S.countP isOpening = 0 := List.countP_eq_zero.mpr fun w hw => by simp [hS w hw]
      omega
    · have hnone : ws.countP isOpening = 0 :=
        List.countP_eq_zero.mpr fun w hw => by simp [hws w hw]
      have hopened : (⟨.leftParen, x⟩ :: S : List Token).countP isOpening =
          S.countP isOpening + 1 := List.countP_cons_of_pos rfl
      rw [List.countP_append, hnone, hopened] at hd
      obtain rfl : d = S.countP isOpening := by omega
      obtain ⟨p, hp⟩ := hrest.exists_arranges
      exact ⟨_, .rightParen hws hp⟩

theorem matched_zero_iff {ts : List Token} : Matched 0 ts ↔ ¬Unbalanced ts := by
  constructor
  · rintro h (⟨us, hus, hlt⟩ | hne)
    · have hle := h.le us hus
      omega
    · have heq := h.eq
      omega
  · intro h
    refine ⟨fun us hus => Nat.not_lt.mp fun hlt => ?_, Decidable.byContradiction fun hne => ?_⟩
    · exact h (Or.inl ⟨us, hus, by omega⟩)
    · exact h (Or.inr (by omega))

theorem exists_ofInfix_iff {ts : List Token} : (∃ p, ofInfix ts = .ok p) ↔ ¬Unbalanced ts := by
  rw [← matched_zero_iff]
  constructor
  · rintro ⟨p, hp⟩
    exact (arrange_eq_ok_iff.mp hp).matched
  · intro h
    obtain ⟨p, hp⟩ := Matched.exists_arranges (S := []) h
    exact ⟨p, hp.arrange_eq⟩

/-- **There is no postfix order** if and only if the parentheses do not match, and that is the error. -/
theorem ofInfix_eq_mismatchedParen_iff {ts : List Token} :
    ofInfix ts = .error .mismatchedParen ↔ Unbalanced ts := by
  cases hr : ofInfix ts with
  | ok p => simpa using exists_ofInfix_iff.mp ⟨p, hr⟩
  | error e =>
    have hno : ¬∃ p, ofInfix ts = .ok p := by simp [hr]
    rw [eq_mismatchedParen_of_arrange hr]
    exact ⟨fun _ => Classical.not_not.mp fun h => hno (exists_ofInfix_iff.mpr h), fun _ => rfl⟩

end Postfix

/-! ### Reorderings -/

namespace Reordered

variable {u : Token × Nat} {us vs q : List (Token × Nat)}

theorem of_perm (h : Reordered us q) (hperm : us.Perm vs) : Reordered vs q :=
  ⟨h.perm.trans (hperm.filter _), h.lt⟩

theorem paren (h : Reordered us q) (hu : u.1.isParen) : Reordered (u :: us) q := by
  refine ⟨?_, h.lt⟩
  rw [List.filter_cons_of_neg (by simp [hu])]
  exact h.perm

/-- A token that stands in front of all operands may come first. -/
theorem cons (h : Reordered us q) (hu : u.1.isParen = false)
    (hlt : ∀ v ∈ us, v.1.isOperand → u.2 < v.2) : Reordered (u :: us) (u :: q) := by
  refine ⟨?_, List.pairwise_cons.mpr ⟨fun v hv => ?_, h.lt⟩⟩
  · rw [List.filter_cons_of_pos (by simp [hu])]
    exact h.perm.cons u
  · exact hlt v (List.mem_filter.mp (h.perm.mem_iff.mp hv)).1

end Reordered

/-- The tokens wait for others from the place `n` on: they are operators and opening parentheses from
places in front of it. -/
def Waits (n : Nat) (T : List (Token × Nat)) : Prop :=
  ∀ w ∈ T, w.2 < n ∧ (w.1.isOperator ∨ isOpening w.1)

theorem Token.isParen_of_isOperator : ∀ {t : Token}, t.isOperator → t.isParen = false
  | ⟨.operator _, _⟩, _ => rfl

theorem Token.isOperand_of_isOperator : ∀ {t : Token}, t.isOperator → t.isOperand = false
  | ⟨.operator _, _⟩, _ => rfl

theorem Token.isOperand_of_isParen : ∀ {t : Token}, t.isParen → t.isOperand = false
  | ⟨.leftParen, _⟩, _ => rfl
  | ⟨.rightParen, _⟩, _ => rfl

namespace Waits

variable {n : Nat} {u v : Token × Nat} {T : List (Token × Nat)}

theorem succ (hT : Waits n T) : Waits (n + 1) T :=
  fun w hw => ⟨Nat.lt_succ_of_lt (hT w hw).1, (hT w hw).2⟩

theorem push (hT : Waits n T) {t : Token} (ht : t.isOperator ∨ isOpening t) :
    Waits (n + 1) ((t, n) :: T) := by
  intro w hw
  rcases List.mem_cons.mp hw with rfl | hw
  · exact ⟨Nat.lt_succ_self n, ht⟩
  · exact hT.succ w hw

/-- No operand waits. -/
theorem isOperand_eq_false (hT : Waits n T) (hv : v ∈ T) : v.1.isOperand = false := by
  rcases (hT v hv).2 with hoperator | hopening
  · exact Token.isOperand_of_isOperator hoperator
  · exact Token.isOperand_of_isParen (by simp [Token.isParen, hopening])

/-- The operands are those that are still to come. -/
theorem le_of_isOperand (hT : Waits n T) {ts : List Token} (hv : v ∈ ts.zipIdx n ++ T)
    (hop : v.1.isOperand) : n ≤ v.2 := by
  rcases List.mem_append.mp hv with hv | hv
  · exact List.le_snd_of_mem_zipIdx hv
  · rw [hT.isOperand_eq_false hv] at hop
    cases hop

end Waits

/-- Operators that wait may come before all that is still to come. -/
theorem Reordered.release {n : Nat} {ts : List Token} {U q : List (Token × Nat)}
    (h : Reordered (ts.zipIdx n ++ U) q) : ∀ {T : List (Token × Nat)}, Waits n (T ++ U) →
      (∀ w ∈ T, isOpening w.1 = false) → Reordered (ts.zipIdx n ++ (T ++ U)) (T ++ q)
  | [], _, _ => h
  | w :: T, hwaits, hopen => by
    obtain ⟨hw, hT⟩ := List.forall_mem_cons.mp hwaits
    obtain ⟨hopenw, hopenT⟩ := List.forall_mem_cons.mp hopen
    have hoperator : w.1.isOperator := hw.2.resolve_right (by simp [hopenw])
    have hlt : ∀ v ∈ ts.zipIdx n ++ (T ++ U), v.1.isOperand → w.2 < v.2 := fun v hv hop =>
      Nat.lt_of_lt_of_le hw.1 (Waits.le_of_isOperand hT hv hop)
    have hfirst := (h.release hT hopenT).cons (Token.isParen_of_isOperator hoperator) hlt
    exact hfirst.of_perm List.perm_middle.symm

/-- **The postfix order is a reordering** of the tokens from the place `n` on and of those that wait. -/
theorem Postfix.Arranges.exists_reordered {ts S p : List Token} (h : Arranges ts S p) :
    ∀ {n : Nat} {T : List (Token × Nat)}, T.map Prod.fst = S → Waits n T →
      ∃ q, q.map Prod.fst = p ∧ Reordered (ts.zipIdx n ++ T) q := by
  induction h with
  | done hS =>
    rintro n T rfl hT
    have hnone : Reordered (([] : List Token).zipIdx n ++ []) [] := ⟨.nil, .nil⟩
    have hwaits : Waits n (T ++ []) := by rwa [List.append_nil]
    have hreleased := hnone.release hwaits fun w hw => hS w.1 (List.mem_map_of_mem hw)
    simp only [List.append_nil] at hreleased
    exact ⟨T, rfl, hreleased⟩
  | @operand o x ts S p _ ih =>
    intro n T hTS hT
    obtain ⟨q, hq, hre⟩ := ih hTS hT.succ
    refine ⟨(⟨.operand o, x⟩, n) :: q, by rw [List.map_cons, hq], ?_⟩
    rw [List.zipIdx_cons, List.cons_append]
    exact hre.cons rfl fun v hv hop => hT.succ.le_of_isOperand hv hop
  | @operator op x ts ws S p hws _ _ ih =>
    intro n T hTS hT
    obtain ⟨T₁, T₂, rfl, rfl, rfl⟩ := List.map_eq_append_iff.mp hTS
    obtain ⟨hT₁, hT₂⟩ := List.forall_mem_append.mp hT
    have hpushed : Waits (n + 1) ((⟨.operator op, x⟩, n) :: T₂) := Waits.push hT₂ (Or.inl rfl)
    obtain ⟨q, hq, hre⟩ := ih rfl hpushed
    have hreleased := hre.release (T := T₁)
      (List.forall_mem_append.mpr ⟨Waits.succ hT₁, hpushed⟩) fun w hw =>
        isOpening_of_yields (hws w.1 (List.mem_map_of_mem hw))
    have hperm : (ts.zipIdx (n + 1) ++ (T₁ ++ (⟨.operator op, x⟩, n) :: T₂)).Perm
        ((⟨.operator op, x⟩, n) :: (ts.zipIdx (n + 1) ++ (T₁ ++ T₂))) :=
      (List.perm_middle.append_left _).trans List.perm_middle
    exact ⟨T₁ ++ q, by rw [List.map_append, hq], hreleased.of_perm hperm⟩
  | @leftParen x ts S p _ ih =>
    intro n T hTS hT
    obtain ⟨q, hq, hre⟩ := ih (n := n + 1) (T := (⟨.leftParen, x⟩, n) :: T) (by simp [hTS])
      (hT.push (Or.inr rfl))
    exact ⟨q, hq, hre.of_perm List.perm_middle⟩
  | @rightParen x y ts ws S p hws _ ih =>
    intro n T hTS hT
    obtain ⟨T₁, T', rfl, rfl, hT'⟩ := List.map_eq_append_iff.mp hTS
    obtain ⟨w, T₂, rfl, hw, rfl⟩ := List.map_eq_cons_iff.mp hT'
    have hT₂ : Waits n T₂ := fun v hv => hT v (by simp [hv])
    obtain ⟨q, hq, hre⟩ := ih rfl hT₂.succ
    -- the two parentheses are dropped from their places
    have hdropped := (hre.paren (u := w) (by rw [hw]; rfl)).of_perm List.perm_middle.symm
    have hreleased := hdropped.release (T := T₁) hT.succ fun w hw =>
      hws w.1 (List.mem_map_of_mem hw)
    exact ⟨T₁ ++ q, by rw [List.map_append, hq], hreleased.paren rfl⟩

/-- **The postfix order of any tokens.** There is none if and only if the parentheses do not match, and that
is the error; otherwise it has all tokens but the parentheses, the operands in their order and every
operator behind all operands that it stood behind. -/
theorem ofInfix_reorders (ts : List Token) :
    (ofInfix ts = .error .mismatchedParen ↔ Unbalanced ts) ∧
      (¬Unbalanced ts → ∃ p, ofInfix ts = .ok p ∧ p.Perm (ts.filter fun t => !t.isParen) ∧
        p.filterMap Token.operand? = ts.filterMap Token.operand? ∧
        ∃ q, q.map Prod.fst = p ∧ Reordered ts.zipIdx q) := by
  refine ⟨ofInfix_eq_mismatchedParen_iff, fun h => ?_⟩
  obtain ⟨p, hp⟩ := exists_ofInfix_iff.mpr h
  have harr : Arranges ts [] p := arrange_eq_ok_iff.mp hp
  have hnone : Waits 0 [] := fun w hw => absurd hw List.not_mem_nil
  obtain ⟨q, hq, hre⟩ := harr.exists_reordered rfl hnone
  rw [List.append_nil] at hre
  have htokens : (ts.zipIdx.filter fun u => !u.1.isParen).map Prod.fst =
      ts.filter fun t => !t.isParen := by
    calc (ts.zipIdx.filter fun u => !u.1.isParen).map Prod.fst
        = (ts.zipIdx.map Prod.fst).filter fun t => !t.isParen :=
          (List.filter_map (p := fun t : Token => !t.isParen) (f := Prod.fst)).symm
      _ = ts.filter fun t => !t.isParen := by rw [List.zipIdx_map_fst]
  have hperm : p.Perm (ts.filter fun t => !t.isParen) := by
    rw [← hq, ← htokens]
    exact hre.perm.map Prod.fst
  exact ⟨p, hp, hperm, harr.filterMap_operand? (by simp), q, hq, hre⟩

/-- A sign that is no sign, and parentheses around half of a product. -/
theorem ofInfix_reorders_illFormed :
    let ts := Lexer.tokens "+1(2*)3-4".toList
    let p := Lexer.tokens "1 2 * 3 + 4 -".toList
    let crossed := Lexer.tokens ")(".toList
    (¬Unbalanced ts ∧ Unbalanced crossed) ∧
      ofInfix ts = .ok p ∧ (∃ q, q.map Prod.fst = p ∧ Reordered ts.zipIdx q) ∧
      ofInfix crossed = .error .mismatchedParen := by
  intro ts p crossed
  have hp : ofInfix ts = .ok p := by decide +kernel
  have hcrossed : ofInfix crossed = .error .mismatchedParen := by decide +kernel
  have hbalanced : ¬Unbalanced ts := exists_ofInfix_iff.mp ⟨p, hp⟩
  obtain ⟨p', hp', -, -, hre⟩ := (ofInfix_reorders ts).2 hbalanced
  obtain rfl : p = p' := Except.ok.inj (hp.symm.trans hp')
  exact ⟨⟨hbalanced, (ofInfix_reorders crossed).1.mp hcrossed⟩, hp, hre, hcrossed⟩

end DiceBot
