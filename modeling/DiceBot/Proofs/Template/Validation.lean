import DiceBot.Proofs.Expr.Alike
import DiceBot.Proofs.Expr.Locality
import DiceBot.Proofs.Template.Filling

/-! # What the trial of a template is worth

A template is tried out with a `1` for every placeholder and one generator. If its placeholders stand
alone, then an argument that is the text of an operand becomes a token of its own, whatever stands
around it. So the template filled in with any such arguments is cut into the same tokens but for its
operands (`exists_alike_cut`), and what was accepted has a value or fails for its arithmetic
(`evaluate_endsIn_of_validate`). -/

namespace DiceBot.Template

/-- What may stand next to a placeholder: a blank, an operator or a parenthesis. -/
def isDelimiter (c : Char) : Bool :=
  Text.isBlank c || c = '+' || c = '-' || c = '*' || c = '/' || c = '(' || c = ')'

/-- Next to a placeholder there are only delimiters. -/
def PlaceholdersAlone (template : Text) : Prop :=
  template.IsChain fun c d =>
    (c ∈ placeholders → isDelimiter d) ∧ (d ∈ placeholders → isDelimiter c)

/-- Every placeholder in the template has an argument. -/
def Covers (args : List Text) (template : Text) : Prop :=
  ∀ c ∈ template, c ∈ placeholders → ∃ arg, (arg, c) ∈ args.zip placeholders

/-- The text of a single operand that the limits allow. -/
def IsArgument (limits : Limits) (x : Text) : Prop :=
  ∃ o, Spells (.operand o) x ∧ ∀ t, o = .dice t → limits.Allows t

/-! ### Characters -/

theorem isInner_of_isDelimiter {c : Char} (h : isDelimiter c) : isInner c = false := by
  simp only [isDelimiter, Bool.or_eq_true, decide_eq_true_eq] at h
  rcases h with (((((hc | rfl) | rfl) | rfl) | rfl) | rfl) | rfl
  · have hdigit : c.isDigit = false := Bool.eq_false_iff.mpr fun hd => by
      rw [Text.isBlank_of_isDigit hd] at hc
      cases hc
    have hne : ∀ d : Char, Text.isBlank d = false → c ≠ d := by
      rintro d hd rfl
      rw [hc] at hd
      cases hd
    have hd := hne 'd' (Text.isBlank_of_visible (by decide) (by decide))
    have hh := hne '!' (Text.isBlank_of_visible (by decide) (by decide))
    have hl := hne '?' (Text.isBlank_of_visible (by decide) (by decide))
    simp [isInner, hdigit, hd, hh, hl]
  all_goals rfl

/-- A placeholder is a capital letter. -/
theorem code_of_mem_placeholders {c : Char} (h : c ∈ placeholders) :
    0x41 ≤ c.toNat ∧ c.toNat ≤ 0x5a := by
  have hall : placeholders.all fun d => 0x41 ≤ d.toNat && d.toNat ≤ 0x5a := by decide
  simpa using List.all_eq_true.mp hall c h

theorem not_mem_placeholders_of_isDelimiter {c : Char} (h : isDelimiter c) : c ∉ placeholders := by
  intro hc
  obtain ⟨hl, hu⟩ := code_of_mem_placeholders hc
  simp only [isDelimiter, Bool.or_eq_true, decide_eq_true_eq] at h
  rcases h with (((((hb | rfl) | rfl) | rfl) | rfl) | rfl) | rfl
  · rw [Text.isBlank_of_visible (by omega) (by omega)] at hb
    cases hb
  all_goals exact absurd hl (by decide)

theorem not_mem_placeholders_of_isDigit {c : Char} (h : c.isDigit) : c ∉ placeholders := by
  intro hc
  have hl := (code_of_mem_placeholders hc).1
  simp only [Char.isDigit, Bool.and_eq_true, decide_eq_true_eq, UInt32.le_iff_toNat_le] at h
  have hval : c.val.toNat = c.toNat := rfl
  have h9 : '9'.val.toNat = 57 := rfl
  omega

/-- The text of an operand holds no placeholders. -/
theorem not_mem_placeholders_of_spells {o : Operand} {x : Text} (h : Spells (.operand o) x) :
    ∀ c ∈ x, c ∉ placeholders := by
  intro c hc
  cases h with
  | integer _ hd _ => exact not_mem_placeholders_of_isDigit (hd c hc)
  | dice k hn hm =>
    simp only [List.mem_append, List.mem_cons] at hc
    rcases hc with (hc | rfl | hc) | hc
    · exact not_mem_placeholders_of_isDigit (hn.isDigit c hc)
    · decide
    · exact not_mem_placeholders_of_isDigit (hm.isDigit c hc)
    · cases k <;> simp only [Modifier.mark, List.mem_singleton, List.not_mem_nil] at hc <;>
        subst hc <;> decide

/-! ### Placeholders that stand alone -/

theorem PlaceholdersAlone.of_append {s t : Text} (h : PlaceholdersAlone (s ++ t)) :
    PlaceholdersAlone t := (List.isChain_append.mp h).2.1

/-- In front of a placeholder that stands alone the text can be taken apart. -/
theorem PlaceholdersAlone.parted_left {s t : Text} {c : Char} (hc : c ∈ placeholders)
    (h : PlaceholdersAlone (s ++ c :: t)) (u : Text) : Parted s u := by
  intro d hd _ _
  exact Or.inl (isInner_of_isDelimiter (((List.isChain_append.mp h).2.2 d hd c rfl).2 hc))

/-- Behind a placeholder that stands alone the filled text can be taken apart. -/
theorem PlaceholdersAlone.parted_right {t : Text} {c : Char} (hc : c ∈ placeholders)
    (h : PlaceholdersAlone (c :: t)) (args : List Text) (x : Text) : Parted x (fill t args) := by
  cases t with
  | nil =>
    rw [fill_eq_self (by simp) args]
    exact fun _ _ _ hd => by cases hd
  | cons d t =>
    have hd : isDelimiter d := (List.isChain_cons_cons.mp h).1.1 hc
    have hself : fill [d] args = [d] :=
      fill_eq_self (List.forall_mem_singleton.mpr (not_mem_placeholders_of_isDelimiter hd)) args
    have hfill : fill (d :: t) args = d :: fill t args := by
      rw [← List.singleton_append, fill_append, hself, List.singleton_append]
    rw [hfill]
    intro _ _ e he
    cases he
    exact Or.inr (isInner_of_isDelimiter hd)

/-- A text has no placeholders, or it has a first one. -/
theorem exists_first_placeholder (s : Text) : (∀ c ∈ s, c ∉ placeholders) ∨
    ∃ p c t, s = p ++ c :: t ∧ (∀ d ∈ p, d ∉ placeholders) ∧ c ∈ placeholders := by
  induction s with
  | nil => exact Or.inl (by simp)
  | cons c s ih =>
    by_cases hc : c ∈ placeholders
    · exact Or.inr ⟨[], c, s, rfl, by simp, hc⟩
    · rcases ih with hs | ⟨p, d, t, rfl, hp, hd⟩
      · exact Or.inl (List.forall_mem_cons.mpr ⟨hc, hs⟩)
      · exact Or.inr ⟨c :: p, d, t, rfl, List.forall_mem_cons.mpr ⟨hc, hp⟩, hd⟩

/-! ### One template, other arguments -/

/-- A token is an operand within the limits. -/
def IsAllowedOperand (limits : Limits) (t : Token) : Prop :=
  ∃ o x, t = ⟨.operand o, x⟩ ∧ ∀ term, o = .dice term → limits.Allows term

/-- **An argument is a token of its own**: filled in with other arguments, a template is cut into the
same tokens but for operands. -/
theorem exists_alike_cut {limits limits' : Limits} {args args' : List Text}
    (hargs : ∀ x ∈ args, IsArgument limits x) (hargs' : ∀ x ∈ args', IsArgument limits' x) :
    ∀ {template : Text} {ts : List Token}, PlaceholdersAlone template → Covers args template →
      Covers args' template → IsCut (fill template args) ts →
      ∃ ts', IsCut (fill template args') ts' ∧ List.Forall₂ Token.Alike ts' ts ∧
        ∀ t ∈ ts', t ∈ ts ∨ IsAllowedOperand limits' t := by
  intro template ts halone hcov hcov' hcut
  rcases exists_first_placeholder template with hnone | ⟨p, c, s, rfl, hp, hc⟩
  · rw [fill_eq_self hnone] at hcut ⊢
    exact ⟨ts, hcut, alike_refl ts, fun t ht => Or.inl ht⟩
  · obtain ⟨x, hx⟩ := hcov c (by simp) hc
    obtain ⟨x', hx'⟩ := hcov' c (by simp) hc
    obtain ⟨o, ho, -⟩ := hargs x (List.of_mem_zip hx).1
    obtain ⟨o', ho', hallowed⟩ := hargs' x' (List.of_mem_zip hx').1
    have hsplit : ∀ as : List Text, fill (p ++ c :: s) as = p ++ (fill [c] as ++ fill s as) :=
      fun as => by rw [fill_append, fill_eq_self hp, ← List.singleton_append, fill_append]
    have halone_c : PlaceholdersAlone (c :: s) := halone.of_append
    have halone_s : PlaceholdersAlone s := PlaceholdersAlone.of_append (s := [c]) halone_c
    have hsub : ∀ {d : Char}, d ∈ s → d ∈ p ++ c :: s := fun hd => by simp [hd]
    rw [hsplit, fill_placeholder hx (not_mem_placeholders_of_spells ho),
      isCut_append_iff (halone.parted_left hc _)] at hcut
    obtain ⟨us, ws, rfl, hus, hws⟩ := hcut
    rw [isCut_append_iff (halone_c.parted_right hc args x)] at hws
    obtain ⟨vs, ws, rfl, hvs, hws⟩ := hws
    obtain rfl := hvs.unique ho.isCut
    -- what follows the placeholder is a shorter template of the same kind
    obtain ⟨ws', hws', halike, hmem⟩ := exists_alike_cut hargs hargs' halone_s
      (fun d hd => hcov d (hsub hd)) (fun d hd => hcov' d (hsub hd)) hws
    refine ⟨us ++ ([⟨.operand o', x'⟩] ++ ws'), ?_, ?_, fun t ht => ?_⟩
    · rw [hsplit, fill_placeholder hx' (not_mem_placeholders_of_spells ho'),
        isCut_append_iff (halone.parted_left hc _)]
      exact ⟨us, _, rfl, hus, (isCut_append_iff (halone_c.parted_right hc args' x')).mpr
        ⟨_, ws', rfl, ho'.isCut, hws'⟩⟩
    · exact List.rel_append (alike_refl us) (.cons (.operand o' o x' x) halike)
    · rcases List.mem_append.mp ht with ht | ht
      · exact Or.inl (List.mem_append_left _ ht)
      · rcases List.mem_append.mp ht with ht | ht
        · exact Or.inr ⟨o', x', List.mem_singleton.mp ht, hallowed⟩
        · exact (hmem t ht).imp_left fun h =>
            List.mem_append_right _ (List.mem_append_right _ h)
termination_by template => template.length

/-! ### Accepted templates -/

theorem spells_one : Spells (.operand (.integer (Text.digitsValue ['1']))) ['1'] :=
  .integer (by decide) (List.forall_mem_singleton.mpr rfl) (by decide)

theorem isArgument_of_mem_trialArgs (limits : Limits) {x : Text} (h : x ∈ trialArgs) :
    IsArgument limits x := by
  obtain ⟨c, -, rfl⟩ := List.mem_map.mp h
  exact ⟨_, spells_one, fun t ht => by cases ht⟩

theorem covers_trialArgs (template : Text) : Covers trialArgs template :=
  fun _ _ hc => ⟨_, mem_zip_trialArgs hc⟩

section Accepted

variable {σ τ : Type} [WordSource σ] [WordSource τ] {limits : Limits} {template : Text} {g g' : σ}

/-- A template is accepted if it has a value when it is tried out. -/
theorem yields_validate_iff : (validate limits template).Yields g () g' ↔
    ∃ out, (DiceBot.evaluate limits (fill template trialArgs)).Yields g out g' := by
  unfold validate
  rw [Rolling.yields_bind_iff]
  constructor
  · rintro ⟨out, g₁, hout, hpure⟩
    obtain ⟨-, rfl⟩ := Rolling.yields_pure_iff.mp hpure
    exact ⟨out, hout⟩
  · rintro ⟨out, hout⟩
    exact ⟨out, g', hout, Rolling.yields_pure_iff.mpr ⟨rfl, rfl⟩⟩

/-- **The trial of a template is a guarantee**: if its placeholders stand alone and it was accepted once,
then with any operands within the limits for its placeholders, and with any dice, it has a value or fails
for its arithmetic. -/
theorem evaluate_endsIn_of_validate (halone : PlaceholdersAlone template)
    (haccepted : (validate limits template).Yields g () g') {args : List Text}
    (hcovers : Covers args template) (hargs : ∀ x ∈ args, IsArgument limits x) (k : τ) :
    (evaluate limits template args).EndsIn EvalError.IsArithmetic k := by
  obtain ⟨out, hout⟩ := yields_validate_iff.mp haccepted
  obtain ⟨p, hp, -⟩ := yields_evaluate_iff.mp hout
  obtain ⟨ts, hcut, hlimits, -⟩ := parse_eq_ok_iff.mp hp
  obtain ⟨ts', hcut', halike, hmem⟩ := exists_alike_cut
    (fun x hx => isArgument_of_mem_trialArgs limits hx) hargs halone (covers_trialArgs template)
    hcovers hcut
  refine evaluate_endsIn_of_alike hcut hcut' halike (fun t ht term hterm => ?_) hout k
  rcases hmem t ht with ht | ⟨o, x, rfl, hallowed⟩
  · exact hlimits t ht term hterm
  · exact hallowed term (TokenKind.operand.inj hterm)

end Accepted

/-- The trial divides by one. A die in the place of the `1` may make that a zero. -/
theorem evaluate_endsIn_of_validate_quotient :
    (PlaceholdersAlone "10/(2 -A)".toList ∧
      (validate ⟨some 3, some 4⟩ "10/(2 -A)".toList).Yields (⟨[]⟩ : Script) () ⟨[]⟩ ∧
      Covers ["3d4?".toList] "10/(2 -A)".toList ∧
      ∀ x ∈ ["3d4?".toList], IsArgument ⟨some 3, some 4⟩ x) ∧
    ∀ ws : List UInt32, (evaluate ⟨some 3, some 4⟩ "10/(2 -A)".toList ["3d4?".toList]).EndsIn
      EvalError.IsArithmetic (⟨ws⟩ : Script) := by
  have halone : PlaceholdersAlone "10/(2 -A)".toList := by
    unfold PlaceholdersAlone
    decide
  have haccepted : (validate ⟨some 3, some 4⟩ "10/(2 -A)".toList).Yields (⟨[]⟩ : Script) () ⟨[]⟩ := by
    unfold Rolling.Yields
    decide +kernel
  have hcovers : Covers ["3d4?".toList] "10/(2 -A)".toList := by
    intro c hc hletter
    have hletters : "10/(2 -A)".toList.filter (· ∈ placeholders) = ['A'] := by decide
    have hA : c = 'A' := by
      rw [← List.mem_singleton, ← hletters]
      exact List.mem_filter.mpr ⟨hc, decide_eq_true hletter⟩
    exact ⟨"3d4?".toList, by rw [hA]; decide⟩
  have hargs : ∀ x ∈ ["3d4?".toList], IsArgument ⟨some 3, some 4⟩ x := by
    have hrepeats : IsCount ['3'] 3 := ⟨List.forall_mem_singleton.mpr rfl, by decide, by decide⟩
    have hsides : IsCount ['4'] 4 := ⟨List.forall_mem_singleton.mpr rfl, by decide, by decide⟩
    intro x hx
    obtain rfl := List.mem_singleton.mp hx
    refine ⟨_, .dice .lowest hrepeats hsides, fun t ht => ?_⟩
    cases ht
    simp [Limits.Allows]
  exact ⟨⟨halone, haccepted, hcovers, hargs⟩, fun ws =>
    evaluate_endsIn_of_validate halone haccepted hcovers hargs (⟨ws⟩ : Script)⟩

end DiceBot.Template
