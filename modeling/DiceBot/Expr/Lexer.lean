import DiceBot.Expr.Token
import DiceBot.Text.Blank

/-! # Reading tokens

A reader takes characters off the front of a text and answers what it read together with the rest.
`tokens` reads as many tokens as it can and passes over every character at which none starts; whether
it passed over anything but blanks is found by `validate`, which compares the texts of the tokens
with the input. -/

namespace DiceBot.Lexer

/-- What a reader of `α` answers. -/
abbrev Reading (α : Type) := Option (α × Text)

/-! ### The parts of a token -/

/-- The digits that a text begins with. -/
def digits (s : Text) : Text := s.takeWhile Char.isDigit

/-- The text after the digits it begins with. -/
def afterDigits (s : Text) : Text := s.dropWhile Char.isDigit

/-- The greatest number of dice or of sides, `2^32 - 1`. -/
def maxCount : Nat := 0xffffffff

/-- A number of dice or of sides. -/
def readCount (s : Text) : Reading UInt32 :=
  let n := Text.digitsValue (digits s)
  if 0 < n ∧ n ≤ maxCount then some (UInt32.ofNat n, afterDigits s) else none

/-- An integer: at least one digit, and at most the largest value. -/
def readInteger (s : Text) : Reading Int :=
  let n : Int := Text.digitsValue (digits s)
  if digits s ≠ [] ∧ n ≤ maxValue then some (n, afterDigits s) else none

/-- A modifier, which may be absent. -/
def readModifier : Text → Modifier × Text
  | '!' :: s => (.highest, s)
  | '?' :: s => (.lowest, s)
  | s => (.none, s)

/-- A count of sides and a modifier, for so many dice. -/
def readSides (repeats : UInt32) (s : Text) : Reading DiceTerm :=
  match readCount s with
  | some (sides, s) =>
    match readModifier s with
    | (modifier, s) => some (⟨repeats, sides, modifier⟩, s)
  | none => none

/-- A dice term. -/
def readDice (s : Text) : Reading DiceTerm :=
  match readCount s with
  | some (repeats, 'd' :: s) => readSides repeats s
  | _ => none

/-- An operator. -/
def readOperator : Text → Reading Operator
  | '+' :: s => some (.add, s)
  | '-' :: s => some (.sub, s)
  | '*' :: s => some (.mul, s)
  | '/' :: s => some (.div, s)
  | _ => none

/-- A parenthesis. -/
def readParen : Text → Reading TokenKind
  | '(' :: s => some (.leftParen, s)
  | ')' :: s => some (.rightParen, s)
  | _ => none

/-- A token. A dice term is tried before an integer, which may be how it begins. -/
def readToken (s : Text) : Reading TokenKind :=
  match readDice s with
  | some (t, rest) => some (.operand (.dice t), rest)
  | none =>
    match readInteger s with
    | some (n, rest) => some (.operand (.integer n), rest)
    | none =>
      match readOperator s with
      | some (op, rest) => some (.operator op, rest)
      | none => readParen s

/-! ### Every reader takes at least one character -/

theorem digits_append_afterDigits (s : Text) : digits s ++ afterDigits s = s :=
  List.takeWhile_append_dropWhile

theorem readCount_eq_append {s rest : Text} {n : UInt32} (h : readCount s = some (n, rest)) :
    digits s ≠ [] ∧ s = digits s ++ rest := by
  simp only [readCount, Option.ite_none_right_eq_some, Option.some.injEq, Prod.mk.injEq] at h
  obtain ⟨⟨hpos, _⟩, _, rfl⟩ := h
  refine ⟨fun hnil => ?_, (digits_append_afterDigits s).symm⟩
  rw [hnil] at hpos
  exact absurd hpos (by decide)

theorem readInteger_eq_append {s rest : Text} {n : Int} (h : readInteger s = some (n, rest)) :
    digits s ≠ [] ∧ s = digits s ++ rest := by
  simp only [readInteger, Option.ite_none_right_eq_some, Option.some.injEq, Prod.mk.injEq] at h
  obtain ⟨⟨hne, _⟩, _, rfl⟩ := h
  exact ⟨hne, (digits_append_afterDigits s).symm⟩

theorem readModifier_eq_append (s : Text) :
    s = (readModifier s).1.mark ++ (readModifier s).2 := by
  unfold readModifier
  split <;> rfl

theorem readDice_eq_append {s rest : Text} {t : DiceTerm} (h : readDice s = some (t, rest)) :
    ∃ lexeme, lexeme ≠ [] ∧ s = lexeme ++ rest := by
  unfold readDice at h
  split at h
  · next n s' hn =>
    unfold readSides at h
    split at h
    · next m s'' hm =>
      obtain ⟨_, hs'⟩ := readCount_eq_append hm
      obtain ⟨hne, hs⟩ := readCount_eq_append hn
      have hmod := readModifier_eq_append s''
      simp only [Option.some.injEq, Prod.mk.injEq] at h
      obtain ⟨_, rfl⟩ := h
      refine ⟨digits s ++ 'd' :: (digits s' ++ (readModifier s'').1.mark), by simp, ?_⟩
      calc s = digits s ++ 'd' :: s' := hs
        _ = digits s ++ 'd' :: (digits s' ++ s'') := by rw [← hs']
        _ = _ := by simp only [List.append_assoc, List.cons_append]; rw [← hmod]
    · cases h
  · cases h

theorem readOperator_eq_append {s rest : Text} {op : Operator}
    (h : readOperator s = some (op, rest)) : s = op.symbol :: rest := by
  unfold readOperator at h
  split at h <;> cases h <;> rfl

theorem readParen_eq_append {s rest : Text} {k : TokenKind} (h : readParen s = some (k, rest)) :
    s = k.display ++ rest := by
  unfold readParen at h
  split at h <;> cases h <;> rfl

/-- A token is read off the front of the text and is not empty. -/
theorem readToken_eq_append {s rest : Text} {k : TokenKind} (h : readToken s = some (k, rest)) :
    ∃ lexeme, lexeme ≠ [] ∧ s = lexeme ++ rest := by
  unfold readToken at h
  split at h
  · next t rest' ht =>
    cases h
    exact readDice_eq_append ht
  · split at h
    · next n rest' hn =>
      cases h
      exact ⟨digits s, readInteger_eq_append hn⟩
    · split at h
      · next op rest' hop =>
        cases h
        exact ⟨[op.symbol], by simp, readOperator_eq_append hop⟩
      · have hs := readParen_eq_append h
        refine ⟨k.display, ?_, hs⟩
        unfold readParen at h
        split at h <;> cases h <;> simp [TokenKind.display]

theorem length_lt_of_readToken {s rest : Text} {k : TokenKind}
    (h : readToken s = some (k, rest)) : rest.length < s.length := by
  obtain ⟨lexeme, hne, rfl⟩ := readToken_eq_append h
  have := List.length_pos_iff.mpr hne
  simp only [List.length_append]
  omega

/-! ### All tokens of a text -/

/-- The part of `s` that was read, when `rest` is left. -/
def consumed (s rest : Text) : Text := s.take (s.length - rest.length)

/-- The tokens of a text. -/
def tokens : Text → List Token
  | [] => []
  | c :: s =>
    match _h : readToken (c :: s) with
    | some (k, rest) => ⟨k, consumed (c :: s) rest⟩ :: tokens rest
    | none => tokens s
termination_by s => s.length
decreasing_by
  · exact length_lt_of_readToken _h
  · exact Nat.lt_succ_self _

/-- Checks that the tokens account for every character of the input that is not blank. -/
def validate (input : Text) (ts : List Token) : Except EvalError Unit :=
  if Text.removeBlanks input = ts.flatMap Token.text then .ok () else .error (.invalidToken input)

end DiceBot.Lexer
