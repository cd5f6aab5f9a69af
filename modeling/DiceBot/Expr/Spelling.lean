import DiceBot.Expr.Token
import DiceBot.Text.Blank

/-! # Spelling tokens

The texts that stand for a token, said without a reader. A number may be written with zeros in front.
`IsCut s ts` says that the text `s` is made of the tokens `ts` in order and of blanks; two numbers never
stand next to each other without a blank between them, for they would be one number. -/

namespace DiceBot

/-- A run of digits for a number of dice or of sides. -/
structure IsCount (ds : Text) (n : UInt32) : Prop where
  isDigit : ∀ c ∈ ds, c.isDigit
  value : Text.digitsValue ds = n.toNat
  pos : 0 < n.toNat

/-- A text that stands for a token of this kind. -/
inductive Spells : TokenKind → Text → Prop where
  | integer {ds : Text} : ds ≠ [] → (∀ c ∈ ds, c.isDigit) → (Text.digitsValue ds : Int) ≤ maxValue →
      Spells (.operand (.integer (Text.digitsValue ds))) ds
  | dice {ds es : Text} {n m : UInt32} (k : Modifier) : IsCount ds n → IsCount es m →
      Spells (.operand (.dice ⟨n, m, k⟩)) (ds ++ 'd' :: es ++ k.mark)
  | operator (op : Operator) : Spells (.operator op) [op.symbol]
  | leftParen : Spells .leftParen ['(']
  | rightParen : Spells .rightParen [')']

/-- Whether a text begins with a digit. -/
def startsWithDigit : Text → Bool
  | [] => false
  | c :: _ => c.isDigit

/-- Whether a text ends in a digit. -/
def endsWithDigit (s : Text) : Bool := startsWithDigit s.reverse

/-- The text consists of these tokens and of blanks. -/
inductive IsCut : Text → List Token → Prop where
  | nil : IsCut [] []
  | blank {c : Char} {s : Text} {ts : List Token} : Text.isBlank c → IsCut s ts → IsCut (c :: s) ts
  | token {k : TokenKind} {x s : Text} {ts : List Token} : Spells k x →
      ¬(endsWithDigit x ∧ startsWithDigit s) → IsCut s ts → IsCut (x ++ s) (⟨k, x⟩ :: ts)

theorem Spells.ne_nil {k : TokenKind} {x : Text} (h : Spells k x) : x ≠ [] := by
  cases h <;> simp_all

/-- No character of a token is blank. -/
theorem Spells.isBlank_eq_false {k : TokenKind} {x : Text} (h : Spells k x) :
    ∀ c ∈ x, Text.isBlank c = false := by
  intro c hc
  cases h with
  | integer _ hd _ => exact Text.isBlank_of_isDigit (hd c hc)
  | dice k hn hm =>
    simp only [List.mem_append, List.mem_cons] at hc
    rcases hc with (hc | rfl | hc) | hc
    · exact Text.isBlank_of_isDigit (hn.isDigit c hc)
    · exact Text.isBlank_of_visible (by decide) (by decide)
    · exact Text.isBlank_of_isDigit (hm.isDigit c hc)
    · cases k <;> simp only [Modifier.mark, List.mem_singleton, List.not_mem_nil] at hc <;>
        subst hc <;> exact Text.isBlank_of_visible (by decide) (by decide)
  | operator op =>
    obtain rfl := List.mem_singleton.mp hc
    cases op <;> exact Text.isBlank_of_visible (by decide) (by decide)
  | leftParen =>
    obtain rfl := List.mem_singleton.mp hc
    exact Text.isBlank_of_visible (by decide) (by decide)
  | rightParen =>
    obtain rfl := List.mem_singleton.mp hc
    exact Text.isBlank_of_visible (by decide) (by decide)

/-- The tokens of a cut account for all of the text but its blanks. -/
theorem IsCut.removeBlanks_eq {s : Text} {ts : List Token} (h : IsCut s ts) :
    Text.removeBlanks s = ts.flatMap Token.text := by
  induction h with
  | nil => rfl
  | blank hb _ ih => simpa [Text.removeBlanks, hb] using ih
  | token hk _ _ ih =>
    have hx : Text.removeBlanks _ = _ := List.filter_eq_self.mpr fun c hc => by
      rw [hk.isBlank_eq_false c hc]; rfl
    rw [List.flatMap_cons, ← ih]
    simp only [Text.removeBlanks, List.filter_append] at hx ⊢
    rw [hx]

end DiceBot
