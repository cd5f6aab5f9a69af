import DiceBot.Dice.Value

/-! # Dice terms

A dice term `NdS` stands for the sum of `N` dice with `S` sides each; `NdS!` keeps only the highest
die and `NdS?` only the lowest. -/

namespace DiceBot

/-- Which dice of a term count. -/
inductive Modifier where
  /-- All of them. -/
  | none
  | highest
  | lowest
deriving Repr, DecidableEq

/-- The mark of a modifier at the end of a term. -/
def Modifier.mark : Modifier → Text
  | .none => []
  | .highest => ['!']
  | .lowest => ['?']

/-- A number of equal dice and a modifier. -/
structure DiceTerm where
  repeats : UInt32
  sides : UInt32
  modifier : Modifier
deriving Repr, DecidableEq

namespace DiceTerm

/-- The term as it is written. -/
def display (t : DiceTerm) : Text :=
  Text.ofNat t.repeats.toNat ++ 'd' :: Text.ofNat t.sides.toNat ++ t.modifier.mark

/-- The least total of the term. -/
def least (t : DiceTerm) : Int :=
  match t.modifier with
  | .none => t.repeats.toNat
  | .highest | .lowest => 1

/-- The greatest total of the term, capped at the largest value. -/
def greatest (t : DiceTerm) : Int :=
  match t.modifier with
  | .none => min ((t.repeats.toNat : Int) * t.sides.toNat) maxValue
  | .highest | .lowest => t.sides.toNat

end DiceTerm

end DiceBot
