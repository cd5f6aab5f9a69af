import DiceBot.Dice.Term
import DiceBot.Random.Source

/-! # Rolling dice

A word `w` gives a die with `S` sides by the product `w * S`: its upper 32 bits are one of `S` faces,
and the word is refused if the lower 32 bits lie beyond the last full group of `S` outcomes, so that
all faces come from equally many words. Refused words are drawn again.

`Rolling` is a computation that draws words and may fail; what has been drawn stays drawn when it
fails. It has no answer at all only if a source runs out of patience. -/

namespace DiceBot

/-- A computation that draws words from a source and may fail with an error. -/
abbrev Rolling (σ : Type) := ExceptT EvalError (StateT σ Option)

/-- A result for which nothing is drawn. -/
def Rolling.ofExcept {σ α : Type} (r : Except EvalError α) : Rolling σ α := ExceptT.mk (pure r)

/-! ### One die -/

/-- The number of 32-bit words, `2^32`. -/
def wordCount : Nat := 0x100000000

/-- How many of the low halves are refused. -/
def refusedCount (sides : UInt32) : Nat := (wordCount - sides.toNat) % sides.toNat

/-- The face that the word `w` gives a die, unless `w` is refused. -/
def face? (sides w : UInt32) : Option UInt32 :=
  let p := w.toNat * sides.toNat
  if p % wordCount ≤ wordCount - 1 - refusedCount sides then
    some (UInt32.ofNat (1 + p / wordCount))
  else none

/-- The first face among the next `n` words, and the source after its word. -/
def faceWithin {σ : Type} [WordSource σ] (sides : UInt32) : Nat → σ → Option (UInt32 × σ)
  | 0, _ => none
  | n + 1, g =>
    match WordSource.next g with
    | (w, g) =>
      match face? sides w with
      | some f => some (f, g)
      | none => faceWithin sides n g

/-- One die. -/
def die {σ : Type} [WordSource σ] (sides : UInt32) : StateT σ Option UInt32 :=
  fun g => faceWithin sides (WordSource.patience g) g

/-! ### A dice term -/

namespace DiceTerm

/-- The dice of a term in the order they fall. -/
def dice {σ : Type} [WordSource σ] (t : DiceTerm) : StateT σ Option (List UInt32) :=
  (List.replicate t.repeats.toNat t.sides).mapM die

/-- The sum of dice. -/
def diceSum (results : List UInt32) : Nat := results.foldr (fun d n => d.toNat + n) 0

/-- What the dice of a term come to: their sum, the highest or the lowest of them. -/
def total (t : DiceTerm) (results : List UInt32) : Except EvalError Int :=
  match t.modifier with
  | .none => checked (diceSum results)
  | .highest => .ok (((results.map UInt32.toNat).max?.getD 0 : Nat) : Int)
  | .lowest => .ok (((results.map UInt32.toNat).min?.getD 0 : Nat) : Int)

/-- Rolls the term: its total and every die. A term without dice or without sides is no token. -/
def roll {σ : Type} [WordSource σ] (t : DiceTerm) : Rolling σ (Int × List UInt32) := do
  if t.repeats = 0 ∨ t.sides = 0 then
    throw (.invalidToken t.display)
  else
    let results ← ExceptT.lift t.dice
    let value ← Rolling.ofExcept (t.total results)
    pure (value, results)

end DiceTerm

end DiceBot
