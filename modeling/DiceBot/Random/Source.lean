/-! # Sources of random words

Dice are made from 32-bit words. A source gives one word after another; it also bounds how many words
in a row may be refused for a single die, so that a roll always ends with an answer. `Script` is a
source that plays given words and then zeros; `Metered` counts what is drawn from another source. -/

namespace DiceBot

/-- A source of 32-bit words. -/
class WordSource (σ : Type) where
  /-- The next word, and the source after it. -/
  next : σ → UInt32 × σ
  /-- How many words may be drawn for one die before the roll is given up. -/
  patience : σ → Nat

/-! ### Given words -/

/-- Given words in order, and zeros for ever after them. -/
structure Script where
  words : List UInt32
deriving Repr, DecidableEq

namespace Script

/-- The next word of the script. -/
def next : Script → UInt32 × Script
  | ⟨[]⟩ => (0, ⟨[]⟩)
  | ⟨w :: ws⟩ => (w, ⟨ws⟩)

/-- A zero is never refused, so a die needs at most one word more than the script holds. -/
instance : WordSource Script where
  next := next
  patience s := s.words.length + 1

end Script

/-! ### Counting -/

/-- A source and the number of words drawn from it so far. -/
structure Metered (σ : Type) where
  source : σ
  drawn : Nat := 0
deriving Repr, DecidableEq

/-- The words are those of the source; each counts as one drawn. -/
instance {σ : Type} [WordSource σ] : WordSource (Metered σ) where
  next m :=
    let (w, source) := WordSource.next m.source
    (w, ⟨source, m.drawn + 1⟩)
  patience m := WordSource.patience m.source

end DiceBot
