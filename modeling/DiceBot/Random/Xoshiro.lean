import DiceBot.Random.Source

/-! # The xoshiro256++ generator

Four 64-bit words of state, filled from a 64-bit seed by SplitMix64. Each step gives a 64-bit result,
of which the upper half is the word drawn. -/

namespace DiceBot

/-- One output of SplitMix64 and the counter after it. -/
def splitMix (counter : UInt64) : UInt64 × UInt64 :=
  let x := counter + 0x9e3779b97f4a7c15
  let z := (x ^^^ (x >>> 30)) * 0xbf58476d1ce4e5b9
  let z := (z ^^^ (z >>> 27)) * 0x94d049bb133111eb
  (z ^^^ (z >>> 31), x)

/-- `x` with its bits rotated to the left by `k` places, for `0 < k < 64`. -/
def rotateLeft (x k : UInt64) : UInt64 := (x <<< k) ||| (x >>> (64 - k))

/-- The state of the generator. -/
structure Xoshiro where
  s0 : UInt64
  s1 : UInt64
  s2 : UInt64
  s3 : UInt64
deriving Repr, DecidableEq

namespace Xoshiro

/-- The generator whose state is the first four outputs of SplitMix64 from the seed. -/
def ofSeed (seed : UInt64) : Xoshiro :=
  let (s0, x) := splitMix seed
  let (s1, x) := splitMix x
  let (s2, x) := splitMix x
  let (s3, _) := splitMix x
  ⟨s0, s1, s2, s3⟩

/-- The 64-bit result of a step. -/
def result (g : Xoshiro) : UInt64 := rotateLeft (g.s0 + g.s3) 23 + g.s0

/-- The state after a step. -/
def step (g : Xoshiro) : Xoshiro :=
  let s2 := g.s2 ^^^ g.s0
  let s3 := g.s3 ^^^ g.s1
  ⟨g.s0 ^^^ s3, g.s1 ^^^ s2, s2 ^^^ (g.s1 <<< 17), rotateLeft s3 45⟩

/-- The patience is far beyond what any die needs: a word is refused less than half of the time. -/
instance : WordSource Xoshiro where
  next g := ((g.result >>> 32).toUInt32, g.step)
  patience _ := 0x4000000000000000

end Xoshiro

end DiceBot
