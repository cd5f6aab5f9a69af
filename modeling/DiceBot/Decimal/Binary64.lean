/-! # Binary floating-point numbers

A floating-point number is kept as the 64 bits of the binary64 format: a sign, eleven bits of
exponent and 52 bits of fraction. A decimal number is rounded to the nearest one, and to the even
neighbour where it lies halfway between two. -/

namespace DiceBot

/-- A floating-point number by its bits. -/
structure Binary64 where
  bits : UInt64
deriving Repr, DecidableEq

namespace Binary64

/-! ### Special numbers -/

/-- The first number beyond the fraction: `2^52`. -/
def fractionUnit : Nat := 0x10000000000000

/-- The sign bit: `2^63`. -/
def signUnit : Nat := 0x8000000000000000

/-- The magnitude that stands for infinity; greater ones are no numbers. -/
def infiniteMagnitude : Nat := 2047 * fractionUnit

/-- The number with this sign and these 63 bits of exponent and fraction. -/
def ofMagnitude (negative : Bool) (magnitude : Nat) : Binary64 :=
  ⟨UInt64.ofNat ((if negative then signUnit else 0) + magnitude)⟩

/-- Positive or negative infinity. -/
def infinity (negative : Bool) : Binary64 := ofMagnitude negative infiniteMagnitude

/-- The value that is no number, with either sign. -/
def nan (negative : Bool) : Binary64 := ofMagnitude negative (infiniteMagnitude + fractionUnit / 2)

/-- Whether the sign bit is set. -/
def isNegative (x : Binary64) : Bool := signUnit ≤ x.bits.toNat

/-- The bits without the sign. -/
def magnitude (x : Binary64) : Nat := x.bits.toNat % signUnit

/-- Whether the value is no number. -/
def isNaN (x : Binary64) : Bool := infiniteMagnitude < x.magnitude

/-- Whether the value is infinite. -/
def isInfinite (x : Binary64) : Bool := x.magnitude = infiniteMagnitude

/-- Whether the value is a number. -/
def isFinite (x : Binary64) : Bool := x.magnitude < infiniteMagnitude

/-- Whether the value is zero, of either sign. -/
def isZero (x : Binary64) : Bool := x.magnitude = 0

/-! ### Exact values -/

/-- The whole number `m` such that a finite value is `m * 2 ^ x.exponent`, apart from its sign. -/
def significand (x : Binary64) : Nat :=
  if x.magnitude < fractionUnit then x.magnitude
  else fractionUnit + x.magnitude % fractionUnit

/-- The power of two that the significand of a finite value counts. -/
def exponent (x : Binary64) : Int :=
  if x.magnitude < fractionUnit then -1074 else (x.magnitude / fractionUnit : Nat) - 1075

/-- The fraction `num / den` times `base ^ k`. -/
def scaled (base num den : Nat) (k : Int) : Nat × Nat :=
  if 0 ≤ k then (num * Nat.pow base k.toNat, den) else (num, den * Nat.pow base (-k).toNat)

/-- A finite value as a fraction, apart from its sign. -/
def ratio (x : Binary64) : Nat × Nat := scaled 2 x.significand 1 x.exponent

/-! ### Rounding -/

/-- The whole number nearest to `num / den`; the even one if two are. -/
def roundHalfEven (num den : Nat) : Nat :=
  let q := num / den
  let twice := 2 * (num % den)
  if twice < den then q
  else if den < twice then q + 1
  else if q % 2 = 0 then q else q + 1

/-- The greatest `e` such that `2 ^ e ≤ num / den`, for positive numbers. -/
def log2Ratio (num den : Nat) : Int :=
  let e : Int := (num.log2 : Int) - den.log2
  let (n, d) := scaled 2 num den (-e)
  if d ≤ n then e else e - 1

/-- The floating-point number nearest to the positive fraction `num / den`. -/
def ofRatio (negative : Bool) (num den : Nat) : Binary64 :=
  let q := max (log2Ratio num den - 52) (-1074)
  let (n, d) := scaled 2 num den (-q)
  let magnitude := (q + 1074).toNat * fractionUnit + roundHalfEven n d
  ofMagnitude negative (min magnitude infiniteMagnitude)

/-- The floating-point number nearest to `digits * 10 ^ k`. Numbers of a thousand decimal places and
more are out of reach of the format and decided without being computed. -/
def ofDecimal (negative : Bool) (digits : Nat) (k : Int) : Binary64 :=
  let size : Int := (Nat.toDigits 10 digits).length + k
  if digits = 0 ∨ size < -1000 then ofMagnitude negative 0
  else if 1000 < size then infinity negative
  else
    let (n, d) := scaled 10 digits 1 k
    ofRatio negative n d

end Binary64

end DiceBot
