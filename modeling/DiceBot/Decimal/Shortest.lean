import DiceBot.Decimal.Binary64
import DiceBot.Text.Basic

/-! # The shortest decimal

A floating-point number is written with the fewest digits that read back as the same number, and
among those with the digits nearest to it. For one digit, two digits and so on the two neighbours of
the value on that decimal grid are tried; the first grid with a hit wins, the nearer of two hits, and
the greater if both are equally near. -/

namespace DiceBot.Binary64

/-- A decimal number `digits * 10 ^ exponent`. -/
structure Decimal where
  digits : Nat
  exponent : Int
deriving Repr, DecidableEq

/-- The greatest `e` such that `10 ^ e ≤ num / den`, for a fraction that is at least one or is not the
inverse of a power of ten. -/
def log10Ratio (num den : Nat) : Int :=
  if den ≤ num then (Nat.toDigits 10 (num / den)).length - 1
  else -((Nat.toDigits 10 (den / num)).length : Int)

/-- The decimal reads back as `x`, apart from its sign. -/
def readsBack (x : Binary64) (d : Decimal) : Bool :=
  (ofDecimal false d.digits d.exponent).magnitude = x.magnitude

/-- The decimal for `x` in multiples of `10 ^ k`, if one of the two neighbours of `x` reads back. -/
def onGrid? (x : Binary64) (k : Int) : Option Decimal :=
  let (n, d) := scaled 10 x.ratio.1 x.ratio.2 (-k)
  let below : Decimal := ⟨n / d, k⟩
  let above : Decimal := ⟨n / d + 1, k⟩
  match readsBack x below, readsBack x above with
  | true, true => some (if 2 * (n % d) < d then below else above)
  | true, false => some below
  | false, true => some above
  | false, false => none

/-- The exact value of `x` as a decimal number. -/
def exactDecimal (x : Binary64) : Decimal :=
  if 0 ≤ x.exponent then ⟨x.significand * Nat.pow 2 x.exponent.toNat, 0⟩
  else ⟨x.significand * Nat.pow 5 (-x.exponent).toNat, x.exponent⟩

/-- The shortest decimal of a positive finite number. Seventeen digits always suffice. -/
def shortest (x : Binary64) : Decimal :=
  let e := log10Ratio x.ratio.1 x.ratio.2
  ((List.range 17).findSome? fun (i : Nat) => onGrid? x (e - i)).getD x.exactDecimal

/-- The decimal with the zeros at the end of its digits taken into its exponent. -/
def Decimal.trimmed (d : Decimal) : Decimal :=
  let zeros := ((Text.ofNat d.digits).reverse.takeWhile (· = '0')).length
  if d.digits = 0 then d else ⟨d.digits / Nat.pow 10 zeros, d.exponent + zeros⟩

/-- A decimal in positional form: without a point if it is whole. -/
def Decimal.positional (d : Decimal) : Text :=
  let d := d.trimmed
  let ds := Text.ofNat d.digits
  if 0 ≤ d.exponent then ds ++ List.replicate d.exponent.toNat '0'
  else
    let places := (-d.exponent).toNat
    let padded := List.replicate (places + 1 - ds.length) '0' ++ ds
    padded.take (padded.length - places) ++ '.' :: padded.drop (padded.length - places)

/-- Whether a decimal is a whole number. -/
def Decimal.isWhole (d : Decimal) : Bool := 0 ≤ d.trimmed.exponent

end DiceBot.Binary64
