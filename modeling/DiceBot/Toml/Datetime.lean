import DiceBot.Text.Basic

/-! # Dates and times

A date, a time of day or both, with an offset from universal time if both are there. The calendar is
not looked at beyond the ranges of the single fields. -/

namespace DiceBot

/-- A day: year, month from 1 to 12, day from 1 to 31. -/
structure CalendarDate where
  year : Nat
  month : Nat
  day : Nat
deriving Repr, DecidableEq

/-- A time of day, to the nanosecond. -/
structure ClockTime where
  hour : Nat
  minute : Nat
  second : Nat
  nanosecond : Nat
deriving Repr, DecidableEq

/-- The distance from universal time: none, or hours of either sign and minutes. -/
inductive TimeOffset where
  | utc
  | custom (hours : Int) (minutes : Nat)
deriving Repr, DecidableEq

/-- A date, a time, or both. -/
structure Datetime where
  date : Option CalendarDate
  time : Option ClockTime
  offset : Option TimeOffset
deriving Repr, DecidableEq

namespace Datetime

/-! ### Writing -/

/-- A number with zeros in front, to at least `width` digits. -/
def padded (width n : Nat) : Text :=
  List.replicate (width - (Text.ofNat n).length) '0' ++ Text.ofNat n

/-- Year, month and day, with hyphens between. -/
def dateText (d : CalendarDate) : Text :=
  padded 4 d.year ++ '-' :: padded 2 d.month ++ '-' :: padded 2 d.day

/-- The decimal places of a second, without zeros at the end. -/
def fractionText (nanosecond : Nat) : Text :=
  if nanosecond = 0 then []
  else '.' :: ((padded 9 nanosecond).reverse.dropWhile (· = '0')).reverse

/-- Hour, minute and second, with colons between, and the decimal places if there are any. -/
def timeText (t : ClockTime) : Text :=
  padded 2 t.hour ++ ':' :: padded 2 t.minute ++ ':' :: padded 2 t.second ++
    fractionText t.nanosecond

/-- The letter `Z`, or a sign, hours and minutes. -/
def offsetText : TimeOffset → Text
  | .utc => ['Z']
  | .custom hours minutes =>
    (if hours < 0 then '-' else '+') :: padded 2 hours.natAbs ++ ':' :: padded 2 minutes

/-- The text of a part that may be absent. -/
def partText {α : Type} (f : α → Text) (part : Option α) : Text := (part.map f).getD []

/-- The date and time as it is written. -/
def display (d : Datetime) : Text :=
  partText dateText d.date ++ (if d.date.isSome && d.time.isSome then ['T'] else []) ++
    partText timeText d.time ++ partText offsetText d.offset

/-! ### Reading -/

/-- A number of exactly two digits. -/
def readTwo : Text → Option (Nat × Text)
  | a :: b :: s =>
    if a.isDigit && b.isDigit then some (Text.digitsValue [a, b], s) else none
  | _ => none

/-- A number of exactly four digits. -/
def readFour (s : Text) : Option (Nat × Text) := do
  let (a, s) ← readTwo s
  let (b, s) ← readTwo s
  return (a * 100 + b, s)

/-- The rest of the text after a character. -/
def expect (c : Char) : Text → Option Text
  | [] => none
  | x :: s => if x = c then some s else none

/-- A date. -/
def readDate (s : Text) : Option (CalendarDate × Text) := do
  let (year, s) ← readFour s
  let (month, s) ← readTwo (← expect '-' s)
  let (day, s) ← readTwo (← expect '-' s)
  if 1 ≤ month ∧ month ≤ 12 ∧ 1 ≤ day ∧ day ≤ 31 then some (⟨year, month, day⟩, s) else none

/-- The nanoseconds of decimal places; those after the ninth do not count. -/
def nanoseconds (places : Text) : Nat :=
  Text.digitsValue (places.take 9) * Nat.pow 10 (9 - places.length)

/-- A point and decimal places, or nothing. -/
def readFraction : Text → Option (Nat × Text)
  | '.' :: s =>
    let places := s.takeWhile Char.isDigit
    if places = [] then none else some (nanoseconds places, s.dropWhile Char.isDigit)
  | s => some (0, s)

/-- A time of day. -/
def readTime (s : Text) : Option (ClockTime × Text) := do
  let (hour, s) ← readTwo s
  let (minute, s) ← readTwo (← expect ':' s)
  let (second, s) ← readTwo (← expect ':' s)
  let (nanosecond, s) ← readFraction s
  if hour ≤ 24 ∧ minute ≤ 59 ∧ second ≤ 59 then some (⟨hour, minute, second, nanosecond⟩, s)
  else none

/-- Hours and minutes of an offset. -/
def readHours (sign : Int) (s : Text) : Option (TimeOffset × Text) := do
  let (hours, s) ← readTwo s
  let (minutes, s) ← readTwo (← expect ':' s)
  return (.custom (sign * hours) minutes, s)

/-- All of the text as an offset, which may be absent. -/
def readOffset? : Text → Option (Option TimeOffset)
  | [] => some none
  | ['Z'] | ['z'] => some (some .utc)
  | '+' :: s =>
    match readHours 1 s with
    | some (o, []) => some (some o)
    | _ => none
  | '-' :: s =>
    match readHours (-1) s with
    | some (o, []) => some (some o)
    | _ => none
  | _ => none

/-- What follows the date: nothing, or the mark of a time and the time with its offset. -/
def afterDate? (date : CalendarDate) : Text → Option Datetime
  | [] => some ⟨some date, none, none⟩
  | mark :: s =>
    if mark = 'T' ∨ mark = 't' ∨ mark = ' ' then do
      let (time, s) ← readTime s
      return ⟨some date, some time, ← readOffset? s⟩
    else none

/-- All of the text as a date and time. -/
def ofText? (s : Text) : Option Datetime :=
  match s with
  | _ :: _ :: ':' :: _ =>
    match readTime s with
    | some (time, []) => some ⟨none, some time, none⟩
    | _ => none
  | _ =>
    match readDate s with
    | some (date, s) => afterDate? date s
    | none => none

end Datetime

end DiceBot
