import SmartDoor.Clock.Segments
import Mathlib.Data.UInt
import Mathlib.Data.Vector.Basic

/-!
# Times and dates

`_libraries/Time` breaks the seconds since 1970 into the fields of a date, and makes seconds of
them. Its variables are as wide as in the source, and an `unsigned` has 16 bits. The array of
the lengths of the months has twelve entries: a month behind the thirteenth makes `makeTime`
read past its end.
-/

namespace SmartDoor.Clock

open Segments

/-- `tmElements_t` -/
structure TmElements where
  Second : UInt8
  Minute : UInt8
  Hour : UInt8
  Wday : UInt8
  Day : UInt8
  Month : UInt8
  Year : UInt8
  deriving DecidableEq, Repr

/-- `LEAP_YEAR(Y)` -/
def leapYear (y : Nat) : Bool :=
  (1970 + y) % 4 = 0 && ((1970 + y) % 100 ≠ 0 || (1970 + y) % 400 = 0)

/-- `LEAP_YEAR(year) ? 366 : 365` -/
def yearLength (y : Nat) : Nat := if leapYear y then 366 else 365

/-- `monthDays` -/
def monthDays : Vector UInt8 12 := #v[31, 28, 31, 30, 31, 30, 31, 31, 30, 31, 30, 31]

/-- `SECS_PER_DAY` -/
abbrev secsPerDay : UInt32 := 86400

/-- The `while` of `breakTime`, if it ends within `left` rounds. -/
def yearLoop (time : UInt32) : Nat → UInt32 → UInt8 → Option (UInt32 × UInt8)
  | 0, _, _ => none
  | left + 1, days, year =>
    let days := days + UInt32.ofNat (yearLength year.toNat)
    if days.toUInt16.toUInt32 ≤ time then yearLoop time left days (year + 1) else some (days, year)

/-- The `for` of `breakTime` from a month on. -/
def monthLoop (year : UInt8) (month : Nat) (time : UInt32) : Nat × UInt32 :=
  if h : month < 12 then
    let monthLength : UInt8 :=
      if month = 1 then (if leapYear year.toNat then 29 else 28) else monthDays[month]
    if monthLength.toUInt32 ≤ time then monthLoop year (month + 1) (time - monthLength.toUInt32)
    else (month, time)
  else (month, time)
termination_by 12 - month

/-- `breakTime(timeInput, tm)`, unless its `while` goes on for more than 256 rounds. -/
def breakTime (timeInput : UInt32) : Option TmElements := do
  let time := timeInput
  let second := time % 60
  let time := time / 60
  let minute := time % 60
  let time := time / 60
  let hour := time % 24
  let time := time / 24
  let wday := (time + 4) % 7 + 1
  let (days, year) ← yearLoop time 256 0 0
  let days := days - UInt32.ofNat (yearLength year.toNat)
  let time := time - days
  let (month, time) := monthLoop year 0 time
  return ⟨second.toUInt8, minute.toUInt8, hour.toUInt8, wday.toUInt8, (time + 1).toUInt8,
    UInt8.ofNat (month + 1), year⟩

/-- The first loop of `makeTime`, from a year on. -/
def leapDays : Nat → Nat → UInt32 → UInt32
  | 0, _, seconds => seconds
  | left + 1, i, seconds =>
    leapDays left (i + 1) (if leapYear i then seconds + secsPerDay else seconds)

/-- The second loop of `makeTime`, from a month on; nothing if it reads past the array. -/
def monthsBefore (year : UInt8) : Nat → Nat → UInt32 → Option UInt32
  | 0, _, seconds => some seconds
  | left + 1, i, seconds =>
    if i = 2 ∧ leapYear year.toNat then monthsBefore year left (i + 1) (seconds + secsPerDay * 29)
    else if h : i - 1 < 12 then
      monthsBefore year left (i + 1) (seconds + secsPerDay * monthDays[i - 1].toUInt32)
    else none

/-- `makeTime(tm)` -/
def makeTime (tm : TmElements) : Option UInt32 := do
  let seconds := tm.Year.toUInt32 * (secsPerDay * 365)
  let seconds := leapDays tm.Year.toNat 0 seconds
  let seconds ← monthsBefore tm.Year (tm.Month.toNat - 1) 1 seconds
  let seconds := seconds + (tm.Day.toUInt32 - 1) * secsPerDay
  let seconds := seconds + tm.Hour.toUInt32 * 3600
  let seconds := seconds + tm.Minute.toUInt32 * 60
  return seconds + tm.Second.toUInt32

end SmartDoor.Clock
