/-
# The clock a script reads

An instant is a number of nanoseconds since the start of 1970, and a clock
knows how far its zone is ahead of universal time. Sleeping is the only thing
that moves it.
-/
import Playscript.Number.Binary

namespace Playscript

/-- An instant, and the zone's lead on universal time in seconds. -/
structure Clock where
  nanoseconds : Nat
  lead : Int
deriving DecidableEq, Repr

namespace Clock

/-- Nanoseconds in a second. -/
def second : Nat := 1000000000

/-- Whole seconds since the start of 1970. -/
def seconds (c : Clock) : Nat := c.nanoseconds / second

/-- A number in decimal with at least `width` digits. -/
def padded (width n : Nat) : String :=
  let ds := Nat.toDigits 10 n
  String.ofList (List.replicate (width - ds.length) '0' ++ ds)

/-- Days from the first of March of the year 0 to the start of 1970. -/
def daysBefore1970 : Nat := 719468

/-- The calendar day of a number of days since the start of 1970, as year, month
and day. Years are counted from March, so that a leap day is the last of its year;
146097 days make four hundred years. -/
def civil (days : Nat) : Nat × Nat × Nat :=
  let z := days + daysBefore1970
  let era := z / 146097
  let dayOfEra := z % 146097
  let yearOfEra := (dayOfEra - dayOfEra / 1460 + dayOfEra / 36524 - dayOfEra / 146096) / 365
  let dayOfYear := dayOfEra - (365 * yearOfEra + yearOfEra / 4 - yearOfEra / 100)
  let m := (5 * dayOfYear + 2) / 153
  let day := dayOfYear - (153 * m + 2) / 5 + 1
  let month := if m < 10 then m + 3 else m - 9
  (yearOfEra + 400 * era + (if month ≤ 2 then 1 else 0), month, day)

/-- The calendar day in the clock's zone, as `YYYY-MM-DD`. -/
def date (c : Clock) : String :=
  let (year, month, day) := civil (((c.seconds : Int) + c.lead) / 86400).toNat
  padded 4 year ++ "-" ++ padded 2 month ++ "-" ++ padded 2 day

/-- The nanoseconds of a number of milliseconds; nothing for what is negative, not a number,
or longer than the longest sleep, `2 ^ 64` seconds. -/
def duration? (milliseconds : Float) : Option Nat :=
  if milliseconds < 0 || !milliseconds.isFinite then none
  else
    let s := Number.Scaled.ofFloat milliseconds
    let r := Number.Ratio.ofScaled (s.significand * 1000000) s.exponent
    let n := r.num / r.den
    if n < Nat.pow 2 64 * second then some n else none

/-- The clock after a sleep. -/
def sleep (c : Clock) (milliseconds : Float) : Clock :=
  { c with nanoseconds := c.nanoseconds + (duration? milliseconds).getD 0 }

end Clock

end Playscript
