/-!
# Timestamps

A timestamp is a local date and time together with the offset of that local
time from universal time.  Two timestamps are the same if they name the same
instant, whatever their offsets.  Second 60 names the leap second after second
59 of its minute, and differs from the first second of the next minute.
-/

namespace TokenCodec.Calendar

/-- A local date and time with its offset from universal time, in minutes. -/
structure Timestamp where
  year : Nat
  month : Nat
  day : Nat
  hour : Nat
  minute : Nat
  second : Nat
  nanosecond : Nat
  offset : Int
  deriving DecidableEq, Repr

/-- Leap years have a 29th of February. -/
def isLeapYear (year : Nat) : Bool :=
  year % 4 == 0 && (year % 100 != 0 || year % 400 == 0)

/-- The number of days in a month, and 0 for a number that is no month. -/
def daysInMonth (year month : Nat) : Nat :=
  match month with
  | 1 | 3 | 5 | 7 | 8 | 10 | 12 => 31
  | 4 | 6 | 9 | 11 => 30
  | 2 => if isLeapYear year then 29 else 28
  | _ => 0

/-- The days before the first day of a year, counted from the year 0. -/
def daysBeforeYear (year : Nat) : Nat :=
  365 * year + (year + 3) / 4 - (year + 99) / 100 + (year + 399) / 400

/-- The days of a year before the first day of a month. -/
def daysBeforeMonth (year month : Nat) : Nat :=
  (List.range month).foldl (fun days earlier => days + daysInMonth year earlier) 0

namespace Timestamp

/-- Every field is in its range, and the day exists. -/
def isValid (time : Timestamp) : Bool :=
  time.year ≤ 9999 && 1 ≤ time.day && time.day ≤ daysInMonth time.year time.month &&
    time.hour ≤ 23 && time.minute ≤ 59 && time.second ≤ 60 && time.nanosecond < 1_000_000_000 &&
    time.offset.natAbs < 24 * 60

/-- The minutes between the beginning of the year 0 in universal time and the
minute of the timestamp. -/
def universalMinute (time : Timestamp) : Int :=
  let days := daysBeforeYear time.year + daysBeforeMonth time.year time.month + (time.day - 1)
  ((days * 24 + time.hour) * 60 + time.minute : Nat) - time.offset

/-- The two timestamps name the same instant. -/
def sameInstant (a b : Timestamp) : Bool :=
  a.universalMinute == b.universalMinute && a.second == b.second &&
    a.nanosecond == b.nanosecond

instance : BEq Timestamp := ⟨sameInstant⟩

end Timestamp

end TokenCodec.Calendar
