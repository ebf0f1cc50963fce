import Rephrase.Fault

/-!
Points in time, in seconds since the start of 1970 in universal time, and the calendar around them.
-/

namespace Rephrase

/-- A point in time. From a billion nanoseconds on they belong to a leap second, which follows the
second that is given. -/
structure Instant where
  seconds : Int
  nanos : Nat
  deriving DecidableEq, Repr

namespace Instant

def before (a b : Instant) : Bool :=
  a.seconds < b.seconds || (a.seconds = b.seconds && a.nanos < b.nanos)

end Instant

namespace Calendar

structure Date where
  year : Int
  month : Nat
  day : Nat
  deriving DecidableEq, Repr

def isLeap (year : Int) : Bool :=
  year % 4 = 0 && (year % 100 ≠ 0 || year % 400 = 0)

def daysOf (year : Int) (month : Nat) : Nat :=
  if month = 2 then if isLeap year then 29 else 28
  else if month = 4 || month = 6 || month = 9 || month = 11 then 30
  else 31

def firstYear : Int := -262143

def lastYear : Int := 262142

def Date.isValid (date : Date) : Bool :=
  firstYear ≤ date.year && date.year ≤ lastYear && 1 ≤ date.month && date.month ≤ 12 &&
    1 ≤ date.day && date.day ≤ daysOf date.year date.month

/-- The number of days from the start of 1970 to a date. -/
def Date.toDays (date : Date) : Int :=
  -- Years are counted from March on, so that the day that leap years add is their last.
  let year := if date.month ≤ 2 then date.year - 1 else date.year
  let monthIndex : Int := (date.month + 9) % 12
  let dayOfYear := (153 * monthIndex + 2) / 5 + date.day - 1
  365 * year + year / 4 - year / 100 + year / 400 + dayOfYear - 719468

/-- The date so many days after the start of 1970. -/
def Date.ofDays (days : Int) : Date :=
  let shifted := days + 719468
  -- The calendar comes round every 400 years.
  let era := shifted / 146097
  let dayOfEra := shifted % 146097
  let yearOfEra :=
    (dayOfEra - dayOfEra / 1460 + dayOfEra / 36524 - dayOfEra / 146096) / 365
  let dayOfYear := dayOfEra - (365 * yearOfEra + yearOfEra / 4 - yearOfEra / 100)
  let monthIndex := (5 * dayOfYear + 2) / 153
  let day := dayOfYear - (153 * monthIndex + 2) / 5 + 1
  let month := (monthIndex + 2) % 12 + 1
  let year := yearOfEra + 400 * era
  ⟨if month ≤ 2 then year + 1 else year, month.toNat, day.toNat⟩

def daySeconds : Int := 86400

def firstSecond : Int := (Date.mk firstYear 1 1).toDays * daySeconds

def endSecond : Int := (Date.mk (lastYear + 1) 1 1).toDays * daySeconds

def covers (seconds : Int) : Bool :=
  firstSecond ≤ seconds && seconds < endSecond

end Calendar

namespace Instant

/-- The longest span of time that can be counted in milliseconds, in seconds. -/
def longestSpan : Int := 0x7fffffffffffffff / 1000

def spanOfSeconds (seconds : Int) : Except Fault Int :=
  if -longestSpan ≤ seconds && seconds ≤ longestSpan then .ok seconds else .error .badTime

def spanOfHours (hours : Int) : Except Fault Int :=
  spanOfSeconds (hours * 3600)

def after (start : Instant) (span : Int) : Except Fault Instant :=
  if Calendar.covers (start.seconds + span) then .ok ⟨start.seconds + span, start.nanos⟩
  else .error .badTime

end Instant

end Rephrase
