namespace QueryPad.Calendar

-- The proleptic Gregorian calendar, with a year zero before year one.
structure Date where
  year : Int
  month : Nat
  day : Nat
  deriving DecidableEq

def isLeapYear (year : Int) : Bool := year % 4 = 0 && (year % 100 ≠ 0 || year % 400 = 0)

def daysInMonth (year : Int) (month : Nat) : Nat :=
  match month with
  | 2 => if isLeapYear year then 29 else 28
  | 4 | 6 | 9 | 11 => 30
  | _ => 31

-- The years that dates reach.
def firstYear : Int := -262143
def lastYear : Int := 262142

namespace Date

def isValid (date : Date) : Bool :=
  firstYear ≤ date.year && date.year ≤ lastYear && 1 ≤ date.month && date.month ≤ 12 &&
    1 ≤ date.day && date.day ≤ daysInMonth date.year date.month

-- Days from the first of January 1970. Years are counted from March, so that
-- the leap day is the last of its year, and in cycles of 400.
def toDays (date : Date) : Int :=
  let year := if date.month ≤ 2 then date.year - 1 else date.year
  let monthFromMarch : Int := (date.month + 9) % 12
  let era := year / 400
  let yearOfEra := year % 400
  let dayOfYear := (153 * monthFromMarch + 2) / 5 + date.day - 1
  era * 146097 + yearOfEra * 365 + yearOfEra / 4 - yearOfEra / 100 + dayOfYear - 719468

def ofDays (days : Int) : Date :=
  let shifted := days + 719468
  let era := shifted / 146097
  let dayOfEra := shifted % 146097
  let yearOfEra := (dayOfEra - dayOfEra / 1460 + dayOfEra / 36524 - dayOfEra / 146096) / 365
  let dayOfYear := dayOfEra - (365 * yearOfEra + yearOfEra / 4 - yearOfEra / 100)
  let monthFromMarch := (5 * dayOfYear + 2) / 153
  let day := dayOfYear - (153 * monthFromMarch + 2) / 5 + 1
  let month := if monthFromMarch < 10 then monthFromMarch + 3 else monthFromMarch - 9
  let year := yearOfEra + era * 400
  ⟨if month ≤ 2 then year + 1 else year, month.toNat, day.toNat⟩

-- Sunday is 0. The first of January 1970 was a Thursday.
def weekday (date : Date) : Nat := ((date.toDays + 4) % 7).toNat

end Date

-- A moment to the nanosecond. In a leap second the nanoseconds go on past a
-- thousand million.
structure Instant where
  -- Seconds from the start of 1970.
  seconds : Int
  nanos : Nat
  deriving DecidableEq

namespace Instant

def millis (instant : Instant) : Int := instant.seconds * 1000 + instant.nanos / 1000000

def date (instant : Instant) : Date := .ofDays (instant.seconds / 86400)

-- Whether the calendar reaches it.
def isInRange (instant : Instant) : Bool :=
  (⟨firstYear, 1, 1⟩ : Date).toDays * 86400 ≤ instant.seconds &&
    instant.seconds < ((⟨lastYear, 12, 31⟩ : Date).toDays + 1) * 86400

def ofDate (date : Date) : Instant := ⟨date.toDays * 86400, 0⟩

end Instant

end QueryPad.Calendar
