import QueryPad.Calendar.Date
import QueryPad.Text.Letter

namespace QueryPad.Calendar

open Text

-- One part of a written date. Fractions of a second keep all their digits on
-- reading and have three on writing.
inductive Part where
  | year | month | day | hour | minute | second
  | fraction | weekdayName | monthName | zone
  | blank
  | text (chars : List Char)
  deriving DecidableEq

abbrev Layout := List Part

def weekdayNames : List (List Char) :=
  ["Sun", "Mon", "Tue", "Wed", "Thu", "Fri", "Sat"].map String.toList

def monthNames : List (List Char) :=
  ["Jan", "Feb", "Mar", "Apr", "May", "Jun", "Jul", "Aug", "Sep", "Oct", "Nov", "Dec"].map
    String.toList

namespace Layout

-- 2024-01-31T10:20
def minutes : Layout :=
  [.year, .text ['-'], .month, .text ['-'], .day, .text ['T'], .hour, .text [':'], .minute]

def seconds : Layout := minutes ++ [.text [':'], .second]

def fractions : Layout := seconds ++ [.fraction]

def days : Layout := [.year, .text ['-'], .month, .text ['-'], .day]

-- 2024-01-31T10:20:30.400Z
def iso : Layout := fractions ++ [.text ['Z']]

-- Wed Jan 31 2024 10:20:30 GMT
def verbose : Layout :=
  [.weekdayName, .blank, .monthName, .blank, .day, .blank, .year, .blank,
    .hour, .text [':'], .minute, .text [':'], .second, .blank, .text "GMT".toList]

-- Wed Jan 31 2024 10:20:30 GMT+0000 (Coordinated Universal Time)
def verboseUniversal : Layout :=
  verbose ++ [.text "+0000 (Coordinated Universal Time)".toList]

end Layout

def padded (width n : Nat) : List Char :=
  let digits := Nat.toDigits 10 n
  List.replicate (width - digits.length) '0' ++ digits

-- Years of other than four digits have a sign.
def writeYear (year : Int) : List Char :=
  if 0 ≤ year && year ≤ 9999 then padded 4 year.toNat
  else (if year < 0 then '-' else '+') :: padded 4 year.natAbs

def Part.write (instant : Instant) (part : Part) : List Char :=
  let date := instant.date
  let second := (instant.seconds % 86400).toNat
  match part with
  | year => writeYear date.year
  | month => padded 2 date.month
  | day => padded 2 date.day
  | hour => padded 2 (second / 3600)
  | minute => padded 2 (second / 60 % 60)
  | .second => padded 2 (second % 60 + instant.nanos / 1000000000)
  | fraction => '.' :: padded 3 (instant.nanos % 1000000000 / 1000000)
  | weekdayName => weekdayNames.getD date.weekday []
  | monthName => monthNames.getD (date.month - 1) []
  | zone => "+0000".toList
  | blank => [' ']
  | text chars => chars

-- The instant in universal time.
def Layout.write (layout : Layout) (instant : Instant) : String :=
  String.ofList (layout.flatMap (·.write instant))

end QueryPad.Calendar
