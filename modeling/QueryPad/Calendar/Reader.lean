import QueryPad.Calendar.Format

namespace QueryPad.Calendar

open Text

-- The parts of a date as they were read.
structure Fields where
  year : Option Int := none
  month : Option Nat := none
  day : Option Nat := none
  weekday : Option Nat := none
  hour : Nat := 0
  minute : Nat := 0
  second : Nat := 0
  nanos : Nat := 0
  -- Seconds east of universal time.
  offset : Int := 0

def skipBlanks (cs : List Char) : List Char := cs.dropWhile isBlank

def digitsValue (digits : List Char) : Nat :=
  digits.foldl (fun total c => total * 10 + (c.toNat - 48)) 0

-- A number of so many digits at least and at most.
def readNumber (least most : Nat) (cs : List Char) : Option (Nat × List Char) :=
  let digits := (cs.take most).takeWhile Char.isDigit
  if digits.length < least then none else some (digitsValue digits, cs.drop digits.length)

-- With a sign a year may have any number of digits.
def readYear (cs : List Char) : Option (Int × List Char) :=
  match cs with
  | '-' :: rest => (readNumber 1 rest.length rest).map fun (n, rest) => (-n, rest)
  | '+' :: rest => (readNumber 1 rest.length rest).map fun (n, rest) => (n, rest)
  | cs => (readNumber 1 4 cs).map fun (n, rest) => (n, rest)

-- Digits after a point. Those beyond the ninth are dropped.
def readNanos (cs : List Char) : Option (Nat × List Char) := do
  let digits := cs.takeWhile Char.isDigit
  guard (digits ≠ [])
  let kept := digits.take 9
  return (digitsValue kept * Nat.pow 10 (9 - kept.length), cs.drop digits.length)

-- The place of the name that the text starts with, in any case of letters.
def readName (names : List (List Char)) (cs : List Char) : Option (Nat × List Char) :=
  let lower (cs : List Char) := cs.map Char.toLower
  (names.findIdx? fun name => lower name = lower (cs.take name.length)).map (·, cs.drop 3)

def readSign : List Char → Option (Int × List Char)
  | '+' :: rest => some (1, rest)
  | '-' :: rest | '\u2212' :: rest => some (-1, rest)
  | _ => none

-- Hours and minutes after a sign, with the separator that a caller expects.
def readOffset (separator : List Char → Option (List Char)) (cs : List Char) :
    Option (Int × List Char) := do
  let (sign, cs) ← readSign cs
  let (hours, cs) ← readNumber 2 2 cs
  let (minutes, cs) ← readNumber 2 2 (← separator cs)
  guard (minutes < 60)
  return (sign * (hours * 3600 + minutes * 60 : Nat), cs)

def expect (c : Char) : List Char → Option (List Char)
  | d :: rest => if c = d then some rest else none
  | [] => none

def Part.read (fields : Fields) (cs : List Char) : Part → Option (Fields × List Char)
  | year => (readYear (skipBlanks cs)).map fun (n, rest) => ({ fields with year := n }, rest)
  | month => two fun n => { fields with month := n }
  | day => two fun n => { fields with day := n }
  | hour => two fun n => { fields with hour := n }
  | minute => two fun n => { fields with minute := n }
  | second => two fun n => { fields with second := n }
  | fraction =>
    match cs with
    | '.' :: rest => (readNanos rest).map fun (n, rest) => ({ fields with nanos := n }, rest)
    | cs => some (fields, cs)
  | weekdayName =>
    (readName weekdayNames cs).map fun (n, rest) => ({ fields with weekday := n }, rest)
  | monthName =>
    (readName monthNames cs).map fun (n, rest) => ({ fields with month := some (n + 1) }, rest)
  | zone =>
    (readOffset (fun cs => some (cs.dropWhile fun c => c = ':' || isBlank c)) (skipBlanks cs)).map
      fun (n, rest) => ({ fields with offset := n }, rest)
  | blank => some (fields, skipBlanks cs)
  | text chars => if chars.isPrefixOf cs then some (fields, cs.drop chars.length) else none
where
  two (set : Nat → Fields) : Option (Fields × List Char) :=
    (readNumber 1 2 (skipBlanks cs)).map fun (n, rest) => (set n, rest)

def Layout.readParts (layout : Layout) (fields : Fields) (cs : List Char) :
    Option (Fields × List Char) :=
  match layout with
  | [] => some (fields, cs)
  | part :: layout => do
    let (fields, cs) ← part.read fields cs
    readParts layout fields cs

-- The moment of a time of day. The sixtieth second is a leap second of
-- whichever minute.
def Fields.moment (fields : Fields) (date : Date) : Instant :=
  let second := min fields.second 59
  ⟨date.toDays * 86400 + (fields.hour * 3600 + fields.minute * 60 + second : Nat) - fields.offset,
    fields.nanos + (fields.second - second) * 1000000000⟩

-- The fields must name a date and a time of day that exist.
def Fields.instant? (fields : Fields) : Option Instant := do
  let date : Date := ⟨← fields.year, ← fields.month, ← fields.day⟩
  guard date.isValid
  guard (fields.weekday.all (· = date.weekday))
  guard (fields.hour < 24 && fields.minute < 60 && fields.second ≤ 60)
  guard (fields.offset.natAbs < 86400)
  let instant := fields.moment date
  guard instant.isInRange
  return instant

-- The whole text in one layout.
def Layout.read (layout : Layout) (cs : List Char) : Option Instant := do
  let (fields, rest) ← layout.readParts {} cs
  guard rest.isEmpty
  fields.instant?

-- What stands between the date and the time of a timestamp.
def readDivider : List Char → Option (List Char)
  | 'T' :: rest | 't' :: rest | ' ' :: rest => some rest
  | _ => none

def readSecondFraction : List Char → Option (Nat × List Char)
  | '.' :: rest => readNanos rest
  | cs => some (0, cs)

def readUniversalOffset : List Char → Option (Int × List Char)
  | 'Z' :: rest | 'z' :: rest => some (0, rest)
  | cs => readOffset (expect ':') cs

-- An Internet timestamp: every part has its full width, a blank or a `t` may
-- stand for the `T`, and the offset from universal time may not be absent.
def readTimestamp (cs : List Char) : Option Instant := do
  let (year, cs) ← readNumber 4 4 cs
  let (month, cs) ← readNumber 2 2 (← expect '-' cs)
  let (day, cs) ← readNumber 2 2 (← expect '-' cs)
  let (hour, cs) ← readNumber 2 2 (← readDivider cs)
  let (minute, cs) ← readNumber 2 2 (← expect ':' cs)
  let (second, cs) ← readNumber 2 2 (← expect ':' cs)
  let (nanos, cs) ← readSecondFraction cs
  let (offset, cs) ← readUniversalOffset cs
  guard (cs.isEmpty && offset.natAbs ≤ (23 * 60 + 59) * 60)
  Fields.instant? ⟨some year, some month, some day, none, hour, minute, second, nanos, offset⟩

-- The text before a blank and an opening parenthesis.
def beforeParenthesis : List Char → List Char
  | ' ' :: '(' :: _ => []
  | c :: rest => c :: beforeParenthesis rest
  | [] => []

-- A timestamp, the verbose form with or without the name of its zone, or
-- universal time without an offset.
def Instant.ofChars? (cs : List Char) : Option Instant :=
  let bare := (cs.reverse.dropWhile (· = 'Z')).reverse
  (readTimestamp cs)
    |>.or (Layout.read (Layout.verbose ++ [.zone]) (trimBlanks (beforeParenthesis cs)))
    |>.or (Layout.fractions.read bare)
    |>.or (Layout.minutes.read bare)
    |>.or (Layout.days.read bare)

def Instant.ofText? (text : String) : Option Instant := ofChars? text.toList

end QueryPad.Calendar
