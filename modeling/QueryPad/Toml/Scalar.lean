import QueryPad.Calendar.Date
import QueryPad.Number.Binary64
import QueryPad.Number.Word
import QueryPad.Toml.Document

-- Values that are written as one bare word.
namespace QueryPad.Toml.Scalar

open Calendar Number

-- Digits without the underscores that may stand between them.
def ungroup (isDigit : Char → Bool) : List Char → Option (List Char)
  | [] => none
  | [c] => if isDigit c then some [c] else none
  | c :: '_' :: rest => if isDigit c then (ungroup isDigit rest).map (c :: ·) else none
  | c :: rest => if isDigit c then (ungroup isDigit rest).map (c :: ·) else none

def digitValue (c : Char) : Nat :=
  if c.isDigit then c.toNat - '0'.toNat else c.toLower.toNat - 'a'.toNat + 10

def toNat (base : Nat) (digits : List Char) : Nat :=
  digits.foldl (fun n c => n * base + digitValue c) 0

def isHex (c : Char) : Bool := c.isDigit || ('a' ≤ c && c ≤ 'f') || ('A' ≤ c && c ≤ 'F')

def unsign : List Char → Bool × List Char
  | '-' :: rest => (true, rest)
  | '+' :: rest => (false, rest)
  | cs => (false, cs)

-- Decimal digits, no zero in front of others.
def decimal? (cs : List Char) : Option (List Char) := do
  let digits ← ungroup Char.isDigit cs
  guard (digits.head? ≠ some '0' || cs.length = 1)
  return digits

-- Integers are kept while 128 bits hold them.
def integer? (cs : List Char) : Option Int := do
  let n : Int ← match cs with
    | '0' :: 'x' :: rest => (ungroup isHex rest).map fun ds => (toNat 16 ds : Int)
    | '0' :: 'o' :: rest =>
      (ungroup (fun c => '0' ≤ c && c ≤ '7') rest).map fun ds => (toNat 8 ds : Int)
    | '0' :: 'b' :: rest =>
      (ungroup (fun c => c = '0' || c = '1') rest).map fun ds => (toNat 2 ds : Int)
    | _ =>
      let (negative, rest) := unsign cs
      (decimal? rest).map fun ds => if negative then -(toNat 10 ds : Int) else toNat 10 ds
  guard (-(wordCount 127 : Int) ≤ n && n < wordCount 128)
  return n

-- Whether digits times a power of ten stay below the infinite.
def isFinite (digits : List Char) (power : Int) : Bool :=
  let n := toNat 10 digits
  if n = 0 then true
  else if (digits.length : Int) + power < 300 then true
  else if power > 400 then false
  else if 0 ≤ power then (Binary64.ofRatio? (n * Nat.pow 10 power.toNat) 1).isSome
  else (Binary64.ofRatio? n (Nat.pow 10 (-power).toNat)).isSome

-- A part before a mark and the part behind it, if the mark is there.
def cut (isMark : Char → Bool) (cs : List Char) : List Char × Option (List Char) :=
  match cs.dropWhile (!isMark ·) with
  | [] => (cs, none)
  | _ :: after => (cs.takeWhile (!isMark ·), some after)

def isFloat (cs : List Char) : Bool :=
  let (_, cs) := unsign cs
  if cs = "inf".toList || cs = "nan".toList then true
  else
    let (number, exponent) := cut (fun c => c = 'e' || c = 'E') cs
    let (whole, fraction) := cut (· = '.') number
    if exponent.isNone && fraction.isNone then false
    else
      (do
        let whole ← decimal? whole
        let fraction ← match fraction with
          | some digits => ungroup Char.isDigit digits
          | none => some []
        let power : Int ← match exponent with
          | some digits =>
            let (negative, digits) := unsign digits
            (ungroup Char.isDigit digits).map fun ds =>
              if negative then -(toNat 10 ds : Int) else toNat 10 ds
          | none => some 0
        return isFinite (whole ++ fraction) (power - fraction.length) : Option Bool).getD false

def number? (width : Nat) (cs : List Char) : Option Nat :=
  if cs.length = width && cs.all Char.isDigit then some (toNat 10 cs) else none

def isDate (cs : List Char) : Bool :=
  (do
    let [year, month, day] := [cs.take 4, (cs.drop 5).take 2, (cs.drop 8).take 2] | none
    guard (cs.length = 10 && cs[4]? = some '-' && cs[7]? = some '-')
    let year ← number? 4 year
    let month ← number? 2 month
    let day ← number? 2 day
    return 1 ≤ month && month ≤ 12 && 1 ≤ day && day ≤ daysInMonth year month
    : Option Bool).getD false

-- Hours and minutes with a colon between them.
def isClock (cs : List Char) : Bool :=
  (do
    guard (cs.length = 5 && cs[2]? = some ':')
    let hour ← number? 2 (cs.take 2)
    let minute ← number? 2 (cs.drop 3)
    return hour ≤ 23 && minute ≤ 59 : Option Bool).getD false

-- Seconds behind a colon, and perhaps a fraction of them.
def isSeconds (cs : List Char) : Bool :=
  let fraction := cs.drop 3
  cs.head? = some ':' && (number? 2 ((cs.drop 1).take 2)).any (· ≤ 60) &&
    (fraction.isEmpty ||
      (fraction.head? = some '.' && 1 < fraction.length && fraction.tail.all Char.isDigit))

-- A clock, with seconds or without.
def isTime (cs : List Char) : Bool :=
  isClock (cs.take 5) && ((cs.drop 5).isEmpty || isSeconds (cs.drop 5))

def isZone (cs : List Char) : Bool :=
  match cs with
  | ['Z'] | ['z'] => true
  | '+' :: clock | '-' :: clock => isClock clock
  | _ => false

-- A time with a zone behind it or without.
def isZonedTime (cs : List Char) : Bool :=
  let time := cs.takeWhile fun c => c.isDigit || c = ':' || c = '.'
  let zone := cs.drop time.length
  isTime time && (zone.isEmpty || isZone zone)

def isMoment (cs : List Char) : Bool :=
  if isTime cs then true
  else
    isDate (cs.take 10) &&
      match cs.drop 10 with
      | [] => true
      | c :: time => (c = 'T' || c = 't' || c = ' ') && isZonedTime time

def ofChars? (cs : List Char) : Option Toml :=
  if cs = "true".toList then some (.boolean true)
  else if cs = "false".toList then some (.boolean false)
  else if let some n := integer? cs then some (.integer n)
  else if isFloat cs then some (.float (.ofList cs))
  else if isMoment cs then some (.moment (.ofList cs))
  else none

end QueryPad.Toml.Scalar
