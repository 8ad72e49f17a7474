import QueryPad.Bson
import QueryPad.Calendar.Reader
import QueryPad.Error
import QueryPad.Json.Printer
import QueryPad.Json.Reader

-- Extended JSON: objects of certain keys stand for values that JSON does not
-- know.
namespace QueryPad.Bson

open Calendar

def readDigits (chars : List Char) : Option Nat :=
  if chars.isEmpty || !chars.all Char.isDigit then none
  else some (chars.foldl (fun n c => n * 10 + (c.toNat - '0'.toNat)) 0)

-- Decimal digits after an optional sign, within 64 bits.
def readLong? (text : String) : Option Int := do
  let n : Int ← match text.toList with
    | '-' :: digits => (readDigits digits).map fun n => -(n : Int)
    | '+' :: digits => (readDigits digits).map fun n => (n : Int)
    | digits => (readDigits digits).map fun n => (n : Int)
  guard (fitsLong n)
  return n

-- A text, milliseconds, or milliseconds as text in an object.
def readDate? : Json → Option Int
  | .string text => (Instant.ofText? text).map Instant.millis
  | .number (.integer n) => if fitsLong n then some n else none
  | .object fields => do readLong? (← (← fields.lookup "$numberLong").string?)
  | _ => none

def knownOptions : List Char := ['i', 'l', 'm', 's', 'u', 'x']

-- Options are a set, kept in order.
def readRegex (pattern options : String) : Except ValueError Bson :=
  match options.toList.find? (!knownOptions.contains ·) with
  | some c =>
    .error <| .regex <|
      "The regular expression option [" ++ c.toString ++ "] is not supported"
  | none => .ok (.regex pattern (.ofList (knownOptions.filter options.toList.contains)))

def readId (hex : String) : Except ValueError Bson :=
  match ObjectId.ofText hex with
  | .ok id => .ok (.objectId id)
  | .error fault => .error (.objectId fault.message)

def readDate (moment : Json) : Except ValueError Bson :=
  match readDate? moment with
  | some millis => .ok (.date millis)
  | none => .error (.date (moment.string?.getD moment.render))

-- The value that an object stands for, if it is not just an object.
def readWrapped? (fields : List (String × Json)) : Option (Except ValueError Bson) :=
  match fields with
  | [("$oid", .string hex)] => some (readId hex)
  | [("$date", moment)] => some (readDate moment)
  | [("$regex", .string pattern)] => some (readRegex pattern "")
  | [("$regex", .string pattern), ("$options", .string options)] =>
    some (readRegex pattern options)
  | [("$options", .string options), ("$regex", .string pattern)] =>
    some (readRegex pattern options)
  | _ => none

mutual

def ofJson : Json → Except ValueError Bson
  | .null => .ok .null
  | .bool value => .ok (.bool value)
  | .number value => .ok (ofNumber value)
  | .string value => .ok (.string value)
  | .array items => (itemsOfJson items).map .array
  | .object fields =>
    match readWrapped? fields with
    | some value => value
    | none => (fieldsOfJson fields).map .object

def itemsOfJson : List Json → Except ValueError (List Bson)
  | [] => .ok []
  | item :: items => do
    let value ← ofJson item
    return value :: (← itemsOfJson items)

def fieldsOfJson : List (String × Json) → Except ValueError (List (String × Bson))
  | [] => .ok []
  | (key, item) :: fields => do
    let value ← ofJson item
    return (key, value) :: (← fieldsOfJson fields)

end

def ofExtendedText (text : String) : Except ValueError Bson :=
  match Json.ofText text with
  | .ok json => ofJson json
  | .error fault => .error (.syntax_ fault.message)

end QueryPad.Bson
