import QueryPad.Json.Value
import QueryPad.Number.Word
import QueryPad.ObjectId

namespace QueryPad

open Number

inductive BsonKind where
  | double | string | object | array | binData | undefined | objectId | bool | date | null
  | regex | dbPointer | javascript | symbol | javascriptWithScope | int | timestamp | long
  | decimal | minKey | maxKey
  deriving DecidableEq

namespace BsonKind

def all : List BsonKind :=
  [double, string, object, array, binData, undefined, objectId, bool, date, null, regex,
    dbPointer, javascript, symbol, javascriptWithScope, int, timestamp, long, decimal, minKey,
    maxKey]

-- As queries by type name it.
def name : BsonKind → String
  | double => "double"
  | string => "string"
  | object => "object"
  | array => "array"
  | binData => "binData"
  | undefined => "undefined"
  | objectId => "objectId"
  | bool => "bool"
  | date => "date"
  | null => "null"
  | regex => "regex"
  | dbPointer => "dbPointer"
  | javascript => "javascript"
  | symbol => "symbol"
  | javascriptWithScope => "javascriptWithScope"
  | int => "int"
  | timestamp => "timestamp"
  | long => "long"
  | decimal => "decimal"
  | minKey => "minKey"
  | maxKey => "maxKey"

def ofName? (name : String) : Option BsonKind := all.find? (·.name = name)

theorem ofName?_name (kind : BsonKind) : ofName? kind.name = some kind := by
  cases kind <;> decide +kernel

end BsonKind

-- A value as the database stores it.
inductive Bson where
  | double (value : Binary64)
  | string (value : String)
  | object (fields : List (String × Bson))
  | array (items : List Bson)
  | objectId (id : ObjectId)
  | bool (value : Bool)
  -- Milliseconds from the start of 1970.
  | date (millis : Int)
  | null
  | regex (pattern options : String)
  -- Integers of 32 bits.
  | int (value : Int)
  -- Integers of 64 bits.
  | long (value : Int)
  -- A value that is known by its kind only.
  | ofKind (kind : BsonKind)

namespace Bson

instance : Inhabited Bson := ⟨null⟩

def kind : Bson → BsonKind
  | double _ => .double
  | string _ => .string
  | object _ => .object
  | array _ => .array
  | objectId _ => .objectId
  | bool _ => .bool
  | date _ => .date
  | null => .null
  | regex .. => .regex
  | int _ => .int
  | long _ => .long
  | ofKind kind => kind

def fitsInt (n : Int) : Bool := fitsSigned 32 n

def fitsLong (n : Int) : Bool := fitsSigned 64 n

-- The narrowest integer that holds the number, a double if none does.
def ofInt (n : Int) : Bson :=
  if fitsInt n then int n else if fitsLong n then long n else double (.ofInt n)

def ofNumber : JsonNumber → Bson
  | .integer n => ofInt n
  | .double value => double value

mutual

-- Values that JSON does not know are wrapped in objects.
def toJson : Bson → Json
  | double value => .number (.double value)
  | string value => .string value
  | object fields => .object (fieldsToJson fields)
  | array items => .array (itemsToJson items)
  | objectId id => .object [("$oid", .string id.toText)]
  | bool value => .bool value
  | date millis => .object [("$date", .object [("$numberLong", .string (toString millis))])]
  | null => .null
  | regex pattern options =>
    .object [("$regularExpression",
      .object [("pattern", .string pattern), ("options", .string options)])]
  | int value | long value => .int value
  | ofKind kind => .object [("$type", .string kind.name)]

def itemsToJson : List Bson → List Json
  | [] => []
  | item :: items => item.toJson :: itemsToJson items

def fieldsToJson : List (String × Bson) → List (String × Json)
  | [] => []
  | (key, value) :: fields => (key, value.toJson) :: fieldsToJson fields

end

end Bson

end QueryPad
