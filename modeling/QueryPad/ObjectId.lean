namespace QueryPad

-- Twelve bytes as a number.
structure ObjectId where
  value : Nat
  deriving DecidableEq

inductive ObjectIdFault where
  -- A byte that is no hexadecimal digit, and its index.
  | character (byte : UInt8) (index : Nat) (text : String)
  | length (text : String)
  deriving DecidableEq

def ObjectIdFault.message : ObjectIdFault → String
  | character byte index text =>
    "invalid character '" ++ (Char.ofNat byte.toNat).toString ++ "' was found at index " ++
      toString index ++ " in the provided hex string: \"" ++ text ++ "\""
  | length text =>
    "provided hex string representation must be exactly 12 bytes, instead got: \"" ++ text ++
      "\", length " ++ toString text.utf8ByteSize

namespace ObjectId

def digits : Nat := 24

def hexByte? (byte : UInt8) : Option Nat :=
  if 48 ≤ byte && byte ≤ 57 then some (byte.toNat - 48)
  else if 97 ≤ byte && byte ≤ 102 then some (byte.toNat - 87)
  else if 65 ≤ byte && byte ≤ 70 then some (byte.toNat - 55)
  else none

def readBytes (text : String) (index total : Nat) : List UInt8 → Except ObjectIdFault Nat
  | [] => .ok total
  | byte :: rest =>
    match hexByte? byte with
    | some digit => readBytes text (index + 1) (total * 16 + digit) rest
    | none => .error (.character byte index text)

-- An odd number of bytes is a fault before any digit is looked at, another
-- wrong number after all are.
def ofText (text : String) : Except ObjectIdFault ObjectId := do
  let bytes := text.toUTF8.toList
  if bytes.length % 2 = 1 then throw (.length text)
  let value ← readBytes text 0 0 bytes
  if bytes.length = digits then return ⟨value⟩ else throw (.length text)

def toText (id : ObjectId) : String :=
  let hex := Nat.toDigits 16 id.value
  String.ofList (List.replicate (digits - hex.length) '0' ++ hex)

-- The id a number of steps after this one.
def advance (id : ObjectId) (steps : Nat) : ObjectId := ⟨(id.value + steps) % Nat.pow 16 digits⟩

end ObjectId

end QueryPad
