import QueryPad.Number.Binary64

namespace QueryPad

open Number

-- Integers from -2^63 to 2^64 - 1 keep their digits, all else is binary64.
inductive JsonNumber where
  | integer (value : Int)
  | double (value : Binary64)
  deriving DecidableEq

-- Fields stand in the order in which they were written.
inductive Json where
  | null
  | bool (value : Bool)
  | number (value : JsonNumber)
  | string (value : String)
  | array (items : List Json)
  | object (fields : List (String × Json))

instance : Inhabited Json := ⟨.null⟩

-- Setting a key that is there keeps its place.
def setField {α : Type} (fields : List (String × α)) (key : String) (value : α) :
    List (String × α) :=
  match fields with
  | [] => [(key, value)]
  | (k, v) :: rest => if k = key then (key, value) :: rest else (k, v) :: setField rest key value

-- Fields in the order of writing, where a repeated key keeps its first place
-- and takes its last value.
def mergeFields {α : Type} (fields : List (String × α)) : List (String × α) :=
  fields.foldl (fun merged (key, value) => setField merged key value) []

theorem setField_keys {α : Type} (fields : List (String × α)) (key : String) (value : α) :
    (setField fields key value).map (·.1) =
      if key ∈ fields.map (·.1) then fields.map (·.1) else fields.map (·.1) ++ [key] := by
  induction fields with
  | nil => simp [setField]
  | cons field rest ih =>
      obtain ⟨k, v⟩ := field
      by_cases h : k = key
      · simp [setField, h]
      · have hk : ¬ key = k := fun e => h e.symm
        by_cases hm : key ∈ rest.map (·.1)
        · simp only [setField, h, ite_false, List.map_cons, ih, hm, ite_true, List.mem_cons, or_true]
        · simp only [setField, h, ite_false, List.map_cons, ih, hm, List.mem_cons, hk, or_self,
            List.cons_append]

namespace Json

def int (n : Int) : Json := .number (.integer n)

def nat (n : Nat) : Json := .int n

def ofStrings (strings : List String) : Json := .array (strings.map .string)

def field? (json : Json) (key : String) : Option Json :=
  match json with
  | object fields => fields.lookup key
  | _ => none

def string? : Json → Option String
  | string value => some value
  | _ => none

def bool? : Json → Option Bool
  | bool value => some value
  | _ => none

def items? : Json → Option (List Json)
  | array items => some items
  | _ => none

def fields? : Json → Option (List (String × Json))
  | object fields => some fields
  | _ => none

def int? : Json → Option Int
  | number (.integer value) => some value
  | _ => none

def nat? (json : Json) : Option Nat :=
  match json.int? with
  | some (.ofNat n) => some n
  | _ => none

mutual

protected def beq : Json → Json → Bool
  | null, null => true
  | bool a, bool b => a = b
  | number a, number b => a = b
  | string a, string b => a = b
  | array a, array b => beqItems a b
  | object a, object b => beqFields a b
  | _, _ => false

def beqItems : List Json → List Json → Bool
  | [], [] => true
  | a :: as, b :: bs => a.beq b && beqItems as bs
  | _, _ => false

def beqFields : List (String × Json) → List (String × Json) → Bool
  | [], [] => true
  | (k, a) :: as, (l, b) :: bs => k = l && a.beq b && beqFields as bs
  | _, _ => false

end

namespace Pointer

-- The parts between slashes.
def parts : List Char → List (List Char)
  | [] => [[]]
  | c :: rest =>
    match parts rest with
    | [] => [[c]]
    | part :: more => if c = '/' then [] :: part :: more else (c :: part) :: more

-- A tilde and a digit stand for a slash and for a tilde.
def unescape : List Char → List Char
  | '~' :: '1' :: rest => '/' :: unescape rest
  | '~' :: '0' :: rest => '~' :: unescape rest
  | c :: rest => c :: unescape rest
  | [] => []

-- Decimal digits without a zero in front.
def index? (part : List Char) : Option Nat :=
  if part.isEmpty || !part.all Char.isDigit || (part.head? = some '0' && part.length ≠ 1) then none
  else some (part.foldl (fun n c => n * 10 + (c.toNat - '0'.toNat)) 0)

def step? (json : Json) (part : List Char) : Option Json :=
  match json with
  | object fields => fields.lookup (.ofList part)
  | array items => do items[← index? part]?
  | _ => none

end Pointer

-- The value at a place inside: the empty pointer means the whole.
def at? (json : Json) (pointer : List Char) : Option Json :=
  match pointer with
  | [] => some json
  | '/' :: rest => ((Pointer.parts rest).map Pointer.unescape).foldlM Pointer.step? json
  | _ => none

end Json

end QueryPad
