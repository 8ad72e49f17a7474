import QueryPad.Bson

-- The fields seen in sample documents, by their dotted paths.
namespace QueryPad.Schema

abbrev FieldPath := List Char

-- A path inside another. Below the empty path nothing is put in front.
def FieldPath.join (base key : FieldPath) : FieldPath :=
  if base.isEmpty then key else base ++ '.' :: key

-- How many levels of documents give fields.
def levels : Nat := 5

mutual

-- The fields of a document and the kinds of their values, in the order in
-- which they stand. Fields of documents inside arrays belong to the array.
def fieldsSeen (room : Nat) (base : FieldPath) :
    List (String × Bson) → List (FieldPath × BsonKind)
  | [] => []
  | (key, value) :: fields =>
    let path := FieldPath.join base key.toList
    (path, value.kind) ::
      (fieldsInside room path value ++ fieldsSeen room base fields)

def fieldsInside (room : Nat) (path : FieldPath) : Bson → List (FieldPath × BsonKind)
  | .object fields => if room = 0 then [] else fieldsSeen (room - 1) path fields
  | .array items => if room = 0 then [] else fieldsOfItems (room - 1) path items
  | _ => []

def fieldsOfItems (room : Nat) (path : FieldPath) : List Bson → List (FieldPath × BsonKind)
  | [] => []
  | .object fields :: items => fieldsSeen room path fields ++ fieldsOfItems room path items
  | _ :: items => fieldsOfItems room path items

end

-- Paths in ascending order, each with the kinds seen at it.
abbrev FieldMap := List (FieldPath × List BsonKind)

namespace FieldMap

def addKind (kinds : List BsonKind) (kind : BsonKind) : List BsonKind :=
  if kinds.contains kind then kinds else kinds ++ [kind]

def record (path : FieldPath) (kind : BsonKind) : FieldMap → FieldMap
  | [] => [(path, [kind])]
  | (known, kinds) :: rest =>
    if path = known then (known, addKind kinds kind) :: rest
    else if path < known then (path, [kind]) :: (known, kinds) :: rest
    else (known, kinds) :: record path kind rest

def ofSeen (seen : List (FieldPath × BsonKind)) : FieldMap :=
  seen.foldl (fun fields (path, kind) => record path kind fields) []

def ofDocuments (documents : List (List (String × Bson))) : FieldMap :=
  ofSeen (documents.flatMap (fieldsSeen (levels - 1) []))

end FieldMap

end QueryPad.Schema
