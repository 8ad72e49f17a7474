import QueryPad.Schema.Fields

-- The schema of query documents, from the fields of sample documents.
namespace QueryPad.Schema

def described (description : String) : List (String × Json) :=
  [("description", .string description)]

def typed (type : String) : List (String × Json) := [("type", .string type)]

-- The type of JSON in which a value of a kind is written.
def jsonType : BsonKind → String
  | .double | .int | .long | .decimal => "number"
  | .bool => "boolean"
  | .null | .undefined => "null"
  | .object => "object"
  | .array => "array"
  | _ => "string"

def jsonTypes (kinds : List BsonKind) : List String :=
  kinds.foldl (fun types kind => addType types (jsonType kind)) []
where
  addType (types : List String) (type : String) : List String :=
    if types.contains type then types else types ++ [type]

def commonOperators : List (String × String) :=
  [("$eq", "Matches values that are equal to a specified value"),
    ("$ne", "Matches all values that are not equal to a specified value"),
    ("$gt", "Matches values that are greater than a specified value"),
    ("$gte", "Matches values that are greater than or equal to a specified value"),
    ("$lt", "Matches values that are less than a specified value"),
    ("$lte", "Matches values that are less than or equal to a specified value"),
    ("$in", "Matches any of the values specified in an array"),
    ("$nin", "Matches none of the values specified in an array"),
    ("$exists", "Matches documents that have the specified field"),
    ("$type", "Selects documents if a field is of the specified type"),
    ("$not", "Inverts the effect of a query expression")]

def textOperators : List (String × String) :=
  [("$regex", "Selects documents where values match a specified regular expression"),
    ("$options", "Options for $regex")]

def arrayOperators : List (String × String) :=
  [("$all", "Matches arrays that contain all elements specified in the query"),
    ("$size", "Selects documents if the array field is a specified size"),
    ("$elemMatch",
      "Selects documents if an element in the array field matches all the specified conditions")]

-- The operators for a field that has values of these types.
def operators (types : List String) : List (String × Json) :=
  let known := commonOperators ++ (if types.contains "string" then textOperators else []) ++
    (if types.contains "array" then arrayOperators else [])
  known.map fun (name, description) => (name, .object (described description))

-- A list without its first part, if it starts with it.
def after? (first : FieldPath) (path : FieldPath) : Option FieldPath :=
  if first.isPrefixOf path then some (path.drop first.length) else none

def setAll (fields : List (String × Json)) (more : List (String × Json)) :
    List (String × Json) :=
  more.foldl (fun fields (key, value) => setField fields key value) fields

def fieldObject (path : FieldPath) (kinds : List BsonKind) (inside : List (String × Json)) : Json :=
  let types := jsonTypes kinds
  .object <|
    [("type", .ofStrings (if types.contains "object" then types else types ++ ["object"]))] ++
    described (.ofList path ++ " (" ++ ", ".intercalate (kinds.map BsonKind.name) ++ ")") ++
    [("properties", .object (setAll (operators types) inside))]

mutual

-- The schema of a field, given the fields that come after it. Those inside
-- it are among them, one next to the other.
def fieldSchema (path : FieldPath) (kinds : List BsonKind) (later : FieldMap) : Json :=
  let first := path ++ ['.']
  fieldObject path kinds (fieldsBelow first (later.dropWhile fun (key, _) => key < first))
termination_by (later.length, 1)
decreasing_by
  rcases Nat.lt_or_eq_of_le (List.dropWhile_sublist
    (fun (key, _) => decide (key < path ++ ['.'])) (l := later)).length_le with h | h
  · exact Prod.Lex.left _ _ h
  · rw [h]
    exact Prod.Lex.right _ (by decide)

-- The fields with this beginning that lie directly below it, up to the first
-- one that begins otherwise.
def fieldsBelow (first : FieldPath) (later : FieldMap) : List (String × Json) :=
  match later with
  | [] => []
  | (path, kinds) :: rest =>
    match after? first path with
    | none => []
    | some name =>
      if name.contains '.' then fieldsBelow first rest
      else (.ofList name, fieldSchema path kinds rest) :: fieldsBelow first rest
termination_by (later.length, 0)

end

-- The schemas of all fields, under their dotted paths.
def fieldSchemas : FieldMap → List (String × Json)
  | [] => []
  | (path, kinds) :: rest => (.ofList path, fieldSchema path kinds rest) :: fieldSchemas rest

-- Operators that join whole queries.
def joined (description : String) : Json :=
  .object (typed "array" ++ described description ++
    [("items", .object [("$ref", .string "#")])])

def queryOperators : List (String × Json) :=
  [("$and", joined "Joins query clauses with a logical AND"),
    ("$or", joined "Joins query clauses with a logical OR"),
    ("$nor", joined "Joins query clauses with a logical NOR"),
    ("$text", .object (typed "object" ++ described "Performs text search" ++
      [("properties", .object
        [("$search", .object (typed "string")),
          ("$language", .object (typed "string")),
          ("$caseSensitive", .object (typed "boolean")),
          ("$diacriticSensitive", .object (typed "boolean"))])])),
    ("$where", .object (typed "string" ++
      described "Matches documents that satisfy a JavaScript expression")),
    ("$comment", .object (typed "string" ++ described "Adds a comment to a query predicate")),
    ("$expr", .object (typed "object" ++
      described "Allows use of aggregation expressions within the query language"))]

def ofFields (fields : FieldMap) : Json :=
  .object (typed "object" ++
    [("properties", .object (setAll (fieldSchemas fields) queryOperators))])

def ofDocuments (documents : List (List (String × Bson))) : Json :=
  ofFields (.ofDocuments documents)

end QueryPad.Schema
