import QueryPad.Schema.Query

-- The schema of pipelines over a collection, built on that of its queries.
namespace QueryPad.Schema

def stages : List (String × String) :=
  [("$addFields", "Adds new fields to documents"),
    ("$bucket", "Categorizes incoming documents into groups, called buckets, based on a " ++
      "specified expression and bucket boundaries"),
    ("$bucketAuto", "Categorizes incoming documents into a specific number of groups"),
    ("$collStats", "Returns statistics regarding a collection or view"),
    ("$count", "Returns a count of the number of documents at this stage of the pipeline"),
    ("$facet", "Processes multiple aggregation pipelines within a single stage on the same set " ++
      "of input documents"),
    ("$geoNear", "Returns an ordered stream of documents based on the proximity to a " ++
      "geospatial point"),
    ("$graphLookup", "Performs a recursive search on a collection"),
    ("$group", "Groups input documents by a specified identifier expression"),
    ("$indexStats", "Returns statistics regarding the use of each index for the collection"),
    ("$limit", "Passes the first n documents unmodified to the pipeline"),
    ("$lookup", "Performs a left outer join to another collection in the same database"),
    ("$match", "Filters the document stream to allow only matching documents to pass"),
    ("$merge", "Writes the resulting documents of the pipeline to a collection"),
    ("$out", "Writes the resulting documents of the pipeline to a collection"),
    ("$project", "Reshapes each document in the stream"),
    ("$redact", "Restricts the contents of the documents based on information stored in the " ++
      "documents themselves"),
    ("$replaceRoot", "Replaces a document with the specified embedded document"),
    ("$replaceWith", "Replaces a document with the specified embedded document"),
    ("$sample", "Randomly selects the specified number of documents from its input"),
    ("$set", "Adds new fields to documents"),
    ("$skip", "Skips the first n documents"),
    ("$sort", "Reorders the document stream by a specified sort key"),
    ("$sortByCount", "Groups incoming documents based on the value of a specified expression, " ++
      "then computes the count of documents in each distinct group"),
    ("$unionWith", "Performs a union of two collections"),
    ("$unset", "Removes or excludes fields from documents"),
    ("$unwind", "Deconstructs an array field from the input documents to output a document for " ++
      "each element")]

-- Where the query schema stands inside a pipeline schema.
def queryPointer : String := "/definitions/query"

-- What a reference within a schema becomes when the schema is moved.
def movedTarget (base target : String) : String :=
  match target.toList with
  | '#' :: pointer => "#" ++ base ++ .ofList pointer
  | _ => target

mutual

-- The schema with its inner references moved below a base.
def rebase (base : String) : Json → Json
  | .object fields => .object (rebaseFields base fields)
  | .array items => .array (rebaseItems base items)
  | other => other

def rebaseItems (base : String) : List Json → List Json
  | [] => []
  | item :: items => rebase base item :: rebaseItems base items

def rebaseFields (base : String) : List (String × Json) → List (String × Json)
  | [] => []
  | (key, .string target) :: fields =>
    (key, .string (if key = "$ref" then movedTarget base target else target)) ::
      rebaseFields base fields
  | (key, value) :: fields => (key, rebase base value) :: rebaseFields base fields

end

-- The fields of a query schema, its operators left out.
def fieldNames (querySchema : Json) : List String :=
  match (querySchema.field? "properties").bind Json.fields? with
  | some properties => (properties.map (·.1)).filter fun name => name.toList.head? ≠ some '$'
  | none => []

def propertyOf (type : String) : Json := .object (typed type)

def stageSchema (name description : String) (fields : List String) : Json :=
  match name with
  | "$match" => .object (("$ref", .string ("#" ++ queryPointer)) :: described description)
  | "$project" | "$sort" | "$addFields" | "$set" =>
    withProperties (typed "object") (fields.map fun field => (field, .object []))
  | "$group" =>
    withProperties (typed "object") [("_id", .object (described "The group key"))]
  | "$lookup" =>
    withProperties (typed "object")
      [("from", .object (typed "string" ++ described "Collection to join")),
        ("localField", .object (typed "string" ++ described "Field from the input documents")),
        ("foreignField", .object (typed "string" ++
          described "Field from the documents of the from collection")),
        ("as", .object (typed "string" ++ described "Name of the new array field")),
        ("let", propertyOf "object"),
        ("pipeline", propertyOf "array")]
  | "$unwind" =>
    withProperties [("type", .ofStrings ["string", "object"])]
      [("path", propertyOf "string"),
        ("includeArrayIndex", propertyOf "string"),
        ("preserveNullAndEmptyArrays", propertyOf "boolean")]
  | "$sample" => withProperties (typed "object") [("size", propertyOf "number")]
  | "$facet" =>
    .object (typed "object" ++ described description ++
      [("additionalProperties", .object [("$ref", .string "#")])])
  | _ => .object (described description)
where
  withProperties (type properties : List (String × Json)) : Json :=
    .object (type ++ described description ++ [("properties", .object properties)])

def pipelineOf (querySchema : Json) : Json :=
  let fields := fieldNames querySchema
  .object (typed "array" ++
    [("definitions", .object [("query", rebase queryPointer querySchema)]),
      ("items", .object (typed "object" ++ described "Aggregation stage" ++
        [("properties", .object <|
          stages.map fun (name, description) => (name, stageSchema name description fields))]))])

end QueryPad.Schema
