import QueryPad.Json.Value

-- Ways through a schema: references, combinations and the steps from a
-- literal to the object being edited.
namespace QueryPad.Schema

-- How many references are followed one after another, and how deep
-- combinations nest.
def depthLimit : Nat := 16

-- What a reference within the schema means.
def target? (root schema : Json) : Option Json := do
  let reference ← (← schema.field? "$ref").string?
  match reference.toList with
  | '#' :: pointer => root.at? pointer
  | _ => none

def follow (root : Json) : Nat → Json → Json
  | 0, schema => schema
  | room + 1, schema =>
    match target? root schema with
    | some next => follow root room next
    | none => schema

def resolve (root schema : Json) : Json := follow root depthLimit schema

-- The members of all combinations, in the order of writing.
def members (schema : Json) : List Json :=
  ["allOf", "anyOf", "oneOf"].flatMap fun key =>
    ((schema.field? key).bind Json.items?).getD []

-- The schema and all it is combined of. Members written last come first.
def alternatives (root : Json) : Nat → Json → List Json
  | 0, schema => [resolve root schema]
  | room + 1, schema =>
    let found := resolve root schema
    found :: (members found).reverse.flatMap (alternatives root room)

inductive Step where
  | key (name : String)
  | item
  deriving DecidableEq

-- What one alternative says of a step.
def stepInto? (schema : Json) : Step → Option Json
  | .key name => do (← schema.field? "properties").field? name
  | .item =>
    match schema.field? "items" with
    | some (.array items) => items.head?
    | other => other

def child? (root schema : Json) (step : Step) : Option Json :=
  ((alternatives root depthLimit schema).findSome? (stepInto? · step)).map (resolve root)

-- The schema at the end of a path from the root.
def along? (root : Json) (path : List Step) : Option Json :=
  path.foldlM (child? root) root

end QueryPad.Schema
