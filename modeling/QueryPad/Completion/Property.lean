import QueryPad.Completion.Item
import QueryPad.Completion.Key
import QueryPad.Schema.Store

-- Completion of property names inside embedded documents.
namespace QueryPad

open Text Schema

-- A literal of a pad seen as a document of its own.
structure EmbeddedDocument where
  uri : String
  index : LineIndex
  -- Where it starts in the pad.
  offset : Nat

namespace EmbeddedDocument

def ofChars (uri : String) (text : List Char) (offset : Nat) : EmbeddedDocument :=
  ⟨uri, .ofChars text, offset⟩

-- A place before the document means its start.
def positionFrom (document : EmbeddedDocument) (parent : LineIndex) (p : Position) : Position :=
  document.index.positionAt (parent.offsetAt p - document.offset)

def rangeIn (document : EmbeddedDocument) (parent : LineIndex) (range : Range) : Range :=
  parent.range ⟨document.index.offsetAt range.start + document.offset,
    document.index.offsetAt range.stop + document.offset⟩

def itemsIn (document : EmbeddedDocument) (parent : LineIndex) (items : List CompletionItem) :
    List CompletionItem :=
  items.map (·.mapRanges (document.rangeIn parent))

end EmbeddedDocument

namespace Completion

def isPlainName (name : List Char) : Bool :=
  match name with
  | [] => false
  | c :: rest =>
    (isLetter c || c = '_' || c = '$') &&
      rest.all fun c => isLetterOrNumber c || c = '_' || c = '$'

-- A key as it is written.
def writtenKey (quoted : Bool) (name : String) : String :=
  if quoted || !isPlainName name.toList then "\"" ++ name ++ "\"" else name

def typeDetail (schema : Json) : Option String :=
  match schema.field? "type" with
  | some (.string name) => some name
  | some (.array names) => some (" | ".intercalate (names.filterMap Json.string?))
  | _ => none

-- Operators rank below fields.
def propertyItem (root : Json) (range : Range) (quoted : Bool) (name : String) (schema : Json) :
    CompletionItem :=
  let schema := resolve root schema
  let text := writtenKey quoted name
  let isOperator := name.toList.head? = some '$'
  { label := name
    kind := some (if isOperator then .operator else .property)
    detail := typeDetail schema
    documentation := (schema.field? "description").bind Json.string?
    sortText := some ((if isOperator then "2:" else "1:") ++ name)
    filterText := some text
    edit := some (.replace range text) }

-- The properties of all alternatives, the first of each name.
def properties (root schema : Json) : List (String × Json) :=
  ((alternatives root depthLimit schema).flatMap fun alternative =>
    ((alternative.field? "properties").bind Json.fields?).getD []).foldl addFirst []
where
  addFirst (known : List (String × Json)) (field : String × Json) : List (String × Json) :=
    if known.any (·.1 = field.1) then known else known ++ [field]

def propertyItems (root schema : Json) (range : Range) (quoted : Bool) : List CompletionItem :=
  (properties root schema).map fun (name, property) => propertyItem root range quoted name property

end Completion

namespace EmbeddedDocument

open Completion

-- The keys that the schema of the document knows at a place.
def completions (document : EmbeddedDocument) (schemas : SchemaStore) (p : Position) :
    List CompletionItem :=
  let offset := document.index.offsetAt p
  (do
    let root ← schemas.resolve? (← schemaFor? document.uri)
    let before ← slice? document.index.text 0 offset
    let place ← keyPlace? before
    let schema ← along? root place.path
    return propertyItems root schema (document.index.range ⟨place.start, offset⟩) place.quoted
    : Option (List CompletionItem)).getD []

end EmbeddedDocument

end QueryPad
