import QueryPad.Error
import QueryPad.Schema.Pipeline

namespace QueryPad

namespace Schema

-- Each collection has a document for its queries and one for its pipelines,
-- both with a schema. None of them is a file.
def queryBase : String := "mongo://query/"
def pipelineBase : String := "mongo://aggregate/"
def documentSuffix : String := ".json"
def schemaSuffix : String := ".schema"

def queryDocument (collection : String) : String := queryBase ++ collection ++ documentSuffix

def pipelineDocument (collection : String) : String :=
  pipelineBase ++ collection ++ documentSuffix

def querySchema (collection : String) : String := queryBase ++ collection ++ schemaSuffix

def pipelineSchema (collection : String) : String := pipelineBase ++ collection ++ schemaSuffix

-- A list without a suffix, if it ends in it.
def dropSuffix? (suffix cs : List Char) : Option (List Char) :=
  if suffix.isSuffixOf cs then some (cs.take (cs.length - suffix.length)) else none

-- The schema of a document, told from the name of the document alone.
def schemaFor? (document : String) : Option String := do
  let base ← dropSuffix? documentSuffix.toList document.toList
  guard (queryBase.toList.isPrefixOf base || pipelineBase.toList.isPrefixOf base)
  return .ofList base ++ schemaSuffix

end Schema

-- Schemas by the places under which they are known.
structure SchemaStore where
  entries : List (String × Json)

namespace SchemaStore

def empty : SchemaStore := ⟨[]⟩

def size (store : SchemaStore) : Nat := store.entries.length

def resolve? (store : SchemaStore) (uri : String) : Option Json := store.entries.lookup uri

def register (store : SchemaStore) (uri : String) (schema : Json) : SchemaStore :=
  ⟨setField store.entries uri schema⟩

-- Both schemas of a collection, from sample documents.
def registerCollection (store : SchemaStore) (collection : String)
    (documents : List (List (String × Bson))) : SchemaStore :=
  let query := Schema.ofDocuments documents
  (store.register (Schema.querySchema collection) query).register
    (Schema.pipelineSchema collection) (Schema.pipelineOf query)

-- A collection that gives no sample has operators only.
def registerCollections (store : SchemaStore) (names : List String)
    (sample : String → Except PadError (List (List (String × Bson)))) : SchemaStore :=
  names.foldl
    (fun store name => store.registerCollection name ((sample name).toOption.getD [])) store

end SchemaStore

end QueryPad
