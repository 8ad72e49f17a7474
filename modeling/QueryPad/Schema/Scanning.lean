import QueryPad.Schema.Query

-- The scan for the fields inside a field, made explicit. It goes over the whole map
-- in its order. A field directly inside is scanned before the scan goes on, so scans
-- wait for one another.
namespace QueryPad.Schema

-- A map keeps its paths in the order of their bytes.
def FieldPath.bytes (path : FieldPath) : List UInt8 := path.flatMap String.utf8EncodeChar

-- The fields from a path on.
def FieldMap.startingAt (first : FieldPath) (fields : FieldMap) : FieldMap :=
  fields.dropWhile fun (path, _) => path.bytes < first.bytes

structure FieldScan where
  -- The name under which the schema of the field is entered.
  name : String
  path : FieldPath
  kinds : List BsonKind
  -- The paths inside the field, as far as the scan has come.
  visited : List FieldPath
  -- The schemas entered under their names.
  added : List (String × Json)
  ahead : FieldMap

namespace FieldScan

def start (fields : FieldMap) (name : String) (path : FieldPath) (kinds : List BsonKind) :
    FieldScan :=
  ⟨name, path, kinds, [], [], fields.startingAt (path ++ ['.'])⟩

-- The next field with its name inside this one, unless the next begins otherwise.
def next? (scan : FieldScan) : Option (FieldPath × FieldPath × List BsonKind) :=
  match scan.ahead with
  | [] => none
  | field :: _ => (after? (scan.path ++ ['.']) field.1).map (·, field)

def pass (scan : FieldScan) (path : FieldPath) : FieldScan :=
  { scan with visited := scan.visited ++ [path], ahead := scan.ahead.tail }

def add (scan : FieldScan) (name : String) (schema : Json) : FieldScan :=
  { scan with added := scan.added ++ [(name, schema)] }

def schema (scan : FieldScan) : Json := fieldObject scan.path scan.kinds scan.added

end FieldScan

structure Scanning where
  -- The scan under way, before those that wait for it.
  pending : List FieldScan
  ended : List FieldScan

namespace Scanning

def start (fields : FieldMap) (path : FieldPath) (kinds : List BsonKind) : Scanning :=
  ⟨[.start fields (.ofList path) path kinds], []⟩

-- The scan that waits is given the schema.
def finish (scan : FieldScan) (waiting ended : List FieldScan) : Scanning :=
  ⟨waiting.modifyHead (·.add scan.name scan.schema), ended ++ [scan]⟩

def next? (fields : FieldMap) (state : Scanning) : Option Scanning :=
  match state.pending with
  | [] => none
  | scan :: waiting =>
    match scan.next? with
    | none => some (finish scan waiting state.ended)
    | some (name, path, kinds) =>
      let passed := scan.pass path :: waiting
      if name.contains '.' then some ⟨passed, state.ended⟩
      else some ⟨.start fields (.ofList name) path kinds :: passed, state.ended⟩

def run? (fields : FieldMap) : Nat → Scanning → Option Scanning
  | 0, state => some state
  | turns + 1, state => (state.next? fields).bind (run? fields turns)

end Scanning

end QueryPad.Schema
