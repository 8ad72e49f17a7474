namespace QueryPad

-- The values of a TOML document. Floats and moments keep their text.
inductive Toml where
  | string (value : String)
  | integer (value : Int)
  | float (text : String)
  | boolean (value : Bool)
  | moment (text : String)
  | array (items : List Toml)
  | table (fields : List (String × Toml))

namespace Toml

instance : Inhabited Toml := ⟨table []⟩

def field? (value : Toml) (key : String) : Option Toml :=
  match value with
  | table fields => fields.lookup key
  | _ => none

-- A document while it is read. What a table may still take depends on how it
-- came to be.
inductive Origin where
  -- Under a header of its own.
  | header
  -- On the way to the table of another header.
  | implied
  -- By a dotted key.
  | dotted
  deriving DecidableEq

inductive Node where
  | value (value : Toml)
  | table (origin : Origin) (entries : List (String × Node))
  -- The newest first.
  | tables (items : List Node)

abbrev Entries := List (String × Node)

namespace Node

mutual

def toToml : Node → Toml
  | value plain => plain
  | table _ entries => .table (entriesToToml entries)
  | tables items => .array (itemsToToml items).reverse

def itemsToToml : List Node → List Toml
  | [] => []
  | item :: items => item.toToml :: itemsToToml items

def entriesToToml : Entries → List (String × Toml)
  | [] => []
  | (key, node) :: entries => (key, node.toToml) :: entriesToToml entries

end

end Node

namespace Entries

def toToml (entries : Entries) : Toml := .table (Node.entriesToToml entries)

-- An entry changed or made, or none if that is not allowed.
def alter (entries : Entries) (key : String) (change : Option Node → Option Node) :
    Option Entries :=
  match entries with
  | [] => do return [(key, ← change none)]
  | (known, node) :: rest =>
    if known = key then do return (known, ← change (some node)) :: rest
    else do return (known, node) :: (← alter rest key change)

-- Changes the table at the end of a path of headers. In an array of tables
-- that is the newest one.
def within (path : List String) (change : Entries → Option Entries) (entries : Entries) :
    Option Entries :=
  match path with
  | [] => change entries
  | key :: path =>
    alter entries key fun
      | none => do return .table .implied (← within path change [])
      | some (.table origin inner) => do return .table origin (← within path change inner)
      | some (.tables (.table origin inner :: older)) =>
        do return .tables (.table origin (← within path change inner) :: older)
      | _ => none

-- A header opens a table that has none yet.
def openTable (path : List String) (key : String) (entries : Entries) : Option Entries :=
  within path (fun entries =>
    alter entries key fun
      | none => some (.table .header [])
      | some (.table .implied inner) => some (.table .header inner)
      | _ => none) entries

-- A doubled header adds a table to an array of them.
def addTable (path : List String) (key : String) (entries : Entries) : Option Entries :=
  within path (fun entries =>
    alter entries key fun
      | none => some (.tables [.table .header []])
      | some (.tables items) => some (.tables (.table .header [] :: items))
      | _ => none) entries

-- A key is given once. The tables of a dotted key are made by such keys only.
def assign (path : List String) (key : String) (value : Toml) (entries : Entries) :
    Option Entries :=
  match path with
  | [] =>
    alter entries key fun
      | none => some (.value value)
      | some _ => none
  | first :: path =>
    alter entries first fun
      | none => do return .table .dotted (← assign path key value [])
      | some (.table .dotted inner) => do return .table .dotted (← assign path key value inner)
      | _ => none

end Entries

end Toml

end QueryPad
