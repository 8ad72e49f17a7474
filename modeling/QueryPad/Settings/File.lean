import QueryPad.Number.Word
import QueryPad.Settings
import QueryPad.Toml.Printer
import QueryPad.Toml.Reader

-- Settings as a file holds them. What a file leaves out keeps its default,
-- and what no setting is called by is passed over.
namespace QueryPad

open Toml

-- How one setting is read from its value.
abbrev Reads (α : Type) := Toml → Option α

namespace Reads

def string : Reads String
  | .string value => some value
  | _ => none

def boolean : Reads Bool
  | .boolean value => some value
  | _ => none

-- Counts fit into 64 bits.
def count : Reads Nat
  | .integer (.ofNat n) => if Number.fitsUnsigned 64 n then some n else none
  | _ => none

-- A level is named by a text, or by the only key of a table with nothing in
-- it.
def level : Reads LogLevel
  | .string name => LogLevel.ofName? name
  | .table [(name, .table [])] | .table [(name, .array [])] => LogLevel.ofName? name
  | _ => none

-- A part of a group: by its name in a table, by its place in an array.
def part {α : Type} (group : Toml) (name : String) (place : Nat) (default : α) (read : Reads α) :
    Option α :=
  match group with
  | .table fields =>
    match fields.lookup name with
    | some value => read value
    | none => some default
  | .array items =>
    match items[place]? with
    | some value => read value
    | none => some default
  | _ => none

end Reads

namespace Settings

open Reads

def readConnection : Reads ConnectionSettings := fun group => do
  let base : ConnectionSettings := {}
  return {
    uri := ← part group "uri" 0 base.uri string
    database := ← part group "database" 1 base.database string
    timeout := ← part group "timeout" 2 base.timeout count }

def readCompletion : Reads CompletionSettings := fun group => do
  let base : CompletionSettings := {}
  return {
    cacheLifetime := ← part group "collection_cache_ttl" 0 base.cacheLifetime count
    sampleSize := ← part group "schema_sample_size" 1 base.sampleSize count
    schemas := ← part group "enable_schema" 2 base.schemas boolean }

def readLogging : Reads LoggingSettings := fun group => do
  let base : LoggingSettings := {}
  return {
    level := ← part group "level" 0 base.level level
    timestamps := ← part group "timestamps" 1 base.timestamps boolean }

def ofToml? : Reads Settings := fun document => do
  return {
    connection := ← part document "connection" 0 {} readConnection
    completion := ← part document "completion" 1 {} readCompletion
    logging := ← part document "logging" 2 {} readLogging }

def ofText (text : String) : Except SettingsError Settings :=
  match Toml.ofText? text with
  | none => .error (.invalidFormat "not a TOML document")
  | some document =>
    match ofToml? document with
    | some settings => .ok settings
    | none => .error (.invalidFormat "a setting has a value of another type")

private def setting (name value : String) : String := name ++ " = " ++ value ++ "\n"

-- All settings, in groups with a blank line between them.
def toText (settings : Settings) : String :=
  "[connection]\n" ++
    setting "uri" (quote settings.connection.uri) ++
    setting "database" (quote settings.connection.database) ++
    setting "timeout" (toString settings.connection.timeout) ++
    "\n[completion]\n" ++
    setting "collection_cache_ttl" (toString settings.completion.cacheLifetime) ++
    setting "schema_sample_size" (toString settings.completion.sampleSize) ++
    setting "enable_schema" (toString settings.completion.schemas) ++
    "\n[logging]\n" ++
    setting "level" (quote settings.logging.level.name) ++
    setting "timestamps" (toString settings.logging.timestamps)

end Settings

end QueryPad
