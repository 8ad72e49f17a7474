import QueryPad.Command.Placement
import QueryPad.Json.Printer

-- Commands and diagnostics as they are shown to people and to editors.
namespace QueryPad

open Text

def Text.Position.toJson (p : Position) : Json :=
  .object [("line", .nat p.line), ("character", .nat p.character)]

def Text.Range.toJson (range : Range) : Json :=
  .object [("start", range.start.toJson), ("end", range.stop.toJson)]

namespace Diagnostic

def source : String := "mongo"

-- As a field of a command.
def toJson (diagnostic : Diagnostic) : Json :=
  .object [("message", .string diagnostic.message), ("range", diagnostic.range.toJson)]

-- As an error for an editor.
def toEditor (diagnostic : Diagnostic) : Json :=
  .object [("range", diagnostic.range.toJson), ("severity", .nat 1),
    ("source", .string source), ("message", .string diagnostic.message)]

-- Lines and columns count from 1.
def reportLine (path : String) (diagnostic : Diagnostic) : String :=
  path ++ ":" ++ toString (diagnostic.range.start.line + 1) ++ ":" ++
    toString (diagnostic.range.start.character + 1) ++ ": error: " ++ diagnostic.message

end Diagnostic

namespace Command

-- Absent parts are left out.
def toJson (command : Command) : Json :=
  .object <|
    [("range", command.range.toJson), ("text", .string command.text)] ++
    (command.collection.map fun name => ("collection", Json.string name)).toList ++
    [("name", .string command.name),
      ("arguments", .ofStrings (command.arguments.map Argument.text)),
      ("argumentObjects", .array (command.arguments.map (·.value.toJson))),
      ("chained", .bool command.chained)] ++
    (if command.errors.isEmpty then []
      else [("errors", .array (command.errors.map Diagnostic.toJson))])

def listToJson (commands : List Command) : Json := .array (commands.map toJson)

-- On one line, or spread over many.
def renderList (commands : List Command) (pretty : Bool) : String :=
  if pretty then (listToJson commands).pretty else (listToJson commands).render

end Command

-- A line for each diagnostic.
def checkReport (path : String) (diagnostics : List Diagnostic) : String :=
  String.join (diagnostics.map fun diagnostic => diagnostic.reportLine path ++ "\n")

end QueryPad
