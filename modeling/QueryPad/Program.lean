import QueryPad.CommandLine.Reader
import QueryPad.Command.Report
import QueryPad.Completion
import QueryPad.Connection
import QueryPad.Program.ShellScript
import QueryPad.Program.Surroundings

-- What the program writes, and how it ends, for its arguments and for what it
-- finds around it.
namespace QueryPad

open Text

structure Outcome where
  code : Nat
  output : String
  errors : String
  deriving DecidableEq

namespace Outcome

def done (output : String) : Outcome := ⟨0, output, ""⟩

def failed (error : PadError) : Outcome := ⟨1, "", "Error: " ++ error.message ++ "\n"⟩

end Outcome

namespace Program

def version : String := "mongo-scrapbook 0.9.0\n"

def usage : String :=
  "Usage: mongo-scrapbook [OPTIONS] <TASK>\n\n" ++
    "Tasks:\n" ++
    "  check FILE                              Report syntax errors\n" ++
    "  commands FILE [--pretty]                Print the commands as JSON\n" ++
    "  complete FILE --line N --character N [--uri URI] [--database NAME]\n" ++
    "                                          Print completion items as JSON\n" ++
    "  lsp                                     Serve an editor\n" ++
    "  completion SHELL                        Print a shell script\n" ++
    "  config [--show]                         Show the settings\n\n" ++
    "Options:\n" ++
    "  -c, --config FILE                       Settings file\n" ++
    "  -v, --verbose                           Tell more\n" ++
    "      --vv                                Tell most\n" ++
    "  -h, --help                              Print this\n" ++
    "  -V, --version                           Print the version\n"

-- Questions are answered, and all else is a mistake of use.
def refuse : UsageFault → Outcome
  | .helpWanted => .done usage
  | .versionWanted => .done version
  | _ => ⟨2, "", usage⟩

-- A level that is asked for counts before that of the settings.
def withLevel (invocation : Invocation) (settings : Settings) : Settings :=
  let level :=
    if invocation.veryVerbose then .trace
    else if invocation.verbose then .debug
    else settings.logging.level
  { settings with logging := { settings.logging with level } }

-- A report of errors ends the program with one.
def check (around : Surroundings) (file : String) : Except PadError Outcome := do
  let text ← around.read file
  let diagnostics := (Pad.ofText text).diagnostics around.occasion
  return ⟨if diagnostics.isEmpty then 0 else 1, checkReport file diagnostics, ""⟩

def commands (around : Surroundings) (file : String) (pretty : Bool) :
    Except PadError Outcome := do
  let text ← around.read file
  return .done (Command.renderList ((Pad.ofText text).commands around.occasion) pretty ++ "\n")

-- A database is connected to only if one is named.
def complete (around : Surroundings) (settings : Settings) (file : String) (p : Position)
    (uri database : Option String) : Except PadError Outcome := do
  let text ← around.read file
  if uri.isSome || database.isSome then
    let _ ← (ConnectionState.connect unreachable (uri.getD settings.connection.uri)
      (database.getD settings.connection.database)).mapError .connection
  let items ← (Pad.ofText text).completions (.ok []) .empty p
  return .done ((CompletionItem.listToJson items).pretty ++ "\n")

def perform (around : Surroundings) (invocation : Invocation) (settings : Settings) :
    Except PadError Outcome :=
  match invocation.task with
  | .check file => check around file
  | .commands file pretty => commands around file pretty
  | .complete file line column uri database =>
    complete around settings file ⟨line - 1, column - 1⟩ uri database
  | .serve => .ok (.done "")
  | .shellScript shell =>
    ((Shell.ofText shell).mapError .settings).map fun shell => .done shell.script
  | .settings shown =>
    .ok <| .done <|
      if shown then
        "# Configuration file: " ++
          invocation.settingsFile.getD around.defaultSettingsFile ++ "\n" ++ settings.toText
      else ""

-- Settings are read before anything else is done.
def run (around : Surroundings) (arguments : List String) : Outcome :=
  match Invocation.ofArguments arguments with
  | .error fault => refuse fault
  | .ok invocation =>
    let result := do
      let settings ← around.settings invocation.settingsFile
      perform around invocation (withLevel invocation settings)
    match result with
    | .ok outcome => outcome
    | .error error => .failed error

-- The files that a run may read.
def files (around : Surroundings) (invocation : Invocation) : List String :=
  let file := match invocation.task with
    | .check file | .commands file _ | .complete file .. => [file]
    | _ => []
  invocation.settingsFile.getD around.defaultSettingsFile :: file

end Program

end QueryPad
