namespace QueryPad

-- What the program is asked to do. Lines and columns count from 1.
inductive Task where
  | check (file : String)
  | commands (file : String) (pretty : Bool)
  | complete (file : String) (line column : Nat) (uri database : Option String)
  | serve
  | shellScript (shell : String)
  | settings (shown : Bool)
  deriving DecidableEq

structure Invocation where
  settingsFile : Option String
  verbose : Bool
  veryVerbose : Bool
  task : Task
  deriving DecidableEq

-- Why arguments ask for nothing.
inductive UsageFault where
  | nothingAsked | helpWanted | versionWanted
  | missingTask | unknownTask
  | missingArgument | unknownArgument
  | missingValue | badValue | unwantedValue | repeated
  deriving DecidableEq

-- One thing that arguments can say.
inductive Slot where
  | settingsFile | verbose | veryVerbose | help | version
  | file | pretty | line | column | uri | database | shell | shown
  deriving DecidableEq

inductive SlotKind where
  | flag | path | text | number
  deriving DecidableEq

namespace Slot

def kind : Slot → SlotKind
  | verbose | veryVerbose | help | version | pretty | shown => .flag
  | settingsFile | file => .path
  | line | column => .number
  | uri | database | shell => .text

-- The option behind two hyphens.
def long? : Slot → Option String
  | settingsFile => some "config"
  | verbose => some "verbose"
  | veryVerbose => some "vv"
  | help => some "help"
  | version => some "version"
  | pretty => some "pretty"
  | line => some "line"
  | column => some "character"
  | uri => some "uri"
  | database => some "database"
  | shown => some "show"
  | file | shell => none

-- The option behind one hyphen.
def short? : Slot → Option Char
  | settingsFile => some 'c'
  | verbose => some 'v'
  | help => some 'h'
  | version => some 'V'
  | database => some 'd'
  | _ => none

end Slot

-- What may be said in one part of the arguments. A part with tasks ends where
-- the name of a task stands.
structure Form where
  options : List Slot
  place : Option Slot := none
  required : List Slot := []
  tasks : List String := []

namespace Form

-- Options that may stand before the task and behind it.
def common : List Slot := [.settingsFile, .verbose, .veryVerbose, .help]

def taskNames : List String :=
  ["check", "commands", "complete", "lsp", "completion", "config", "help"]

def program : Form := { options := .version :: common, tasks := taskNames }

def ofTask (name : String) : Form :=
  match name with
  | "check" => { options := common, place := some .file, required := [.file] }
  | "commands" => { options := .pretty :: common, place := some .file, required := [.file] }
  | "complete" =>
    { options := [.line, .column, .uri, .database] ++ common
      place := some .file
      required := [.file, .line, .column] }
  | "completion" => { options := common, place := some .shell, required := [.shell] }
  | "config" => { options := .shown :: common }
  | _ => { options := common }

end Form

end QueryPad
