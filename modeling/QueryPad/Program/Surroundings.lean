import QueryPad.Command.Literal
import QueryPad.Settings.File

namespace QueryPad

-- Why a file gives no text.
inductive FileFault where
  | missing | directory | notText
  | other (reason : String)
  deriving DecidableEq

def FileFault.message : FileFault → String
  | missing => "No such file or directory (os error 2)"
  | directory => "Is a directory (os error 21)"
  | notText => "stream did not contain valid UTF-8"
  | other reason => reason

-- What a run of the program finds around it.
structure Surroundings where
  file : String → Except FileFault String
  variableOf : String → Option String
  home : String
  occasion : Occasion

namespace Surroundings

def read (around : Surroundings) (path : String) : Except PadError String :=
  (around.file path).mapError fun fault => .io fault.message

def defaultSettingsFile (around : Surroundings) : String :=
  around.home ++ "/.mongo-scrapbook/config.toml"

-- A file that was asked for has to be there.
def settingsInFile (around : Surroundings) (path : Option String) : Except PadError Settings :=
  match around.file (path.getD around.defaultSettingsFile), path with
  | .ok text, _ => (Settings.ofText text).mapError .settings
  | .error .missing, none => .ok {}
  | .error .missing, some path => .error (.settings (.fileNotFound path))
  | .error fault, _ => .error (.io fault.message)

-- The environment counts before the file.
def settings (around : Surroundings) (path : Option String) : Except PadError Settings := do
  let stored ← around.settingsInFile path
  let (settings, read) := stored.withEnvironment around.variableOf
  read.mapError .settings
  settings.validate.mapError .settings
  return settings

end Surroundings

end QueryPad
