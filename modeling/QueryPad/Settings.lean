import QueryPad.Error

namespace QueryPad

inductive LogLevel where
  | error | warn | info | debug | trace
  deriving DecidableEq

namespace LogLevel

def all : List LogLevel := [error, warn, info, debug, trace]

def name : LogLevel → String
  | error => "error"
  | warn => "warn"
  | info => "info"
  | debug => "debug"
  | trace => "trace"

def ofName? (name : String) : Option LogLevel := all.find? (·.name = name)

-- Without regard to case, and with one more word for a level.
def ofText (text : String) : Except SettingsError LogLevel :=
  let word := text.map Char.toLower
  match ofName? (if word = "warning" then "warn" else word) with
  | some level => .ok level
  | none => .error (.invalidValue "logging.level" text)

end LogLevel

structure ConnectionSettings where
  uri : String := "mongodb://localhost:27017"
  database : String := "test"
  -- In seconds.
  timeout : Nat := 30
  deriving DecidableEq

structure CompletionSettings where
  -- How long names are kept, in seconds.
  cacheLifetime : Nat := 30
  sampleSize : Nat := 10
  schemas : Bool := true
  deriving DecidableEq

structure LoggingSettings where
  level : LogLevel := .warn
  timestamps : Bool := true
  deriving DecidableEq

structure Settings where
  connection : ConnectionSettings := {}
  completion : CompletionSettings := {}
  logging : LoggingSettings := {}
  deriving DecidableEq

-- The schemes of addresses that can be connected to.
def uriSchemes : List String := ["mongodb://", "mongodb+srv://"]

def hasKnownScheme (uri : String) : Bool :=
  uriSchemes.any fun scheme => scheme.toList.isPrefixOf uri.toList

namespace Settings

-- Reads the environment. What stands before a fault is kept.
def withEnvironment (settings : Settings) (variableOf : String → Option String) :
    Settings × Except SettingsError Unit :=
  let connection := settings.connection
  let settings :=
    { settings with
      connection :=
        { connection with
          uri := (variableOf "MONGO_SCRAPBOOK_URI").getD connection.uri
          database := (variableOf "MONGO_SCRAPBOOK_DATABASE").getD connection.database } }
  match variableOf "MONGO_SCRAPBOOK_LOG_LEVEL" with
  | none => (settings, .ok ())
  | some text =>
    match LogLevel.ofText text with
    | .ok level => ({ settings with logging := { settings.logging with level } }, .ok ())
    | .error error => (settings, .error error)

-- The address is looked at first.
def validate (settings : Settings) : Except SettingsError Unit :=
  if !hasKnownScheme settings.connection.uri then
    .error (.invalidValue "connection.uri" settings.connection.uri)
  else if settings.completion.sampleSize = 0 then
    .error (.invalidValue "completion.schema_sample_size" "0")
  else .ok ()

-- Spans of time in milliseconds.
def timeout (settings : Settings) : Nat := settings.connection.timeout * 1000

def cacheLifetime (settings : Settings) : Nat := settings.completion.cacheLifetime * 1000

end Settings

end QueryPad
