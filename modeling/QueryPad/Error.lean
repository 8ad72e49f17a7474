namespace QueryPad

inductive ConnectionError where
  | failed (reason : String)
  -- An address without a known scheme.
  | invalidUri (uri : String)
  | malformedUri (reason : String)
  | notConnected
  | listingFailed (reason : String)
  deriving DecidableEq

-- A value that a pad cannot mean, or a place that it does not have.
inductive ValueError where
  | syntax_ (reason : String)
  | number (text : String)
  | regex (reason : String)
  | objectId (reason : String)
  | date (text : String)
  | tooManyArguments (function : String)
  | unrecognized (reason : String)
  | position (line character : Nat)
  deriving DecidableEq

inductive SchemaError where
  | notFound (uri : String)
  | samplingFailed (reason : String)
  | completionFailed (reason : String)
  deriving DecidableEq

inductive SettingsError where
  | fileNotFound (path : String)
  | invalidFormat (reason : String)
  | invalidValue (field value : String)
  | generic (reason : String)
  deriving DecidableEq

inductive PadError where
  | connection (error : ConnectionError)
  | value (error : ValueError)
  | schema (error : SchemaError)
  | settings (error : SettingsError)
  | io (reason : String)
  | generic (reason : String)
  deriving DecidableEq

def ConnectionError.message : ConnectionError → String
  | failed reason => "Failed to connect: " ++ reason
  | invalidUri uri => "Invalid connection URI: " ++ uri
  | malformedUri reason => "Invalid connection URI: " ++ reason
  | notConnected => "Not connected to MongoDB"
  | listingFailed reason => "Failed to list collections: " ++ reason

def ValueError.message : ValueError → String
  | syntax_ reason => reason
  | number text => "Invalid numeric literal: " ++ text
  | regex reason => "Invalid regular expression: " ++ reason
  | objectId reason => reason
  | date _ => "Invalid Date"
  | tooManyArguments function =>
    "Too many arguments. Expecting 0 or 1 argument(s) to " ++ function
  | unrecognized reason => reason
  | position line character =>
    "Position " ++ toString line ++ ":" ++ toString character ++ " is outside the document"

def SchemaError.message : SchemaError → String
  | notFound uri => "No schema registered for " ++ uri
  | samplingFailed reason => "Failed to sample documents: " ++ reason
  | completionFailed reason => "JSON completion failed: " ++ reason

def SettingsError.message : SettingsError → String
  | fileNotFound path => "Config file not found: " ++ path
  | invalidFormat reason => "Invalid config format: " ++ reason
  | invalidValue field value => "Invalid value '" ++ value ++ "' for field '" ++ field ++ "'"
  | generic reason => reason

def PadError.message : PadError → String
  | connection error => "Connection error: " ++ error.message
  | value error => error.message
  | schema error => "Schema error: " ++ error.message
  | settings error => "Configuration error: " ++ error.message
  | io reason => "I/O error: " ++ reason
  | generic reason => reason

-- What a text is part of that has no meaning.
def ValueError.notUnderstood (part whole : String) : ValueError :=
  .unrecognized <|
    "Unrecognized node type encountered. Could not parse " ++ part ++ " as part of " ++ whole

end QueryPad
