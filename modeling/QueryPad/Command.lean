import QueryPad.Bson
import QueryPad.Pad

namespace QueryPad

open Text

-- An argument as extended JSON, and the value that this text denotes.
structure Argument where
  text : String
  value : Bson

-- A call on a collection or on the database, and what is wrong with it.
structure Command where
  range : Range
  text : String
  collection : Option String
  name : String
  -- Those of the first call.
  arguments : List Argument
  -- Whether further calls follow the first.
  chained : Bool
  errors : List Diagnostic

namespace Command

-- Covers a range of the text and says nothing.
def covering (range : Range) : Command := ⟨range, "", none, "", [], false, []⟩

-- Holds an error that no command of the text can hold.
def placeholder (error : Diagnostic) : Command :=
  { covering error.range with errors := [error] }

def withError (command : Command) (error : Diagnostic) : Command :=
  { command with errors := command.errors ++ [error] }

end Command

end QueryPad
