import QueryPad.Json.Value
import QueryPad.Number.Shortest

namespace QueryPad

open Number

-- Plain from five places behind the point to sixteen before it.
def JsonNumber.format : DecimalFormat := ⟨-5, 15⟩

def JsonNumber.render : JsonNumber → String
  | integer value => toString value
  | double value => (if value.negative then "-" else "") ++ format.write (shortest value)

namespace Json

def hexDigits (n : Nat) : List Char :=
  let digits := Nat.toDigits 16 n
  List.replicate (4 - digits.length) '0' ++ digits

-- Quotes, backslashes and control characters are escaped, nothing else is.
def escape (c : Char) : List Char :=
  if c = '"' then ['\\', '"']
  else if c = '\\' then ['\\', '\\']
  else if c = '\n' then ['\\', 'n']
  else if c = '\r' then ['\\', 'r']
  else if c = '\t' then ['\\', 't']
  else if c = '\x08' then ['\\', 'b']
  else if c = '\x0c' then ['\\', 'f']
  else if c.toNat < 32 then '\\' :: 'u' :: hexDigits c.toNat
  else [c]

def quote (text : String) : String :=
  String.ofList ('"' :: text.toList.flatMap escape ++ ['"'])

mutual

-- Without any blank.
def render : Json → String
  | null => "null"
  | bool value => if value then "true" else "false"
  | number value => value.render
  | string value => quote value
  | array items => "[" ++ renderItems items ++ "]"
  | object fields => "\x7b" ++ renderFields fields ++ "\x7d"

def renderItems : List Json → String
  | [] => ""
  | [item] => item.render
  | item :: next :: items => item.render ++ "," ++ renderItems (next :: items)

def renderFields : List (String × Json) → String
  | [] => ""
  | [(key, field)] => quote key ++ ":" ++ field.render
  | (key, field) :: next :: fields =>
    quote key ++ ":" ++ field.render ++ "," ++ renderFields (next :: fields)

end

def newLine (depth : Nat) : String := "\n" ++ String.ofList (List.replicate (2 * depth) ' ')

mutual

-- One item on a line, two blanks for each level.
def renderPretty (depth : Nat) : Json → String
  | array [] => "[]"
  | array (item :: items) => "[" ++ prettyItems (depth + 1) (item :: items) ++ newLine depth ++ "]"
  | object [] => "\x7b\x7d"
  | object (field :: fields) =>
    "\x7b" ++ prettyFields (depth + 1) (field :: fields) ++ newLine depth ++ "\x7d"
  | null => "null"
  | bool value => if value then "true" else "false"
  | number value => value.render
  | string value => quote value

def prettyItems (depth : Nat) : List Json → String
  | [] => ""
  | [item] => newLine depth ++ item.renderPretty depth
  | item :: next :: items =>
    newLine depth ++ item.renderPretty depth ++ "," ++ prettyItems depth (next :: items)

def prettyFields (depth : Nat) : List (String × Json) → String
  | [] => ""
  | [(key, field)] => newLine depth ++ quote key ++ ": " ++ field.renderPretty depth
  | (key, field) :: next :: fields =>
    newLine depth ++ quote key ++ ": " ++ field.renderPretty depth ++ "," ++
      prettyFields depth (next :: fields)

end

def pretty (json : Json) : String := json.renderPretty 0

end Json

end QueryPad
