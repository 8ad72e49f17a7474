import QueryPad.Json.Value
import QueryPad.Number.Word
import QueryPad.Text.Position

-- The parameters of the methods that the server knows.
namespace QueryPad.Parameters

open Text

-- The fields of a record: by name in an object, by place in an array.
def field? (names : List String) (record : Json) (name : String) : Option Json :=
  match record with
  | .object fields => fields.lookup name
  | .array items => if items.length = names.length then items[names.idxOf name]? else none
  | _ => none

def version? (json : Json) : Option Int := do
  let n ← json.int?
  guard (Number.fitsSigned 32 n)
  return n

def count? (json : Json) : Option Nat := do
  let n ← json.nat?
  guard (Number.fitsUnsigned 32 n)
  return n

def position? (json : Json) : Option Position := do
  let names := ["line", "character"]
  let line ← count? (← field? names json "line")
  let character ← count? (← field? names json "character")
  return ⟨line, character⟩

def range? (json : Json) : Option Range := do
  let names := ["start", "end"]
  let start ← position? (← field? names json "start")
  let stop ← position? (← field? names json "end")
  return ⟨start, stop⟩

def isSchemeChar (c : Char) : Bool := c.isAlphanum || c = '+' || c = '-' || c = '.'

-- Characters of an address that stand for themselves.
def isUriChar (c : Char) : Bool :=
  '!' ≤ c && c ≤ '~' && !(['"', '<', '>', '\x60', '{', '}'].contains c)

def hexByte (byte : UInt8) : List Char :=
  let digit (n : Nat) : Char := if n < 10 then Char.ofNat (48 + n) else Char.ofNat (55 + n)
  ['%', digit (byte.toNat / 16), digit (byte.toNat % 16)]

-- An address with a scheme, its other characters escaped.
def uri? (json : Json) : Option String := do
  let cs := (← json.string?).toList
  let scheme := cs.takeWhile (· ≠ ':')
  guard (scheme.length < cs.length && scheme.all isSchemeChar &&
    scheme.head?.any Char.isAlpha)
  let rest := (cs.drop scheme.length).flatMap fun c =>
    if isUriChar c then [c] else (String.singleton c).toUTF8.toList.flatMap hexByte
  return .ofList (scheme.map Char.toLower ++ rest)

def documentUri? (parameters : Json) : Option String := do
  uri? (← field? ["uri"] (← parameters.field? "textDocument") "uri")

structure Opened where
  uri : String
  version : Int
  text : String

def opened? (parameters : Json) : Option Opened := do
  let document ← field? ["textDocument"] parameters "textDocument"
  let part := field? ["uri", "languageId", "version", "text"] document
  let _ ← (← part "languageId").string?
  return ⟨← uri? (← part "uri"), ← version? (← part "version"), ← (← part "text").string?⟩

-- The text of a change. The range that it may have is not looked at.
def changedText? (change : Json) : Option String := do
  let part := field? ["range", "rangeLength", "text"] change
  if let some range := part "range" then
    if !(range matches .null) then let _ ← range? range
  if let some length := part "rangeLength" then
    if !(length matches .null) then let _ ← count? length
  (← part "text").string?

structure Changed where
  uri : String
  version : Int
  -- The last of the changes, if there is one.
  text : Option String

def changed? (parameters : Json) : Option Changed := do
  let part := field? ["textDocument", "contentChanges"] parameters
  let document := field? ["uri", "version"] (← part "textDocument")
  let texts ← (← (← part "contentChanges").items?).mapM changedText?
  return ⟨← uri? (← document "uri"), ← version? (← document "version"), texts.getLast?⟩

def closed? (parameters : Json) : Option String := do
  let document ← field? ["textDocument"] parameters "textDocument"
  uri? (← field? ["uri"] document "uri")

structure Asked where
  uri : String
  position : Position

def asked? (parameters : Json) : Option Asked := do
  return ⟨← documentUri? parameters, ← position? (← parameters.field? "position")⟩

structure Address where
  uri : String
  database : String

def address? (parameters : Json) : Option Address := do
  let part := field? ["connectionString", "databaseName"] parameters
  return ⟨← (← part "connectionString").string?, ← (← part "databaseName").string?⟩

-- A client says what it can do.
def greeting? (parameters : Json) : Option Unit :=
  match parameters.field? "capabilities" with
  | some (.object _) => some ()
  | _ => none

-- Parameters of any names.
def record? : Json → Option Unit
  | .object _ | .array [] => some ()
  | _ => none

end QueryPad.Parameters
