import QueryPad.Calendar.Format
import QueryPad.Calendar.Reader
import QueryPad.Error
import QueryPad.Json.Number
import QueryPad.ObjectId
import QueryPad.Regex.Literal
import QueryPad.Regex.Storage
import QueryPad.Syntax.Tree

-- The values that literals mean, as extended JSON. What has no meaning is
-- reported, and an empty object stands in its place.
namespace QueryPad

open Calendar Text

-- When a pad is read, for calls that name no moment, and where new ids begin.
structure Occasion where
  now : Instant
  firstId : ObjectId

structure ValueReport where
  span : Span
  error : ValueError

structure Conversion where
  value : Json
  reports : List ValueReport

namespace Conversion

def of (value : Json) : Conversion := ⟨value, []⟩

def empty : Conversion := .of (.object [])

def failed (tree : Tree) (error : ValueError) : Conversion := ⟨.object [], [⟨tree.span, error⟩]⟩

def ofExcept (tree : Tree) : Except ValueError Json → Conversion
  | .ok value => .of value
  | .error error => failed tree error

end Conversion

namespace Literal

def isQuote (c : Char) : Bool := c = '"' || c = '\''

-- A text without its pair of quotes, if it has one.
def unquote : List Char → List Char
  | [] => []
  | c :: rest => if isQuote c && rest.getLast? = some c then rest.dropLast else c :: rest

def regex (chars : List Char) : Except ValueError Json :=
  let (pattern, flags) := Regex.splitLiteral chars
  match Regex.validate pattern flags with
  | .ok () =>
    .ok <| .object [("$regex", .string (.ofList (Regex.doubleFirstEscape pattern))),
      ("$options", .string (.ofList flags))]
  | .error fault => .error (.regex fault.message)

-- The meaning of one token, as part of a literal.
def ofToken (whole : Tree) (token : Token) : Except ValueError Json :=
  match token.kind with
  | .string => .ok (.string (.ofList (unquote token.chars)))
  | .null => .ok .null
  | .boolean => .ok (.bool (token.chars = "true".toList))
  | .number =>
    match JsonNumber.ofChars? token.chars with
    | some value => .ok (.number value)
    | none => .error (.number token.text)
  | .regex => regex token.chars
  | _ => .error (.notUnderstood token.text whole.text)

def objectIdNeeded : String :=
  "Argument passed in must be a string of 12 bytes or a string of 24 hex characters or an integer"

-- A call without an argument makes a new id, and calls at two places of a
-- text make different ones.
def objectId (occasion : Occasion) (place : Nat) :
    Option (List Char) → Except ValueError Json
  | none => .ok (wrap (occasion.firstId.advance place))
  | some hex =>
    match ObjectId.ofText (.ofList hex) with
    | .ok id => .ok (wrap id)
    | .error _ => .error (.objectId objectIdNeeded)
where
  wrap (id : ObjectId) : Json := .object [("$oid", .string id.toText)]

def date (occasion : Occasion) (layout : Layout) (text : Option (List Char)) :
    Except ValueError Json := do
  let instant ← match text with
    | none => pure occasion.now
    | some chars =>
      match Instant.ofChars? chars with
      | some instant => pure instant
      | none => throw (.date (.ofList chars))
  return .object [("$date", .string (layout.write instant))]

-- Dates of the standard form need no sign of their zone.
def inUniversalTime (chars : List Char) : List Char :=
  if chars.getLast? = some 'Z' then chars else chars ++ ['Z']

-- What a call makes of its argument.
def make (occasion : Occasion) (call : Tree) (name : String) (argument : Option (List Char)) :
    Except ValueError Json :=
  match name with
  | "ObjectId" => objectId occasion call.start argument
  | "ISODate" => date occasion .iso (argument.map inUniversalTime)
  | "Date" => date occasion .verboseUniversal argument
  | _ => .error (.notUnderstood name call.text)

def callName (call : Tree) : String :=
  ((call.children.find? (·.isTerminal .identifier)).map Tree.text).getD ""

-- An argument without text is none.
def call (occasion : Occasion) (call : Tree) : Conversion :=
  match call.childOf? .arguments with
  | none => .empty
  | some list => .ofExcept call <|
    if !list.children.any (·.isTerminal .openParen) then
      .error (.syntax_ ("Expecting parentheses or quotes at '" ++ call.text ++ "'"))
    else
      match list.childrenOf .argument with
      | [] => make occasion call (callName call) none
      | [argument] =>
        make occasion call (callName call) <|
          if argument.chars.isEmpty then none else some (unquote argument.chars)
      | _ => .error (.tooManyArguments (callName call))

def ofLeaf (whole : Tree) : List Tree → Conversion
  | .terminal token :: _ | .error token :: _ => .ofExcept whole (ofToken whole token)
  | _ => .empty

end Literal

namespace Tree

open Literal

mutual

def convert (occasion : Occasion) : Tree → Conversion
  | .node .argument _ children => convertFirst occasion children
  | .node .propertyValue _ children => convertFirst occasion children
  | .node .literal start children => ofLeaf (.node .literal start children) children
  | .node .objectLiteral _ children =>
    let (fields, reports) := convertLists occasion children
    ⟨.object (mergeFields fields), reports⟩
  | .node .arrayLiteral _ children =>
    let (items, reports) := convertElementLists occasion children
    ⟨.array items, reports⟩
  | .node .functionCall start children => call occasion (.node .functionCall start children)
  | .node rule start children =>
    let tree := Tree.node rule start children
    .failed tree (.notUnderstood tree.kindName tree.text)
  | .error _ => .empty
  | .terminal token =>
    .failed (.terminal token) (.notUnderstood (Tree.terminal token).kindName token.text)

-- The first child that is no leaf gives the value.
def convertFirst (occasion : Occasion) : List Tree → Conversion
  | [] => .empty
  | .terminal _ :: trees | .error _ :: trees => convertFirst occasion trees
  | .node rule start children :: _ => convert occasion (.node rule start children)

-- The lists of properties among the children of an object.
def convertLists (occasion : Occasion) : List Tree → List (String × Json) × List ValueReport
  | [] => ([], [])
  | .node .propertyNameAndValueList _ assignments :: trees =>
    let (fields, reports) := convertAssignments occasion assignments
    let (more, others) := convertLists occasion trees
    (fields ++ more, reports ++ others)
  | _ :: trees => convertLists occasion trees

def convertAssignments (occasion : Occasion) :
    List Tree → List (String × Json) × List ValueReport
  | [] => ([], [])
  | .node .propertyAssignment _ parts :: trees =>
    let (more, others) := convertAssignments occasion trees
    match parts.find? (·.is .propertyName) with
    | none => (more, others)
    | some name =>
      let conversion := convertValueOf occasion parts
      ((.ofList (unquote name.chars), conversion.value) :: more, conversion.reports ++ others)
  | _ :: trees => convertAssignments occasion trees

-- The value after a property name, empty if there is none.
def convertValueOf (occasion : Occasion) : List Tree → Conversion
  | [] => .empty
  | .node .propertyValue _ children :: _ => convertFirst occasion children
  | _ :: trees => convertValueOf occasion trees

-- The lists of elements among the children of an array.
def convertElementLists (occasion : Occasion) : List Tree → List Json × List ValueReport
  | [] => ([], [])
  | .node .elementList _ elements :: trees =>
    let (items, reports) := convertElements occasion elements
    let (more, others) := convertElementLists occasion trees
    (items ++ more, reports ++ others)
  | _ :: trees => convertElementLists occasion trees

def convertElements (occasion : Occasion) : List Tree → List Json × List ValueReport
  | [] => ([], [])
  | .node .propertyValue _ children :: trees =>
    let conversion := convertFirst occasion children
    let (more, others) := convertElements occasion trees
    (conversion.value :: more, conversion.reports ++ others)
  | _ :: trees => convertElements occasion trees

end

end Tree

end QueryPad
