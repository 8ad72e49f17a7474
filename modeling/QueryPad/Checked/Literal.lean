import QueryPad.Checked
import QueryPad.Command.Literal

-- The texts of tokens taken apart by byte and by character: quotes, the parts
-- of a regular expression, and the way its groups open.
namespace QueryPad.Checked

open Text Regex

-- A text without its pair of quotes (34 or 39), told by its outer bytes.
def unquote (chars : List Char) : Checked (List Char) := do
  let bytes := chars.flatMap String.utf8EncodeChar
  if 2 ≤ bytes.length then
    let first ← item bytes 0
    let last ← item bytes (← minus bytes.length 1)
    if first = last ∧ (first = 34 ∨ first = 39) then cut chars 1 (← minus bytes.length 1)
    else return chars
  else return chars

-- Where the last slash stands, or the start if there is none.
def lastSlash (chars : List Char) : Nat :=
  byteSize ((chars.reverse.dropWhile (· ≠ '/')).drop 1).reverse

-- What cannot be cut out before the slash is empty. What is behind it has to
-- be there.
def splitLiteral (chars : List Char) : Checked (List Char × List Char) := do
  let slash := lastSlash chars
  let flags ← cut chars (slash + 1) (byteSize chars)
  return ((slice? chars 1 slash).getD [], flags)

-- Whether groups open as scripts know them, from a character on.
def groupsFrom (chars : List Char) (inSet : Bool) (i : Nat) : Checked Bool :=
  if i < chars.length then do
    let c ← item chars i
    if c = '\\' then groupsFrom chars inSet (i + 2)
    else if c = '[' then groupsFrom chars true (i + 1)
    else if c = ']' then groupsFrom chars false (i + 1)
    else if c = '(' && !inSet && chars[i + 1]? = some '?' &&
        !groupsInOrder.opensKnown (chars.drop (i + 2)) then return false
    else groupsFrom chars inSet (i + 1)
  else return true
termination_by chars.length - i

def validate (pattern flags : List Char) : Checked (Except Fault Unit) := do
  if !flagsInOrder flags then return .error (.flags (.ofList flags))
  else if !(← groupsFrom pattern false 0) then return .error (.group (.ofList pattern))
  else return tryWith compile pattern flags

def regex (chars : List Char) : Checked (Except ValueError Json) := do
  let (pattern, flags) ← splitLiteral chars
  match ← validate pattern flags with
  | .ok () =>
    return .ok <| .object [("$regex", .string (.ofList (doubleFirstEscape pattern))),
      ("$options", .string (.ofList flags))]
  | .error fault => return .error (.regex fault.message)

end QueryPad.Checked
