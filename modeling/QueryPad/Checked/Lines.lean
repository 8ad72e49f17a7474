import QueryPad.Checked
import QueryPad.Text.Lines

-- A text with the offsets at which its lines begin. Offsets become places and
-- places become offsets by looking into the text.
namespace QueryPad

open Text

structure LineTable where
  text : List Char
  starts : List Nat

namespace LineTable

def size (table : LineTable) : Nat := byteSize table.text

-- Behind a byte number, where lines begin: after CR LF (13, 10), CR and LF.
def startsFrom (bytes : List UInt8) (i : Nat) : Checked (List Nat) :=
  if i < bytes.length then do
    let byte ← Checked.item bytes i
    if byte = 13 ∧ bytes[i + 1]? = some 10 then
      return (i + 2) :: (← startsFrom bytes (i + 2))
    else if byte = 13 ∨ byte = 10 then
      return (i + 1) :: (← startsFrom bytes (i + 1))
    else startsFrom bytes (i + 1)
  else return []
termination_by bytes.length - i

def ofChars (text : List Char) : Checked LineTable := do
  return ⟨text, 0 :: (← startsFrom (text.flatMap String.utf8EncodeChar) 0)⟩

-- Between two characters, or at an end of the text.
def isCut (text : List Char) (offset : Nat) : Bool := (splitAtByte? text offset).isSome

-- The next cut from an offset downwards.
def clamp (text : List Char) : Nat → Checked Nat
  | 0 => if isCut text 0 then .ok 0 else .error .difference
  | offset + 1 => if isCut text (offset + 1) then .ok (offset + 1) else clamp text offset

def positionAt (table : LineTable) (offset : Nat) : Checked Position := do
  let offset ← clamp table.text (min offset table.size)
  let line ← Checked.minus (table.starts.takeWhile (· ≤ offset)).length 1
  let start ← Checked.item table.starts line
  return ⟨line, unitSize (← Checked.cut table.text start offset)⟩

def withoutEnding (line : List Char) : List Char :=
  (line.reverse.dropWhile fun c => c = '\n' || c = '\r').reverse

def lineEnd (table : LineTable) (line : Nat) : Checked Nat := do
  let next := table.starts[line + 1]?.getD table.size
  let start ← Checked.item table.starts line
  return start + byteSize (withoutEnding (← Checked.cut table.text start next))

-- The offset so many UTF-16 units further, but not inside a character.
def advance (offset units : Nat) : List Char → Checked Nat
  | [] => .ok offset
  | c :: rest =>
    if units = 0 ∨ units < units16 c then .ok offset
    else do advance (offset + c.utf8Size) (← Checked.minus units (units16 c)) rest

def offsetAt (table : LineTable) (p : Position) : Checked Nat :=
  if table.starts.length ≤ p.line then .ok table.size
  else do
    let start ← Checked.item table.starts p.line
    let stop ← table.lineEnd p.line
    advance start p.character (← Checked.cut table.text start stop)

def range (table : LineTable) (span : Span) : Checked Range := do
  return ⟨← table.positionAt span.start, ← table.positionAt span.stop⟩

def emptyRange (table : LineTable) (offset : Nat) : Checked Range := do
  return .emptyAt (← table.positionAt offset)

end LineTable

end QueryPad
