import QueryPad.Text.Letter
import QueryPad.Text.Position
import QueryPad.Text.Width

namespace QueryPad.Text

structure Line where
  -- Byte offset of the first character.
  start : Nat
  content : List Char
  -- LF, CR, CR LF, or nothing on the last line.
  ending : List Char
  deriving DecidableEq

namespace Line

def chars (line : Line) : List Char := line.content ++ line.ending

def extend (c : Char) (start : Nat) (line : Line) : Line :=
  { line with start, content := c :: line.content }

end Line

-- The first line and those after it: a text has at least one line.
def linesFrom (start : Nat) : List Char → Line × List Line
  | [] => (⟨start, [], []⟩, [])
  | '\r' :: '\n' :: rest => (⟨start, [], ['\r', '\n']⟩, below (linesFrom (start + 2) rest))
  | '\r' :: rest => (⟨start, [], ['\r']⟩, below (linesFrom (start + 1) rest))
  | '\n' :: rest => (⟨start, [], ['\n']⟩, below (linesFrom (start + 1) rest))
  | c :: rest =>
    let (line, more) := linesFrom (start + c.utf8Size) rest
    (line.extend c start, more)
where
  below : Line × List Line → List Line := fun (line, more) => line :: more

-- A text seen by lines. Positions past its end clamp to it.
structure LineIndex where
  text : List Char
  first : Line
  more : List Line

namespace LineIndex

def ofChars (text : List Char) : LineIndex :=
  let (first, more) := linesFrom 0 text
  ⟨text, first, more⟩

def ofText (text : String) : LineIndex := ofChars text.toList

def lines (index : LineIndex) : List Line := index.first :: index.more

def size (index : LineIndex) : Nat := byteSize index.text

-- The last line that starts at or before the offset, with its number.
def lineAt (offset number : Nat) (line : Line) : List Line → Nat × Line
  | [] => (number, line)
  | next :: more =>
    if next.start ≤ offset then lineAt offset (number + 1) next more else (number, line)

-- An offset inside a character counts as the start of that character.
def positionAt (index : LineIndex) (offset : Nat) : Position :=
  let (number, line) := lineAt offset 0 index.first index.more
  ⟨number, unitSize (takeBytes line.chars (offset - line.start))⟩

-- Columns past the end of a line mean its end, before the terminator.
def offsetAt (index : LineIndex) (p : Position) : Nat :=
  match index.lines[p.line]? with
  | some line => line.start + byteSize (takeUnits line.content p.character)
  | none => index.size

def range (index : LineIndex) (span : Span) : Range :=
  ⟨index.positionAt span.start, index.positionAt span.stop⟩

def emptyRange (index : LineIndex) (offset : Nat) : Range :=
  .emptyAt (index.positionAt offset)

end LineIndex

theorem linesFrom_join (start : Nat) (text : List Char) :
    ((linesFrom start text).1 :: (linesFrom start text).2).flatMap Line.chars = text := by
  fun_induction linesFrom start text <;>
    simp_all [linesFrom.below, Line.chars, Line.extend, List.flatMap_cons]

-- The last line of a text, without blanks around it. An LF ends a line, and begins
-- none at the end of the text.
def lastLine (text : String) : String :=
  let back := text.toList.reverse
  let ended := if back.head? = some '\n' then back.tail else back
  .ofList (trimBlanks (ended.takeWhile (· ≠ '\n')).reverse)

end QueryPad.Text
