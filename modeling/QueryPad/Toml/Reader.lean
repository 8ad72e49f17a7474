import QueryPad.Toml.Document
import QueryPad.Toml.Quoted
import QueryPad.Toml.Scalar

namespace QueryPad.Toml

namespace Reading

def isBlank (c : Char) : Bool := c = ' ' || c = '\t'

def skipBlanks (cs : List Char) : List Char := cs.dropWhile isBlank

-- What follows the end of a line, a comment skipped. Comments hold no control
-- characters.
def afterLine? (cs : List Char) : Option (List Char) :=
  let rest := match skipBlanks cs with
    | '#' :: comment => comment.dropWhile Quoted.isPlain
    | other => other
  match rest with
  | [] => some []
  | '\n' :: rest | '\r' :: '\n' :: rest => some rest
  | _ => none

-- Blanks, line ends and comments inside brackets.
def skipLines : Nat → List Char → List Char
  | 0, cs => cs
  | fuel + 1, cs =>
    match skipBlanks cs with
    | '#' :: comment => skipLines fuel (comment.dropWhile Quoted.isPlain)
    | '\n' :: rest | '\r' :: '\n' :: rest => skipLines fuel rest
    | other => other

def isBareKey (c : Char) : Bool := c.isAlphanum || c = '_' || c = '-'

def simpleKey? (cs : List Char) : Option (String × List Char) :=
  match cs with
  | '"' :: _ | '\'' :: _ => (Quoted.readKey? cs).map fun (chars, rest) => (.ofList chars, rest)
  | _ =>
    let word := cs.takeWhile isBareKey
    if word.isEmpty then none else some (.ofList word, cs.drop word.length)

-- A key of one or more parts: those before the last, and the last.
def key? : Nat → List Char → Option ((List String × String) × List Char)
  | 0, _ => none
  | fuel + 1, cs => do
    let (first, rest) ← simpleKey? (skipBlanks cs)
    match skipBlanks rest with
    | '.' :: rest =>
      let ((path, last), rest) ← key? fuel rest
      return ((first :: path, last), rest)
    | rest => return (([], first), rest)

-- A bare word ends where something else can begin. Blanks may stand inside.
def isWordChar (c : Char) : Bool :=
  !(c = ',' || c = ']' || c = '}' || c = '#' || c = '\n' || c = '\r')

def word? (cs : List Char) : Option (Toml × List Char) :=
  let run := cs.takeWhile isWordChar
  let word := (run.reverse.dropWhile isBlank).reverse
  (Scalar.ofChars? word).map fun value => (value, cs.drop word.length)

-- How deep arrays and inline tables nest.
def levels : Nat := 80

mutual

-- A value at the start of a text, and the text after it.
def value? : Nat → Nat → List Char → Option (Toml × List Char)
  | 0, _, _ => none
  | fuel + 1, room, cs =>
    match cs with
    | '"' :: _ | '\'' :: _ =>
      (Quoted.read? cs).map fun (chars, rest) => (.string (.ofList chars), rest)
    | '[' :: rest =>
      if room = 0 then none
      else (items? fuel (room - 1) rest).map fun (items, rest) => (.array items, rest)
    | '{' :: rest =>
      if room = 0 then none
      else (fields? fuel (room - 1) [] rest).map fun (fields, rest) => (fields.toToml, rest)
    | _ => word? cs

-- The items of an array up to its end. A comma may stand behind the last.
def items? : Nat → Nat → List Char → Option (List Toml × List Char)
  | 0, _, _ => none
  | fuel + 1, room, cs =>
    match skipLines (cs.length + 1) cs with
    | ']' :: rest => some ([], rest)
    | cs => do
      let (item, rest) ← value? fuel room cs
      match skipLines (rest.length + 1) rest with
      | ']' :: rest => return ([item], rest)
      | ',' :: rest =>
        let (items, rest) ← items? fuel room rest
        return (item :: items, rest)
      | _ => none

-- The fields of an inline table up to its end. A comma may stand behind the
-- last.
def fields? : Nat → Nat → Entries → List Char → Option (Entries × List Char)
  | 0, _, _, _ => none
  | fuel + 1, room, entries, cs =>
    match skipLines (cs.length + 1) cs with
    | '}' :: rest => some (entries, rest)
    | cs => do
      let ((path, key), rest) ← key? (cs.length + 1) cs
      let '=' :: rest := rest | none
      let (value, rest) ← value? fuel room (skipBlanks rest)
      let entries ← entries.assign path key value
      match skipLines (rest.length + 1) rest with
      | '}' :: rest => return (entries, rest)
      | ',' :: rest => fields? fuel room entries rest
      | _ => none

end

-- The path of a header, up to its closing brackets.
def header? (closing : List Char) (cs : List Char) :
    Option ((List String × String) × List Char) := do
  let (path, rest) ← key? (cs.length + 1) cs
  guard (closing.isPrefixOf rest)
  return (path, rest.drop closing.length)

-- Line after line, given the header that holds and the document so far.
def lines? : Nat → List String → Entries → List Char → Option Entries
  | 0, _, _, _ => none
  | fuel + 1, group, entries, cs =>
    match skipBlanks cs with
    | [] => some entries
    | '[' :: '[' :: rest => do
      let ((path, key), rest) ← header? [']', ']'] rest
      lines? fuel (path ++ [key]) (← entries.addTable path key) (← afterLine? rest)
    | '[' :: rest => do
      let ((path, key), rest) ← header? [']'] rest
      lines? fuel (path ++ [key]) (← entries.openTable path key) (← afterLine? rest)
    | c :: rest =>
      if c = '#' || c = '\n' || c = '\r' then do
        lines? fuel group entries (← afterLine? (c :: rest))
      else do
        let ((path, key), rest) ← key? (rest.length + 2) (c :: rest)
        let '=' :: rest := rest | none
        let (value, rest) ← value? (2 * rest.length + 2) levels (skipBlanks rest)
        let entries ← entries.within group (Entries.assign path key value)
        lines? fuel group entries (← afterLine? rest)

end Reading

-- A byte order mark in front of the text is skipped.
def ofChars? (cs : List Char) : Option Toml :=
  let cs := if cs.head? = some '\ufeff' then cs.tail else cs
  (Reading.lines? (cs.length + 1) [] [] cs).map Entries.toToml

def ofText? (text : String) : Option Toml := ofChars? text.toList

end QueryPad.Toml
