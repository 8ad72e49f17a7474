import QueryPad.Number.Word
import QueryPad.Regex.CharacterSet
import QueryPad.Regex.Pattern
import QueryPad.Regex.Property
import QueryPad.Text.Letter
import QueryPad.Text.Width

-- Patterns as an engine with backtracking reads them.
namespace QueryPad.Regex

open Text

-- What reading finds wrong.
inductive Reason where
  | unclosedGroup | unreadEnd | notRepeatable | trailingBackslash | unclosedProperty
  | characterSet | backreference | hex | codepoint | groupName | tooDeep
  | escape (text : List Char)
  | referenceName (name : List Char)
  | groupFlag (text : List Char)

def Reason.message : Reason → String
  | unclosedGroup => "Opening parenthesis without closing parenthesis"
  | unreadEnd => "General parsing error: end of string not reached"
  | notRepeatable => "Target of repeat operator is invalid"
  | trailingBackslash => "Backslash without following character"
  | unclosedProperty => "Unicode escape not closed"
  | characterSet => "Invalid character class"
  | backreference => "Invalid back reference"
  | hex => "Invalid hex escape"
  | codepoint => "Invalid codepoint for hex or unicode escape"
  | groupName => "Could not parse group name"
  | tooDeep => "Pattern too deeply nested"
  | escape text => "Invalid escape: " ++ String.ofList text
  | referenceName name => "Invalid group name in back reference: " ++ String.ofList name
  | groupFlag text => "Unknown group flag: " ++ String.ofList text

inductive Refusal where
  | at (offset : Nat) (reason : Reason)
  -- References by number do not go with named groups.
  | namedGroupsOnly

structure Reading where
  rest : List Char
  -- The byte offset of the rest.
  offset : Nat
  -- Bytes of the whole pattern.
  size : Nat
  -- Capturing groups opened so far, and the numbers of the named ones.
  groups : Nat
  names : List (List Char × Nat)
  -- Whether a group is referred to by number.
  byNumber : Bool
  referenced : List Nat

namespace Reading

def start (pattern : List Char) : Reading :=
  ⟨pattern, 0, byteSize pattern, 0, [], false, []⟩

-- Past some characters of the rest.
def skip (reading : Reading) (count : Nat) : Reading :=
  { reading with
    rest := reading.rest.drop count
    offset := reading.offset + byteSize (reading.rest.take count) }

def refuse {α : Type} (offset : Nat) (reason : Reason) : Except Refusal α :=
  throw (.at offset reason)

def digitsValue (digits : List Char) : Nat :=
  digits.foldl (fun total c => total * 10 + (c.toNat - 48)) 0

def maxCount : Nat := Number.maxWord 64

-- A number at the start of a text, and how many characters it has.
def decimal? (cs : List Char) : Option (Nat × Nat) :=
  let digits := cs.takeWhile Char.isDigit
  if digits.isEmpty || digitsValue digits > maxCount then none
  else some (digitsValue digits, digits.length)

def isNameChar (c : Char) : Bool := isLetterOrNumber c || c = '_'

-- A name between delimiters, with the number of characters it takes. A
-- reference may count groups back instead.
def name? (opening closing : Char) (cs : List Char) (relative : Bool) :
    Option (List Char × Option Int × Nat) := do
  guard (cs.head? = some opening && cs.length > 2)
  let name := cs.tail.takeWhile isNameChar
  match cs.drop (name.length + 1) with
  | [] => none
  | c :: after =>
    if name ≠ [] && c = closing then return (name, none, name.length + 2)
    else if relative && (c = '+' || c = '-') then
      let (count, width) ← decimal? after
      guard ((after.drop width).head? = some closing && !(count = 0 && name.isEmpty))
      return (name, some (if c = '-' then -(count : Int) else count), name.length + width + 3)
    else none

def hexValue? (c : Char) : Option Nat :=
  if '0' ≤ c && c ≤ '9' then some (c.toNat - 48)
  else if 'a' ≤ c && c ≤ 'f' then some (c.toNat - 87)
  else if 'A' ≤ c && c ≤ 'F' then some (c.toNat - 55)
  else none

def isHex (c : Char) : Bool := (hexValue? c).isSome

def hexDigitsValue (digits : List Char) : Nat :=
  digits.foldl (fun total c => total * 16 + (hexValue? c).getD 0) 0

-- A character by its number: so many digits, or up to eight in braces.
def hexChar (width : Nat) (reading : Reading) : Except Refusal (Char × Reading) := do
  let bad : Except Refusal (List Char × Nat) := refuse reading.offset .hex
  let (digits, taken) ←
    match reading.rest with
    | [] => bad
    | '{' :: rest =>
      let digits := rest.takeWhile isHex
      if digits.isEmpty || digits.length > 8 || (rest.drop digits.length).head? ≠ some '}' then
        bad
      else pure (digits, digits.length + 2)
    | rest =>
      let digits := rest.take width
      if digits.length = width && digits.all isHex then pure (digits, width) else bad
  let value := hexDigitsValue digits
  if h : value.isValidChar then return (Char.ofNatAux value h, reading.skip taken)
  else refuse reading.offset .codepoint

-- What an escape stands for.
inductive Escape where
  | literal (c : Char)
  -- One of the classes of characters, known by its name or not.
  | charClass (known : Bool)
  -- Hexadecimal digits, or all else.
  | hexDigit (negated : Bool)
  | pattern (pattern : Pattern)

def refersTo (reading : Reading) (group : Nat) : Escape × Reading :=
  (.pattern (.backreference (group ≤ reading.groups)),
    { reading with referenced := group :: reading.referenced })

-- A reference by number. The number must be below half the size of the
-- pattern.
def numbered (reading : Reading) : Except Refusal (Escape × Reading) :=
  match decimal? reading.rest with
  | some (group, width) =>
    if group < reading.size / 2 then
      .ok ({ reading with byNumber := true }.skip width |>.refersTo group)
    else refuse reading.offset .backreference
  | none => refuse reading.offset .backreference

def groupOf? (reading : Reading) (name : List Char) (back : Option Int) : Option Nat :=
  match back with
  | some steps =>
    let base : Option Int :=
      if name.isEmpty then some (reading.groups : Int)
      else (reading.names.lookup name).map fun n => (n : Int)
    base.bind fun base =>
      let group := if steps < 0 && name.isEmpty then base + steps + 1 else base + steps
      if group < 0 then none else some group.toNat
  | none =>
    match reading.names.lookup name with
    | some group => some group
    | none =>
      if name.all Char.isDigit && digitsValue name ≤ maxCount then some (digitsValue name)
      else none

def named (reading : Reading) : Except Refusal (Escape × Reading) :=
  let closing := if reading.rest.head? = some '\'' then '\'' else '>'
  let opening := if closing = '>' then '<' else '\''
  match name? opening closing reading.rest true with
  | none => refuse reading.offset .groupName
  | some (name, back, width) =>
    match reading.groupOf? name back with
    | some group => .ok ((reading.skip width).refersTo group)
    | none => refuse reading.offset (.referenceName name)

-- A property in braces, or of one letter. The offset is that of the escape.
def property (offset : Nat) (reading : Reading) : Except Refusal (Escape × Reading) :=
  match reading.rest with
  | '{' :: rest =>
    let name := rest.takeWhile (· ≠ '}')
    if name.length = rest.length then refuse offset .unclosedProperty
    else .ok (.charClass (Property.isKnown name), reading.skip (name.length + 2))
  | c :: _ => .ok (.charClass (Property.isKnown [c]), reading.skip 1)
  | [] => refuse offset (.escape ['\\'])

-- An escape, from its backslash on. Places in the text are for outside of
-- sets only.
def escape (inSet : Bool) (reading : Reading) : Except Refusal (Escape × Reading) :=
  match reading.rest with
  | _ :: c :: rest =>
    let after := reading.skip 2
    let place (hard : Bool) : Except Refusal (Escape × Reading) := .ok (.pattern (.place hard), after)
    let invalid : Except Refusal (Escape × Reading) := refuse reading.offset (.escape ['\\', c])
    if c.isDigit then (reading.skip 1).numbered
    else if c = 'k' && !inSet then after.named
    else if (c = 'A' || c = 'z') && !inSet then place false
    else if (c = 'b' || c = 'B') && !inSet then
      if rest.head? = some '{' then refuse reading.offset (.escape ['\\', c, '{'])
      else place true
    else if (c = '<' || c = '>') && !inSet then place true
    else if (c = 'K' || c = 'G') && !inSet then .ok (.pattern (.atomic .empty), after)
    else
      match c with
      | 'd' | 'D' | 's' | 'S' | 'w' | 'W' => .ok (.charClass true, after)
      | 'h' => .ok (.hexDigit false, after)
      | 'H' => .ok (.hexDigit true, after)
      | 'x' => (after.hexChar 2).map fun (c, after) => (.literal c, after)
      | 'u' => (after.hexChar 4).map fun (c, after) => (.literal c, after)
      | 'U' => (after.hexChar 8).map fun (c, after) => (.literal c, after)
      | 'p' | 'P' => if rest.isEmpty then invalid else after.property reading.offset
      | 'a' => .ok (.literal '\x07', after)
      | 'b' => .ok (.literal '\x08', after)
      | 'e' => .ok (.literal '\x1b', after)
      | 'f' => .ok (.literal '\x0c', after)
      | 'n' => .ok (.literal '\n', after)
      | 'r' => .ok (.literal '\r', after)
      | 't' => .ok (.literal '\t', after)
      | 'v' => .ok (.literal '\x0b', after)
      | 'k' | 'A' | 'z' | 'B' | 'K' | 'G' => .ok (.literal c, after)
      | c => if c.isAlpha then invalid else .ok (.literal c, after)
  | _ => refuse reading.offset .trailingBackslash

-- Characters that have a meaning somewhere in a pattern.
def metaChars : List Char := "\\.+*?()|[]\x7b\x7d^$#&-~".toList

-- An escaped character that needs no escape stands as it is.
def setChar (c : Char) : SetChar := if metaChars.contains c then .literal c else .raw c

def setChars : Escape → Option (List SetChar)
  | .literal c => some [setChar c]
  | .charClass known => some [.charClass known]
  | .hexDigit negated =>
    some ((if negated then "[^0-9A-Fa-f]" else "[0-9A-Fa-f]").toList.map .raw)
  | .pattern _ => none

-- The elements of a set up to the bracket that closes it.
def setBody (nest : Nat) (reading : Reading) : Except Refusal (List SetChar × Reading) :=
  match h : reading.rest with
  | [] => refuse reading.offset .characterSet
  | '\\' :: _ =>
    match reading.escape true with
    | .error refusal => .error refusal
    | .ok (escape, after) =>
      match setChars escape with
      | none => refuse reading.offset .characterSet
      | some chars =>
        if after.rest.length < reading.rest.length then
          (after.setBody nest).map fun (more, reading) => (chars ++ more, reading)
        else refuse reading.offset .characterSet
  | ']' :: _ =>
    if nest ≤ 1 then .ok ([.raw ']'], reading.skip 1)
    else ((reading.skip 1).setBody (nest - 1)).map fun (more, reading) => (.raw ']' :: more, reading)
  | c :: _ =>
    ((reading.skip 1).setBody (if c = '[' then nest + 1 else nest)).map
      fun (more, reading) => (.raw c :: more, reading)
termination_by reading.rest.length
decreasing_by all_goals simp_all [skip]

-- A set from its opening bracket on. A closing bracket that stands first
-- means itself.
def set (reading : Reading) : Except Refusal (Pattern × Reading) := do
  let opening := match reading.rest.tail with
    | '^' :: ']' :: _ => 3
    | '^' :: _ | ']' :: _ => 2
    | _ => 1
  let (body, after) ← (reading.skip opening).setBody 1
  return (.set (setInOrder 0 ((reading.rest.take opening).map .raw ++ body)), after)

-- The bounds of a quantifier in braces, with the number of characters it
-- takes.
def bounds? (cs : List Char) : Option (Nat × Option Nat × Nat) := do
  let (least, width) ←
    if cs.head? = some ',' then some (0, 0) else decimal? cs
  match cs.drop width with
  | '}' :: _ => return (least, some least, width + 1)
  | ',' :: rest =>
    let (most, more) := match decimal? rest with
      | some (most, more) => (some most, more)
      | none => (none, 0)
    guard ((rest.drop more).head? = some '}')
    return (least, most, width + more + 2)
  | _ => none

def quantifier? (cs : List Char) : Option (Nat × Option Nat × Nat) :=
  match cs with
  | '?' :: _ => some (0, some 1, 1)
  | '*' :: _ => some (0, none, 1)
  | '+' :: _ => some (1, none, 1)
  | '{' :: rest => (bounds? rest).map fun (least, most, width) => (least, most, width + 1)
  | _ => none

-- What stands behind an atom: a quantifier, which may be lazy or keep what it
-- took. One in braces is refused at its closing brace.
def quantified (atom : Pattern) (reading : Reading) : Except Refusal (Pattern × Reading) :=
  match quantifier? reading.rest with
  | none => .ok (atom, reading)
  | some (least, most, width) =>
    if !atom.isRepeatable then refuse (reading.skip (width - 1)).offset .notRepeatable
    else
      let after := reading.skip width
      let after := if after.rest.head? = some '?' then after.skip 1 else after
      let repeated := Pattern.repeat_ atom least most
      if after.rest.head? = some '+' then .ok (.atomic repeated, after.skip 1)
      else .ok (repeated, after)

def closeGroup (reading : Reading) : Except Refusal Reading :=
  match reading.rest with
  | ')' :: _ => .ok (reading.skip 1)
  | _ => refuse reading.offset .unclosedGroup

-- Flags in parentheses hold for what follows.
def flagNames : List Char := ['i', 'm', 's']

-- Groups nest less deep than this.
def levels : Nat := 63

mutual

-- Alternatives up to a closing parenthesis or the end: those read before,
-- and the parts of the current one, both in reverse.
def choices (room : Nat) (reading : Reading) (done : List Pattern) (parts : List Pattern) :
    Except Refusal (Pattern × Reading) :=
  match _h : reading.rest with
  | '|' :: _ => choices room (reading.skip 1) (.ofParts parts.reverse :: done) []
  | _ =>
    match piece room reading with
    | .error refusal => .error refusal
    | .ok (part, after) =>
      if after.rest.length < reading.rest.length then
        choices room after done (if part.isEmpty then parts else part :: parts)
      else
        let last := Pattern.ofParts parts.reverse
        if done.isEmpty then
          if reading.byNumber && !reading.names.isEmpty then .error .namedGroupsOnly
          else .ok (last, reading)
        else .ok (.choice (last :: done).reverse, reading)
termination_by (room, reading.rest.length, 2)
decreasing_by
  · exact Prod.Lex.right _ (Prod.Lex.left _ _ (by simp [skip, _h]))
  · exact Prod.Lex.right _ (Prod.Lex.right _ (by omega))
  · exact Prod.Lex.right _ (Prod.Lex.left _ _ (by omega))

def piece (room : Nat) (reading : Reading) : Except Refusal (Pattern × Reading) := do
  let (atom, reading) ←
    match reading.rest with
    | '(' :: _ => group room reading
    | '\\' :: _ =>
      (reading.escape false).map fun (escape, after) =>
        match escape with
        | .literal _ => (Pattern.single, after)
        | .charClass known => (.set known, after)
        | .hexDigit _ => (.set true, after)
        | .pattern pattern => (pattern, after)
    | '[' :: _ => reading.set
    | '^' :: _ | '$' :: _ => .ok (.place false, reading.skip 1)
    | '+' :: _ | '*' :: _ | '?' :: _ | '|' :: _ | ')' :: _ | [] => .ok (.empty, reading)
    | _ => .ok (.single, reading.skip 1)
  reading.quantified atom
termination_by (room, reading.rest.length, 1)

def group (room : Nat) (reading : Reading) : Except Refusal (Pattern × Reading) :=
  match room with
  | 0 => refuse reading.offset .tooDeep
  | room + 1 => do
    let inside := reading.skip 1
    let within (inner : Reading) (wrap : Pattern → Pattern) : Except Refusal (Pattern × Reading) := do
      let (body, after) ← choices room inner [] []
      let after ← after.closeGroup
      return (wrap body, after)
    match inside.rest with
    | '?' :: '=' :: _ | '?' :: '!' :: _ => within (inside.skip 2) (.look false)
    | '?' :: '<' :: '=' :: _ | '?' :: '<' :: '!' :: _ => within (inside.skip 3) (.look true)
    | '?' :: '<' :: _ =>
      let number := inside.groups + 1
      match name? '<' '>' inside.rest.tail false with
      | none => refuse inside.offset .groupName
      | some (name, _, width) =>
        let opened := { inside with groups := number, names := (name, number) :: inside.names }
        within (opened.skip (width + 1)) (.group number)
    | '?' :: ':' :: _ => within (inside.skip 2) id
    | '?' :: flags =>
      let taken := flags.takeWhile flagNames.contains
      let after := inside.skip (taken.length + 1)
      match after.rest with
      | ')' :: _ => .ok (.empty, after.skip 1)
      | [] => refuse after.offset .unclosedGroup
      | c :: _ => refuse (inside.offset + 1) (.groupFlag ('(' :: '?' :: taken ++ [c]))
    | _ =>
      let number := inside.groups + 1
      within { inside with groups := number } (.group number)
termination_by (room, reading.rest.length, 0)

end

-- The whole of a pattern.
def whole (pattern : List Char) : Except Refusal (Pattern × Reading) := do
  let (body, after) ← choices levels (start pattern) [] []
  if after.rest.isEmpty then return (body, after) else refuse after.offset .unreadEnd

end Reading

end QueryPad.Regex
