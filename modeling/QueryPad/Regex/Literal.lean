import QueryPad.Regex.Validity
import QueryPad.Text.Lines

-- Regular expression literals: a pattern and flags as scripts write them.
namespace QueryPad.Regex

open Text

def knownFlags : List Char := ['d', 'g', 'i', 'm', 's', 'u', 'v', 'y']

-- Known flags, none twice, and only one of the two Unicode modes.
def flagsInOrder (flags : List Char) : Bool :=
  flags.all knownFlags.contains && flags.Nodup && !(flags.contains 'u' && flags.contains 'v')

-- Whether groups open as scripts know them: those that only group or look
-- around, and the named ones.
def groupsInOrder (inSet : Bool) : List Char → Bool
  | [] => true
  | '\\' :: _ :: rest => groupsInOrder inSet rest
  | '[' :: rest => groupsInOrder true rest
  | ']' :: rest => groupsInOrder false rest
  | '(' :: '?' :: rest => (inSet || opensKnown rest) && groupsInOrder inSet rest
  | _ :: rest => groupsInOrder inSet rest
where
  opensKnown : List Char → Bool
    | ':' :: _ | '=' :: _ | '!' :: _ => true
    | '<' :: c :: _ => c = '=' || c = '!' || isLetter c || c = '_'
    | _ => false

-- A slash needs no escape outside of a literal.
def plainSlashes : List Char → List Char
  | '\\' :: '/' :: rest => '/' :: plainSlashes rest
  | c :: rest => c :: plainSlashes rest
  | [] => []

-- Flags that change how a pattern is read stand in front of it.
def compiledText (pattern flags : List Char) : List Char :=
  let inline := flags.filter fun c => c = 'i' || c = 'm' || c = 's'
  let plain := plainSlashes pattern
  if inline.isEmpty then plain else '(' :: '?' :: inline ++ ')' :: plain

-- An engine takes a pattern, or says why it does not.
abbrev Engine := List Char → Except String Unit

-- Of what an engine says the last line is shown.
def tryWith (engine : Engine) (pattern flags : List Char) : Except Fault Unit :=
  (engine (compiledText pattern flags)).mapError fun report =>
    .engine (.ofList pattern) (lastLine report)

def validate (pattern flags : List Char) : Except Fault Unit :=
  if !flagsInOrder flags then .error (.flags (.ofList flags))
  else if !groupsInOrder false pattern then .error (.group (.ofList pattern))
  else tryWith compile pattern flags

-- The literal cut at its last slash, without the slashes.
def splitLiteral (chars : List Char) : List Char × List Char :=
  let flags := (chars.reverse.takeWhile (· ≠ '/')).reverse
  ((chars.take (chars.length - flags.length - 1)).drop 1, flags)

end QueryPad.Regex
