import QueryPad.Toml.Quoted

-- Strings of TOML in the form that is easiest to read.
namespace QueryPad.Toml

inductive QuoteStyle where
  | basic | literal | basicLines | literalLines
  deriving DecidableEq

-- The longest run of a character.
def longestRun (c : Char) (cs : List Char) : Nat :=
  (cs.foldl (fun (run, longest) d =>
    if d = c then (run + 1, max longest (run + 1)) else (0, longest)) (0, 0)).2

-- Control characters other than tabs and line ends.
def needsEscape (c : Char) : Bool := !Quoted.isPlain c && c ≠ '\n'

-- Double quotes come first, and several lines before escapes.
def quoteStyle (cs : List Char) : QuoteStyle :=
  let escapes := cs.any needsEscape
  let backslash := cs.contains '\\'
  let newLine := cs.contains '\n'
  let doubles := longestRun '"' cs
  let singles := longestRun '\'' cs
  if !escapes && !backslash && doubles = 0 && !newLine then .basic
  else if !escapes && singles = 0 && !newLine then .literal
  else if !escapes && !backslash && doubles ≤ 2 then .basicLines
  else if !escapes && singles ≤ 2 then .literalLines
  else if newLine then .basicLines
  else .basic

def hex4 (n : Nat) : List Char :=
  let digits := (Nat.toDigits 16 n).map Char.toUpper
  List.replicate (4 - digits.length) '0' ++ digits

-- On several lines, line ends and up to two quotes in a row need no escape.
def escape (onLines : Bool) (quotes : Nat) : List Char → List Char
  | [] => []
  | c :: rest =>
    if c = '"' then
      let bound := if onLines then 2 else 0
      (if bound < quotes + 1 then ['\\', '"'] else ['"']) ++ escape onLines (quotes + 1) rest
    else
      (if c = '\n' && onLines then ['\n']
        else
          match c with
          | '\x08' => ['\\', 'b']
          | '\t' => ['\\', 't']
          | '\n' => ['\\', 'n']
          | '\x0c' => ['\\', 'f']
          | '\r' => ['\\', 'r']
          | '\\' => ['\\', '\\']
          | c => if Quoted.isPlain c then [c] else '\\' :: 'u' :: hex4 c.toNat) ++
        escape onLines 0 rest

-- Text of several lines starts on a line of its own.
def quoteChars (cs : List Char) : List Char :=
  let first : List Char := if cs.contains '\n' then ['\n'] else []
  match quoteStyle cs with
  | .basic => ['"'] ++ escape false 0 cs ++ ['"']
  | .literal => ['\''] ++ cs ++ ['\'']
  | .basicLines => ['"', '"', '"'] ++ first ++ escape true 0 cs ++ ['"', '"', '"']
  | .literalLines => ['\'', '\'', '\''] ++ first ++ cs ++ ['\'', '\'', '\'']

def quote (text : String) : String := .ofList (quoteChars text.toList)

end QueryPad.Toml
