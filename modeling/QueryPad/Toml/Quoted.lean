-- Strings of TOML: with escapes or without, on one line or on several.
namespace QueryPad.Toml.Quoted

-- Tabs are the only control characters that stand for themselves.
def isPlain (c : Char) : Bool := c = '\t' || (' ' ≤ c && c ≠ '\x7f')

def hexValue? (c : Char) : Option Nat :=
  if c.isDigit then some (c.toNat - '0'.toNat)
  else if 'a' ≤ c && c ≤ 'f' then some (c.toNat - 'a'.toNat + 10)
  else if 'A' ≤ c && c ≤ 'F' then some (c.toNat - 'A'.toNat + 10)
  else none

-- The character of a code, if it is no surrogate.
def charOf? (digits : List Char) : Option Char := do
  let code ← digits.foldlM (fun n c => (hexValue? c).map (n * 16 + ·)) 0
  if h : code.isValidChar then some (Char.ofNatAux code h) else none

def escaped? : Char → Option Char
  | 'b' => some '\x08'
  | 't' => some '\t'
  | 'n' => some '\n'
  | 'f' => some '\x0c'
  | 'r' => some '\r'
  | 'e' => some '\x1b'
  | '"' => some '"'
  | '\\' => some '\\'
  | _ => none

abbrev Body := Option (List Char × List Char)

def put (c : Char) (body : Body) : Body := body.map fun (chars, rest) => (c :: chars, rest)

-- The rest of a string on one line, with escapes, and what follows it.
def basic : List Char → Body
  | '"' :: rest => some ([], rest)
  | '\\' :: 'x' :: a :: b :: rest => do put (← charOf? [a, b]) (basic rest)
  | '\\' :: 'u' :: a :: b :: c :: d :: rest => do put (← charOf? [a, b, c, d]) (basic rest)
  | '\\' :: 'U' :: a :: b :: c :: d :: e :: f :: g :: h :: rest => do
    put (← charOf? [a, b, c, d, e, f, g, h]) (basic rest)
  | '\\' :: c :: rest => do put (← escaped? c) (basic rest)
  | c :: rest => if isPlain c then put c (basic rest) else none
  | [] => none

def literal : List Char → Body
  | '\'' :: rest => some ([], rest)
  | c :: rest => if isPlain c then put c (literal rest) else none
  | [] => none

-- Whether nothing but blanks is left on the line.
def endsLine (cs : List Char) : Bool :=
  match cs.dropWhile fun c => c = ' ' || c = '\t' with
  | '\n' :: _ | '\r' :: '\n' :: _ => true
  | _ => false

-- Up to two quotes may stand before the three that close. A backslash at the
-- end of a line drops it with all blanks and line ends that follow.
def basicLines (dropping : Bool) : List Char → Body
  | '"' :: '"' :: '"' :: '"' :: '"' :: rest => some (['"', '"'], rest)
  | '"' :: '"' :: '"' :: '"' :: rest => some (['"'], rest)
  | '"' :: '"' :: '"' :: rest => some ([], rest)
  | '\r' :: '\n' :: rest =>
    if dropping then basicLines true rest else put '\n' (basicLines false rest)
  | '\n' :: rest => if dropping then basicLines true rest else put '\n' (basicLines false rest)
  | '\\' :: 'x' :: a :: b :: rest => do put (← charOf? [a, b]) (basicLines false rest)
  | '\\' :: 'u' :: a :: b :: c :: d :: rest => do
    put (← charOf? [a, b, c, d]) (basicLines false rest)
  | '\\' :: 'U' :: a :: b :: c :: d :: e :: f :: g :: h :: rest => do
    put (← charOf? [a, b, c, d, e, f, g, h]) (basicLines false rest)
  | '\\' :: c :: rest =>
    if endsLine (c :: rest) then basicLines true (c :: rest)
    else do put (← escaped? c) (basicLines false rest)
  | c :: rest =>
    if dropping && (c = ' ' || c = '\t') then basicLines true rest
    else if isPlain c then put c (basicLines false rest)
    else none
  | [] => none

def literalLines : List Char → Body
  | '\'' :: '\'' :: '\'' :: '\'' :: '\'' :: rest => some (['\'', '\''], rest)
  | '\'' :: '\'' :: '\'' :: '\'' :: rest => some (['\''], rest)
  | '\'' :: '\'' :: '\'' :: rest => some ([], rest)
  | '\r' :: '\n' :: rest => put '\n' (literalLines rest)
  | '\n' :: rest => put '\n' (literalLines rest)
  | c :: rest => if isPlain c then put c (literalLines rest) else none
  | [] => none

-- A line end right behind the opening quotes is no part of a string.
def dropFirstEnd : List Char → List Char
  | '\r' :: '\n' :: rest | '\n' :: rest => rest
  | cs => cs

-- The string at the start of a text, and the text after it.
def read? : List Char → Body
  | '"' :: '"' :: '"' :: rest => basicLines false (dropFirstEnd rest)
  | '\'' :: '\'' :: '\'' :: rest => literalLines (dropFirstEnd rest)
  | cs => readLine? cs
where
  readLine? : List Char → Body
    | '"' :: rest => basic rest
    | '\'' :: rest => literal rest
    | _ => none

-- Keys stay on one line.
def readKey? : List Char → Body := read?.readLine?

end QueryPad.Toml.Quoted
