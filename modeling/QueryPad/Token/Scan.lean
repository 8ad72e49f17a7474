import QueryPad.Text.Letter

-- Readers for the parts of a token. Each splits its input in two, and the
-- first part is what it recognized.
namespace QueryPad.Scan

open Text

def isWordStart (c : Char) : Bool := isLetter c || c = '_' || c = '$'

def isWordPart (c : Char) : Bool := isLetterOrNumber c || c = '_' || c = '$'

def digits (cs : List Char) : List Char × List Char :=
  (cs.takeWhile Char.isDigit, cs.dropWhile Char.isDigit)

def optionalChar (accepts : Char → Bool) : List Char → List Char × List Char
  | [] => ([], [])
  | c :: rest => if accepts c then ([c], rest) else ([], c :: rest)

-- A point counts only before a digit.
def fraction : List Char → List Char × List Char
  | '.' :: rest =>
    match digits rest with
    | ([], _) => ([], '.' :: rest)
    | (ds, rest) => ('.' :: ds, rest)
  | cs => ([], cs)

-- An exponent without digits is no exponent.
def exponent : List Char → List Char × List Char
  | [] => ([], [])
  | e :: rest =>
    if e = 'e' || e = 'E' then
      let (sign, unsigned) := optionalChar (fun c => c = '+' || c = '-') rest
      match digits unsigned with
      | ([], _) => ([], e :: rest)
      | (ds, rest) => (e :: sign ++ ds, rest)
    else ([], e :: rest)

-- A sign, digits, a fraction, an exponent: each may be absent.
def number (cs : List Char) : List Char × List Char :=
  let (sign, cs) := optionalChar (· = '-') cs
  let (whole, cs) := digits cs
  let (frac, cs) := fraction cs
  let (exp, cs) := exponent cs
  (sign ++ whole ++ frac ++ exp, cs)

-- The rest of a quoted string after its opening quote, and whether the quote
-- was closed. An escape covers any character, even the end of a line.
def quoted (quote : Char) : List Char → Bool × List Char × List Char
  | [] => (false, [], [])
  | c :: rest =>
    if c = quote then (true, [c], rest)
    else if isLineTerminator c then (false, [], c :: rest)
    else if c = '\\' then
      match rest with
      | [] => (false, [c], [])
      | escaped :: rest =>
        let (closed, taken, rest) := quoted quote rest
        (closed, c :: escaped :: taken, rest)
    else
      let (closed, taken, rest) := quoted quote rest
      (closed, c :: taken, rest)

-- The rest of a regular expression after its opening slash, up to and with
-- the closing one. A slash inside brackets does not close.
def regexBody (inClass : Bool) : List Char → Option (List Char × List Char)
  | [] => none
  | c :: rest =>
    if isLineTerminator c then none
    else if c = '\\' then
      match rest with
      | [] => none
      | escaped :: rest =>
        if isLineTerminator escaped then none
        else (regexBody inClass rest).map fun (taken, rest) => (c :: escaped :: taken, rest)
    else if c = '/' && !inClass then some ([c], rest)
    else
      (regexBody (c = '[' || inClass && c ≠ ']') rest).map
        fun (taken, rest) => (c :: taken, rest)

-- The rest of a block comment after its opening, and whether it was closed.
def commentBody : List Char → Bool × List Char × List Char
  | [] => (false, [], [])
  | '*' :: '/' :: rest => (true, ['*', '/'], rest)
  | c :: rest =>
    let (closed, taken, rest) := commentBody rest
    (closed, c :: taken, rest)

theorem digits_append (cs : List Char) : (digits cs).1 ++ (digits cs).2 = cs := by
  simp [digits]

theorem optionalChar_append (accepts : Char → Bool) (cs : List Char) :
    (optionalChar accepts cs).1 ++ (optionalChar accepts cs).2 = cs := by
  fun_cases optionalChar accepts cs <;> simp

theorem fraction_append (cs : List Char) : (fraction cs).1 ++ (fraction cs).2 = cs := by
  fun_cases fraction cs with
  | case1 => simp
  | case2 rest ds after _ h =>
      have := digits_append rest
      simp_all
  | case3 => simp

theorem exponent_append (cs : List Char) : (exponent cs).1 ++ (exponent cs).2 = cs := by
  fun_cases exponent cs with
  | case1 => simp
  | case2 => simp
  | case3 e rest he sign unsigned hs ds after _ hd =>
      have h1 := optionalChar_append (fun c => c = '+' || c = '-') rest
      have h2 := digits_append unsigned
      simp_all
  | case4 => simp

theorem number_append (cs : List Char) : (number cs).1 ++ (number cs).2 = cs := by
  simp only [number, List.append_assoc, exponent_append, fraction_append, digits_append,
    optionalChar_append]

theorem quoted_append (quote : Char) (cs : List Char) :
    (quoted quote cs).2.1 ++ (quoted quote cs).2.2 = cs := by
  fun_induction quoted quote cs <;> simp_all

theorem regexBody_append {inClass : Bool} {cs taken rest : List Char}
    (h : regexBody inClass cs = some (taken, rest)) : taken ++ rest = cs := by
  fun_induction regexBody inClass cs generalizing taken rest <;> simp_all <;> grind

theorem commentBody_append (cs : List Char) :
    (commentBody cs).2.1 ++ (commentBody cs).2.2 = cs := by
  fun_induction commentBody cs <;> simp_all

end QueryPad.Scan
