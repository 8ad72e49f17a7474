namespace QueryPad.Regex

-- Letters and digits without regard to case, a point and an asterisk. Two
-- letters beyond ASCII fold to `s` and `k`.
def isEscapable (c : Char) : Bool :=
  c.isAlphanum || c = '.' || c = '*' || c = '\u017f' || c = '\u212a'

-- The first escape gets a second backslash where a pattern is kept in a
-- string.
def doubleFirstEscape : List Char → List Char
  | '\\' :: c :: rest =>
    if isEscapable c then '\\' :: '\\' :: c :: rest else '\\' :: doubleFirstEscape (c :: rest)
  | c :: rest => c :: doubleFirstEscape rest
  | [] => []

-- In JSON text a kept escape has four backslashes. Two of them go.
def halveEscapes : List Char → List Char
  | '\\' :: '\\' :: '\\' :: '\\' :: c :: rest =>
    if isEscapable c then '\\' :: '\\' :: c :: halveEscapes rest
    else '\\' :: halveEscapes ('\\' :: '\\' :: '\\' :: c :: rest)
  | c :: rest => c :: halveEscapes rest
  | [] => []

end QueryPad.Regex
