namespace QueryPad.Regex

-- One element of the text of a bracketed set.
inductive SetChar where
  -- A character as it stands, which may have a meaning in the set.
  | raw (c : Char)
  -- An escaped character.
  | literal (c : Char)
  -- An escape for a class of characters, which is known or not.
  | charClass (known : Bool)
  deriving DecidableEq

namespace SetChar

def posixNames : List (List Char) :=
  ["alnum", "alpha", "ascii", "blank", "cntrl", "digit", "graph", "lower", "print", "punct",
    "space", "upper", "word", "xdigit"].map String.toList

-- The end of a named class such as `[:alpha:]`, which may be negated.
def afterPosix? (cs : List SetChar) : Option (List SetChar) := do
  let .raw ':' :: cs := cs | none
  let cs := match cs with
    | .raw '^' :: rest => rest
    | cs => cs
  let name ← posixNames.find? fun name => (name.map SetChar.raw).isPrefixOf cs
  match cs.drop name.length with
  | .raw ':' :: .raw ']' :: rest => some rest
  | _ => none

-- Minus signs that stand first mean themselves, and so does a closing
-- bracket.
def afterLeading : List SetChar → List SetChar
  | .raw '-' :: rest => rest.dropWhile (· = .raw '-')
  | .raw ']' :: rest => rest
  | cs => cs

-- A circumflex after the opening bracket negates.
def afterOpening : List SetChar → List SetChar
  | .raw '^' :: rest => afterLeading rest
  | cs => afterLeading cs

theorem length_afterLeading (cs : List SetChar) : (afterLeading cs).length ≤ cs.length := by
  unfold afterLeading
  split
  · exact Nat.le_succ_of_le (List.dropWhile_suffix _).length_le
  · exact Nat.le_succ _
  · exact Nat.le_refl _

theorem length_afterOpening (cs : List SetChar) : (afterOpening cs).length ≤ cs.length := by
  unfold afterOpening
  split
  · exact Nat.le_succ_of_le (length_afterLeading _)
  · exact length_afterLeading _

def char? : SetChar → Option Char
  | raw c | literal c => some c
  | charClass _ => none

-- Two equal signs that combine sets.
def isOperator (c : Char) (rest : List SetChar) : Bool :=
  (c = '&' || c = '-' || c = '~') && rest.head? = some (.raw c)

end SetChar

open SetChar

-- Whether the text of a set is in order, from its opening bracket on. A range
-- needs characters at both ends, in ascending order.
def setInOrder (depth : Nat) (cs : List SetChar) : Bool :=
  match cs with
  | [] => depth = 0
  | .raw '[' :: rest =>
    match if depth = 0 then none else afterPosix? rest with
    | some after => if after.length ≤ rest.length then setInOrder depth after else false
    | none =>
      have := length_afterOpening rest
      setInOrder (depth + 1) (afterOpening rest)
  | .raw ']' :: rest => if depth ≤ 1 then true else setInOrder (depth - 1) rest
  | first :: rest =>
    let isPair := match first with
      | .raw c => isOperator c rest
      | _ => false
    if isPair then setInOrder depth rest.tail
    else if first = .charClass false then false
    else
      match rest with
      | .raw '-' :: last :: after =>
        if last = .raw ']' || last = .raw '-' then setInOrder depth (.raw '-' :: last :: after)
        else
          match first.char?, last.char? with
          | some lo, some hi => lo ≤ hi && setInOrder depth after
          | _, _ => false
      | rest => setInOrder depth rest
termination_by cs.length

end QueryPad.Regex
