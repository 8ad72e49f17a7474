import QueryPad.Number.Word
import QueryPad.Regex.Reader

namespace QueryPad.Regex

namespace Pattern

mutual

-- Whether matching has to backtrack, given the groups that are referred to.
def isHard (referenced : List Nat) : Pattern → Bool
  | empty | single | set _ => false
  | place hard => hard
  | sequence parts | choice parts => anyHard referenced parts
  | group number body => body.isHard referenced || referenced.contains number
  | look .. | atomic _ | backreference _ => true
  | repeat_ body _ _ => body.isHard referenced

def anyHard (referenced : List Nat) : List Pattern → Bool
  | [] => false
  | part :: parts => part.isHard referenced || anyHard referenced parts

end

mutual

-- The least number of characters matched, and whether it is the only one.
def width : Pattern → Nat × Bool
  | empty | place _ | look .. => (0, true)
  | single | set _ => (1, true)
  | sequence parts => totalWidth parts
  | choice parts => commonWidth parts
  | group _ body | atomic body => body.width
  | repeat_ body least most =>
    let (n, fixed) := body.width
    (n * least, fixed && most = some least)
  | backreference _ => (0, false)

def totalWidth : List Pattern → Nat × Bool
  | [] => (0, true)
  | part :: parts =>
    let (n, fixed) := part.width
    let (m, others) := totalWidth parts
    (n + m, fixed && others)

def commonWidth : List Pattern → Nat × Bool
  | [] => (0, true)
  | [part] => part.width
  | part :: next :: parts =>
    let (n, fixed) := part.width
    let (m, others) := commonWidth (next :: parts)
    (min n m, fixed && others && n = m)

end

mutual

-- Whether all references are to groups opened before them.
def referencesOpened : Pattern → Bool
  | backreference opened => opened
  | sequence parts | choice parts => allReferencesOpened parts
  | group _ body | look _ body | repeat_ body _ _ | atomic body => body.referencesOpened
  | empty | single | set _ | place _ => true

def allReferencesOpened : List Pattern → Bool
  | [] => true
  | part :: parts => part.referencesOpened && allReferencesOpened parts

end

-- The largest bound of a quantifier that needs no backtracking.
def maxBound : Nat := Number.maxWord 32

mutual

-- Whether sets and bounds are in order, in a part without backtracking.
def inOrder : Pattern → Bool
  | set known => known
  | repeat_ body least most =>
    body.inOrder && least ≤ maxBound && most.all fun most => least ≤ most && most ≤ maxBound
  | sequence parts | choice parts => allInOrder parts
  | group _ body | look _ body | atomic body => body.inOrder
  | empty | single | place _ | backreference _ => true

def allInOrder : List Pattern → Bool
  | [] => true
  | part :: parts => part.inOrder && allInOrder parts

end

end Pattern

-- What compiling finds wrong after reading.
inductive CompileFault where
  | namedGroupsOnly | reference | unorderedPart | lookBehindWidth
  deriving DecidableEq

def CompileFault.reason : CompileFault → String
  | namedGroupsOnly =>
    "Numbered backref/call not allowed because named group was used, " ++
      "use a named backref instead"
  | reference => "Invalid back reference"
  | unorderedPart => "Regex error: error parsing pattern 0"
  | lookBehindWidth => "Look-behind assertion without constant size"

def CompileFault.message (fault : CompileFault) : String :=
  "Error compiling regex: " ++ fault.reason

-- Reading says where it stopped.
def Refusal.message : Refusal → String
  | .at offset reason => "Parsing error at position " ++ toString offset ++ ": " ++ reason.message
  | .namedGroupsOnly => CompileFault.namedGroupsOnly.message

namespace Pattern

def simple (part : Pattern) : Except CompileFault Unit :=
  if part.inOrder then .ok () else .error .unorderedPart

def allSimple (parts : List Pattern) : Except CompileFault Unit :=
  if allInOrder parts then .ok () else .error .unorderedPart

variable (referenced : List Nat)

def isEasy (part : Pattern) : Bool := !part.isHard referenced

def isEasyFixed (part : Pattern) : Bool := part.isEasy referenced && part.width.2

-- How many of the last parts are compiled together, without backtracking.
def tailLength (hard : Bool) (parts : List Pattern) : Nat :=
  (parts.reverse.takeWhile fun part =>
    if hard then part.isEasyFixed referenced else part.isEasy referenced).length

mutual

-- Compiles with backtracking what needs it. Within something hard, only
-- parts of fixed width at either end of a sequence are spared. Looking
-- behind needs a fixed width, of each alternative for itself.
def compile (hard : Bool) (pattern : Pattern) : Except CompileFault Unit :=
  if !hard && pattern.isEasy referenced then pattern.simple
  else
    match pattern with
    | empty | single | place _ | backreference _ => .ok ()
    | set known => (Pattern.set known).simple
    | sequence parts =>
      let first := (parts.takeWhile (isEasyFixed referenced)).length
      let last := parts.length - tailLength referenced hard (parts.drop first)
      do
        allSimple (parts.take first)
        compileBetween first last 0 parts
        allSimple (parts.drop last)
    | choice parts => compileAll hard parts
    | group _ body => body.compile hard
    | atomic body => body.compile false
    | look false body => body.compile false
    | look true (choice parts) =>
      if (choice parts).width.2 then (choice parts).compile false else compileBehind parts
    | look true body => if body.width.2 then body.compile false else .error .lookBehindWidth
    | repeat_ body least most =>
      body.compile (if least = 0 && most = some 1 then hard else hard || body.isHard referenced)

def compileAll (hard : Bool) : List Pattern → Except CompileFault Unit
  | [] => .ok ()
  | part :: parts => do
    part.compile hard
    compileAll hard parts

def compileBetween (first last index : Nat) : List Pattern → Except CompileFault Unit
  | [] => .ok ()
  | part :: parts => do
    if first ≤ index && index < last then part.compile true
    compileBetween first last (index + 1) parts

def compileBehind : List Pattern → Except CompileFault Unit
  | [] => .ok ()
  | part :: parts => do
    if part.width.2 then part.compile false else throw .lookBehindWidth
    compileBehind parts

end

end Pattern

-- Reading comes first, then the references, then the parts. A pattern that
-- needs no backtracking is compiled in one piece.
def compile (source : List Char) : Except String Unit :=
  match Reading.whole source with
  | .error refusal => .error refusal.message
  | .ok (body, reading) =>
    if !body.referencesOpened then .error CompileFault.reference.message
    else
      (body.compile reading.referenced (body.isHard reading.referenced)).mapError
        CompileFault.message

end QueryPad.Regex
