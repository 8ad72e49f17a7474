namespace QueryPad.Regex

-- Why a regular expression is refused.
inductive Fault where
  | flags (flags : String)
  -- A group that opens in a way scripts do not know.
  | group (pattern : String)
  -- What an engine says of the text that it is given.
  | engine (pattern : String) (reason : String)
  deriving DecidableEq

namespace Fault

def message : Fault → String
  | flags given => "Invalid flags supplied to RegExp constructor '" ++ given ++ "'"
  | group pattern => "/" ++ pattern ++ "/: Invalid group"
  | engine pattern reason => "/" ++ pattern ++ "/: " ++ reason

end Fault

-- What matters of a pattern to tell whether it can be compiled.
inductive Pattern where
  | empty
  -- A character or any character.
  | single
  -- A set of characters, which is in order or not.
  | set (inOrder : Bool)
  -- A place in the text. Word boundaries need backtracking.
  | place (hard : Bool)
  | sequence (parts : List Pattern)
  | choice (parts : List Pattern)
  | group (number : Nat) (body : Pattern)
  | look (behind : Bool) (body : Pattern)
  -- Without an upper bound if there is none.
  | repeat_ (body : Pattern) (least : Nat) (most : Option Nat)
  | atomic (body : Pattern)
  -- What a group matched, and whether the group was opened before.
  | backreference (opened : Bool)

namespace Pattern

def isEmpty : Pattern → Bool
  | empty => true
  | _ => false

-- A quantifier may not follow what matches no characters by itself.
def isRepeatable : Pattern → Bool
  | look .. | empty | place _ => false
  | _ => true

def ofParts : List Pattern → Pattern
  | [] => empty
  | [part] => part
  | parts => sequence parts

end Pattern

end QueryPad.Regex
