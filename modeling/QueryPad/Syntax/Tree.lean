import QueryPad.Token

namespace QueryPad

open Text

-- One rule of the grammar of pads.
inductive Rule where
  | mongoCommands | commands | command | emptyCommand | collection
  | functionCall | arguments | argument
  | objectLiteral | propertyNameAndValueList | propertyAssignment | propertyName | propertyValue
  | arrayLiteral | elementList | literal
  deriving DecidableEq

def Rule.name : Rule → String
  | mongoCommands => "mongoCommands"
  | commands => "commands"
  | command => "command"
  | emptyCommand => "emptyCommand"
  | collection => "collection"
  | functionCall => "functionCall"
  | arguments => "arguments"
  | argument => "argument"
  | objectLiteral => "objectLiteral"
  | propertyNameAndValueList => "propertyNameAndValueList"
  | propertyAssignment => "propertyAssignment"
  | propertyName => "propertyName"
  | propertyValue => "propertyValue"
  | arrayLiteral => "arrayLiteral"
  | elementList => "elementList"
  | literal => "literal"

-- Leaves hold the tokens: the matched ones, and those skipped as errors.
-- A node knows the byte offset at which its rule began.
inductive Tree where
  | terminal (token : Token)
  | error (token : Token)
  | node (rule : Rule) (start : Nat) (children : List Tree)

namespace Tree

def kindName : Tree → String
  | terminal _ => "terminal"
  | error _ => "error"
  | node rule _ _ => rule.name

def children : Tree → List Tree
  | node _ _ children => children
  | _ => []

def rule? : Tree → Option Rule
  | node rule _ _ => some rule
  | _ => none

def is (tree : Tree) (rule : Rule) : Bool := tree.rule? = some rule

theorem is_iff {tree : Tree} {rule : Rule} :
    tree.is rule ↔ ∃ start children, tree = .node rule start children := by
  cases tree <;> simp [Tree.is, rule?]

-- A node is of one rule only.
theorem is_eq {tree : Tree} {rule : Rule} (h : tree.is rule) (other : Rule) :
    tree.is other = decide (rule = other) := by
  have hrule : tree.rule? = some rule := by simpa [Tree.is] using h
  simp [Tree.is, hrule]

theorem is_unique {tree : Tree} {rule other : Rule} (h : tree.is rule) (hother : tree.is other) :
    rule = other := by
  simpa [is_eq h] using hother

def isLeaf : Tree → Bool
  | node .. => false
  | _ => true

-- The token of a leaf.
def token? : Tree → Option Token
  | terminal token | error token => some token
  | node .. => none

def isTerminal (tree : Tree) (kind : TokenKind) : Bool :=
  match tree with
  | terminal token => token.kind = kind
  | _ => false

theorem isTerminal_iff {tree : Tree} {kind : TokenKind} :
    tree.isTerminal kind ↔ ∃ token : Token, token.kind = kind ∧ tree = .terminal token := by
  cases tree <;> simp [isTerminal]

def childOf? (tree : Tree) (rule : Rule) : Option Tree := tree.children.find? (·.is rule)

def childrenOf (tree : Tree) (rule : Rule) : List Tree := tree.children.filter (·.is rule)

mutual

-- The tokens of the leaves from left to right.
def tokens : Tree → List Token
  | terminal token | error token => [token]
  | node _ _ children => tokensOf children

def tokensOf : List Tree → List Token
  | [] => []
  | tree :: trees => tree.tokens ++ tokensOf trees

end

@[simp] theorem tokensOf_append (a b : List Tree) :
    tokensOf (a ++ b) = tokensOf a ++ tokensOf b := by
  induction a with
  | nil => simp [tokensOf]
  | cons tree trees ih => simp [tokensOf, ih]

theorem tokensOf_eq_flatMap (trees : List Tree) : tokensOf trees = trees.flatMap tokens := by
  induction trees with
  | nil => rfl
  | cons tree trees ih => simp [tokensOf, ih]

-- Whether the tree has a leaf.
def isConsumed (tree : Tree) : Bool := !tree.tokens.isEmpty

def start : Tree → Nat
  | terminal token | error token => token.start
  | node _ start _ => start

-- From the first token to the last. Without tokens it is empty, and lies
-- where the rule began.
def span (tree : Tree) : Span :=
  ⟨tree.start, (tree.tokens.getLast?.map Token.stop).getD tree.start⟩

-- The texts of the tokens with nothing between them.
def chars (tree : Tree) : List Char := tree.tokens.flatMap Token.chars

def text (tree : Tree) : String := .ofList tree.chars

mutual

-- The tree in parentheses, with the rule names first. What renders as
-- nothing leaves no blank behind.
def render : Tree → String
  | terminal token => token.text
  | error token => "<error " ++ token.text ++ ">"
  | node rule _ children => "(" ++ rule.name ++ renderAll children ++ ")"

def renderAll : List Tree → String
  | [] => ""
  | tree :: trees =>
    let shown := tree.render
    (if shown.isEmpty then "" else " " ++ shown) ++ renderAll trees

end

end Tree

end QueryPad
