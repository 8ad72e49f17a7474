import QueryPad.Syntax.Tree

namespace QueryPad

-- A tree as a table of its nodes in the order in which reading creates them:
-- a node before its children, and these from left to right.
structure Entry where
  tree : Tree
  parent : Option Nat
  children : List Nat
  -- The number of the token at which the node begins.
  first : Nat

namespace Tree

mutual

-- The number of nodes, leaves included.
def count : Tree → Nat
  | terminal _ | error _ => 1
  | node _ _ children => 1 + countAll children

def countAll : List Tree → Nat
  | [] => 0
  | tree :: trees => tree.count + countAll trees

end

-- The numbers of siblings, if the first of them has this one.
def numbersFrom (id : Nat) : List Tree → List Nat
  | [] => []
  | tree :: trees => id :: numbersFrom (id + tree.count) trees

mutual

def entriesFrom (parent : Option Nat) (id first : Nat) : Tree → List Entry
  | terminal token => [⟨terminal token, parent, [], first⟩]
  | error token => [⟨error token, parent, [], first⟩]
  | node rule start children =>
    ⟨node rule start children, parent, numbersFrom (id + 1) children, first⟩ ::
      entriesOf (some id) (id + 1) first children

def entriesOf (parent : Option Nat) (id first : Nat) : List Tree → List Entry
  | [] => []
  | tree :: trees =>
    tree.entriesFrom parent id first ++
      entriesOf parent (id + tree.count) (first + tree.tokens.length) trees

end

def arena (tree : Tree) : List Entry := tree.entriesFrom none 0 0

mutual

theorem length_entriesFrom (parent : Option Nat) (id first : Nat) (tree : Tree) :
    (tree.entriesFrom parent id first).length = tree.count := by
  cases tree with
  | terminal => rfl
  | error => rfl
  | node rule start children =>
      rw [entriesFrom, List.length_cons, length_entriesOf, count, Nat.add_comm]

theorem length_entriesOf (parent : Option Nat) (id first : Nat) (trees : List Tree) :
    (entriesOf parent id first trees).length = countAll trees := by
  cases trees with
  | nil => rfl
  | cons tree trees =>
      rw [entriesOf, List.length_append, length_entriesFrom, length_entriesOf, countAll]

end

end Tree

-- The sibling just before the node of a number.
def previousSibling? (entries : List Entry) (id : Nat) : Option Nat := do
  let entry ← entries[id]?
  let parent ← entries[← entry.parent]?
  let index := parent.children.idxOf id
  guard (0 < index)
  parent.children[index - 1]?

-- The number of nodes above the node of a number. A parent has a smaller
-- number than its children.
def depthOf (entries : List Entry) (id : Nat) : Nat :=
  match entries[id]? with
  | none => 0
  | some entry =>
    match entry.parent with
    | none => 0
    | some parent => if parent < id then depthOf entries parent + 1 else 0

end QueryPad
