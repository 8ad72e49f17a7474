import QueryPad.Syntax.Arena

namespace QueryPad

open Text

-- A node at its place in a tree: the nodes above it, the nearest first, each
-- with the index of the child through which the place is reached.
structure Focus where
  tree : Tree
  above : List (Tree × Nat)

namespace Focus

def root (tree : Tree) : Focus := ⟨tree, []⟩

def parent? (focus : Focus) : Option Focus :=
  match focus.above with
  | [] => none
  | (tree, _) :: above => some ⟨tree, above⟩

def child? (focus : Focus) (index : Nat) : Option Focus :=
  focus.tree.children[index]?.map fun tree => ⟨tree, (focus.tree, index) :: focus.above⟩

def children (focus : Focus) : List Focus :=
  focus.tree.children.mapIdx fun index tree => ⟨tree, (focus.tree, index) :: focus.above⟩

def childOf? (focus : Focus) (rule : Rule) : Option Focus :=
  focus.children.find? (·.tree.is rule)

def previousSibling? (focus : Focus) : Option Focus :=
  match focus.above with
  | (tree, index + 1) :: above =>
    tree.children[index]?.map fun sibling => ⟨sibling, (tree, index) :: above⟩
  | _ => none

-- The parent first, the root last.
def ancestors (focus : Focus) : List Focus :=
  go focus.above
where
  go : List (Tree × Nat) → List Focus
    | [] => []
    | (tree, _) :: above => ⟨tree, above⟩ :: go above

-- The number of the node in the arena of the whole tree.
def number (focus : Focus) : Nat :=
  go focus.above
where
  go : List (Tree × Nat) → Nat
    | [] => 0
    | (tree, index) :: above => 1 + Tree.countAll (tree.children.take index) + go above

-- The end of the text ends nowhere.
def endsBy (token : Token) (offset : Nat) : Bool :=
  token.kind ≠ .endOfText && token.stop ≤ offset

mutual

-- The last leaf that ends at or before an offset.
def lastLeafIn? (offset : Nat) (above : List (Tree × Nat)) : Tree → Option Focus
  | .terminal token =>
    if endsBy token offset then some ⟨.terminal token, above⟩ else none
  | .error token =>
    if endsBy token offset then some ⟨.error token, above⟩ else none
  | .node rule start children =>
    lastLeafOf? offset (.node rule start children) above 0 children

def lastLeafOf? (offset : Nat) (parent : Tree) (above : List (Tree × Nat)) (index : Nat) :
    List Tree → Option Focus
  | [] => none
  | tree :: trees =>
    (lastLeafOf? offset parent above (index + 1) trees).or
      (lastLeafIn? offset ((parent, index) :: above) tree)

end

def lastLeafBefore? (focus : Focus) (offset : Nat) : Option Focus :=
  lastLeafIn? offset focus.above focus.tree

end Focus

end QueryPad
