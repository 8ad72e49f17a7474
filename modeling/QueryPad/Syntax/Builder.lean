import QueryPad.Syntax.Arena

-- The table of a tree as it comes about while a text is read, node by node.
namespace QueryPad

inductive NodeKind where
  | rule (rule : Rule)
  | terminal
  | error
  deriving DecidableEq

-- A node as the table holds it. It knows its tokens by their numbers.
structure Row where
  kind : NodeKind
  parent : Option Nat
  children : List Nat
  -- The first token, or the one at which the rule began.
  first : Nat
  -- The last token, if the node has any.
  last : Option Nat
  deriving DecidableEq

-- What happens to the table while a text is read.
inductive Event where
  | opened (rule : Rule) (first : Nat)
  | closed
  | taken (kind : NodeKind) (token : Nat)

structure Builder where
  rows : List Row
  -- The nodes still open, the innermost first.
  stack : List Nat
  lastTaken : Option Nat

namespace Builder

def empty : Builder := ⟨[], [], none⟩

def adopt (parent : Option Nat) (ids : List Nat) (rows : List Row) : List Row :=
  match parent with
  | none => rows
  | some parent => rows.modify parent fun row => { row with children := row.children ++ ids }

-- A new node becomes the last child of the innermost open one.
def push (b : Builder) (kind : NodeKind) (first : Nat) (last : Option Nat) : Builder :=
  { b with
    rows := adopt b.stack.head? [b.rows.length]
      (b.rows ++ [⟨kind, b.stack.head?, [], first, last⟩]) }

def enter (b : Builder) (rule : Rule) (first : Nat) : Builder :=
  { b.push (.rule rule) first none with stack := b.rows.length :: b.stack }

-- A node ends with the last token taken, unless that stands before the node.
def leave (b : Builder) : Builder :=
  match b.stack with
  | [] => b
  | id :: stack =>
    { b with
      rows := b.rows.modify id fun row =>
        { row with last := b.lastTaken.filter (row.first ≤ ·) }
      stack }

def take (b : Builder) (kind : NodeKind) (token : Nat) : Builder :=
  { b.push kind token (some token) with lastTaken := some token }

def step (b : Builder) : Event → Builder
  | .opened rule first => b.enter rule first
  | .closed => b.leave
  | .taken kind token => b.take kind token

-- What is still open in the end is closed, and an empty table gets a root.
def finish (b : Builder) : List Row :=
  let closed := b.stack.foldl (fun b _ => b.leave) b
  if closed.rows.isEmpty then (closed.push (.rule .mongoCommands) 0 none).rows
  else closed.rows

end Builder

namespace Tree

mutual

-- The events of reading a tree, if its tokens are numbered from here.
def eventsFrom (first : Nat) : Tree → List Event
  | terminal _ => [.taken .terminal first]
  | error _ => [.taken .error first]
  | node rule _ children => .opened rule first :: (eventsOf first children ++ [.closed])

def eventsOf (first : Nat) : List Tree → List Event
  | [] => []
  | tree :: trees => tree.eventsFrom first ++ eventsOf (first + tree.tokens.length) trees

end

def table (tree : Tree) : List Row :=
  ((tree.eventsFrom 0).foldl Builder.step .empty).finish

end Tree

end QueryPad
