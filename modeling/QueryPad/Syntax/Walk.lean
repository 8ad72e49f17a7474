import QueryPad.Syntax.Focus

namespace QueryPad

open Text

-- A walk over a tree. A node has an answer of its own, or the answers of its
-- children are joined from left to right, for as long as the walk goes on.
structure Walk (α : Type) where
  answer : Focus → Option α := fun _ => none
  seed : Focus → α
  join : α → α → α
  goesOn : Focus → α → Bool := fun _ _ => true

namespace Walk

variable {α : Type}

mutual

-- The answer at a node, and how often the walk was asked whether it goes on.
def visit (walk : Walk α) (above : List (Tree × Nat)) (tree : Tree) : α × Nat :=
  match walk.answer ⟨tree, above⟩ with
  | some answer => (answer, 0)
  | none =>
    match tree with
    | .terminal token => (walk.seed ⟨.terminal token, above⟩, 0)
    | .error token => (walk.seed ⟨.error token, above⟩, 0)
    | .node rule start children =>
      visitAll walk ⟨.node rule start children, above⟩ 0
        (walk.seed ⟨.node rule start children, above⟩) children

def visitAll (walk : Walk α) (parent : Focus) (index : Nat) (soFar : α) :
    List Tree → α × Nat
  | [] => (soFar, 0)
  | tree :: trees =>
    if walk.goesOn parent soFar then
      let (answer, asked) := visit walk ((parent.tree, index) :: parent.above) tree
      let (result, more) := visitAll walk parent (index + 1) (walk.join soFar answer) trees
      (result, asked + more + 1)
    else (soFar, 1)

end

def run (walk : Walk α) (focus : Focus) : α := (walk.visit focus.above focus.tree).1

-- An answer that is there replaces the one before.
def keepLast (isAbsent : α → Bool) (soFar next : α) : α := if isAbsent next then soFar else next

-- The text of the last literal.
def lastLiteral : Walk (Option String) where
  answer focus := if focus.tree.is .literal then some (some focus.tree.text) else none
  seed _ := none
  join := keepLast Option.isNone

-- The text of the first literal, with nothing visited after it.
def firstLiteral : Walk (Option String) :=
  { lastLiteral with goesOn := fun _ soFar => soFar.isNone }

-- The names of the last list of properties, or the last skipped token.
def propertyNames : Walk (List String) where
  answer focus :=
    match focus.tree with
    | .node .propertyNameAndValueList _ assignments =>
      some <| assignments.filterMap fun assignment =>
        (assignment.childOf? .propertyName).map Tree.text
    | .error token => some ["error " ++ token.text]
    | _ => none
  seed _ := []
  join := keepLast List.isEmpty

def properlyContains (outer inner : Span) : Bool :=
  outer.start ≤ inner.start && inner.stop ≤ outer.stop && outer ≠ inner

-- The last node that ends at or before an offset, the innermost one if
-- several end there. Nodes without tokens do not count.
def nodeBefore (offset : Nat) : Walk (Option Focus) where
  seed focus :=
    if focus.tree.isConsumed && focus.tree.span.stop ≤ offset then some focus else none
  join
    | some soFar, some next =>
      if properlyContains next.tree.span soFar.tree.span then some soFar else some next
    | soFar, none => soFar
    | none, next => next

end Walk

end QueryPad
