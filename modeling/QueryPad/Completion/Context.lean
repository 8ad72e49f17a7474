import QueryPad.Pad
import QueryPad.Syntax.Walk
import QueryPad.Text.Letter

namespace QueryPad

open Text

-- What can be completed at a place of a pad.
inductive CompletionContext where
  | keyword (range : Range)
  -- Collections and database functions.
  | members (range : Range)
  | methods (range : Range)
  -- Literals that are documents of their own, from their start to their end
  -- or to the cursor.
  | query (collection : String) (span : Span)
  | pipeline (collection : String) (span : Span)
  | nothing
  deriving DecidableEq

structure Cursor where
  index : LineIndex
  offset : Nat
  position : Position

namespace Cursor

-- From an offset to the cursor, on the line of the cursor only.
def rangeFrom (cursor : Cursor) (start : Nat) : Range :=
  let p := cursor.index.positionAt start
  if p.line < cursor.position.line then ⟨⟨cursor.position.line, 0⟩, cursor.position⟩
  else ⟨p, cursor.position⟩

def rangeOf (cursor : Cursor) (focus : Focus) : Range := cursor.rangeFrom focus.tree.start

-- From the first character after a node that is not blank.
def rangeAfter (cursor : Cursor) (focus : Focus) : Range :=
  let stop := min focus.tree.span.stop cursor.offset
  let between := (slice? cursor.index.text stop cursor.offset).getD []
  let blanks := between.takeWhile isBlank
  cursor.rangeFrom <|
    if blanks.length < between.length then stop + byteSize blanks else cursor.offset

def here (cursor : Cursor) : Range := .emptyAt cursor.position

end Cursor

namespace CompletionContext

-- Calls whose argument is a query.
def queryFunctions : List String :=
  ["find", "findOne", "findOneAndDelete", "findOneAndUpdate", "findOneAndReplace", "deleteOne",
    "deleteMany", "remove"]

-- Calls whose argument is a pipeline.
def pipelineFunctions : List String := ["aggregate"]

-- What may be called on the thing in front of a point.
def afterDot (before : Focus) (range : Range) : CompletionContext :=
  if before.tree.isTerminal .db then members range
  else if before.tree.is .collection then methods range
  else nothing

-- At a leaf of a command, the last one before the cursor.
def ofLeaf (cursor : Cursor) (leaf : Focus) : CompletionContext :=
  match leaf.tree.token? with
  | none => nothing
  | some token =>
    match token.kind with
    | .db => keyword (cursor.rangeOf leaf)
    | .semicolon => keyword (cursor.rangeAfter leaf)
    | .dot =>
      match leaf.previousSibling? with
      | some before => afterDot before (cursor.rangeAfter leaf)
      | none => nothing
    | _ => nothing

-- The name typed so far is replaced as a whole. A call that is not behind a
-- point is the value of something, and nothing is known of it.
def ofCall (cursor : Cursor) (call : Focus) : CompletionContext :=
  match call.previousSibling? with
  | none => nothing
  | some dot =>
    if !dot.tree.isTerminal .dot then nothing
    else
      match call.child? 0 with
      | none => nothing
      | some name =>
        if cursor.offset < name.tree.span.stop then ofLeaf cursor dot
        else
          match dot.previousSibling? with
          | some before => afterDot before (cursor.rangeOf name)
          | none => nothing

-- The collection of the command around a literal, if the literal is the
-- argument of a call of one of the functions.
def argumentOf? (functions : List String) (literal : Focus) : Option String := do
  let argument ← literal.parent?
  guard (argument.tree.is .argument)
  let call ← (← argument.parent?).parent?
  guard (call.tree.is .functionCall)
  let name ← call.tree.children.head?
  guard (functions.contains name.text)
  let command ← literal.ancestors.find? (·.tree.is .command)
  return (← command.tree.childOf? .collection).text

-- The span of a literal, that reaches to the cursor if it is still open.
def openSpan (cursor : Cursor) (literal : Focus) : Span :=
  ⟨literal.tree.span.start, max literal.tree.span.stop cursor.offset⟩

-- The context that a node decides, if it does not leave it to the node above.
def decidedAt? (cursor : Cursor) (focus : Focus) : Option CompletionContext :=
  match focus.tree with
  | .error _ =>
    if focus.parent?.any (·.tree.is .commands) then some (keyword (cursor.rangeOf focus)) else none
  | .terminal _ => none
  | .node rule _ _ =>
    match rule with
    | .mongoCommands | .commands => some (keyword cursor.here)
    | .emptyCommand => some (keyword (cursor.rangeAfter focus))
    | .command =>
      match focus.lastLeafBefore? cursor.offset with
      | some leaf => some (ofLeaf cursor leaf)
      | none => some (keyword (cursor.rangeOf focus))
    | .collection => some (members (cursor.rangeOf focus))
    | .functionCall => some (ofCall cursor focus)
    | .arguments =>
      match focus.lastLeafBefore? cursor.offset with
      | some leaf =>
        some (if leaf.tree.isTerminal .closeParen then keyword (cursor.rangeAfter leaf) else nothing)
      | none => some nothing
    | .objectLiteral =>
      (argumentOf? queryFunctions focus).map (query · (openSpan cursor focus))
    | .arrayLiteral =>
      (argumentOf? pipelineFunctions focus).map (pipeline · (openSpan cursor focus))
    | _ => none

-- The first node that decides, from a node upwards.
def upwards (cursor : Cursor) (tree : Tree) : List (Tree × Nat) → CompletionContext
  | [] => (decidedAt? cursor ⟨tree, []⟩).getD nothing
  | (parent, index) :: above =>
    match decidedAt? cursor ⟨tree, (parent, index) :: above⟩ with
    | some context => context
    | none => upwards cursor parent above

end CompletionContext

namespace Pad

def cursorAt (pad : Pad) (p : Position) : Cursor := ⟨pad.index, pad.index.offsetAt p, p⟩

-- Where nothing stands before the cursor, a command can begin.
def contextAt (pad : Pad) (p : Position) : CompletionContext :=
  let cursor := pad.cursorAt p
  match ((Focus.root pad.tree).childOf? .commands).bind (Walk.nodeBefore cursor.offset).run with
  | some found => .upwards cursor found.tree found.above
  | none => .keyword cursor.here

end Pad

end QueryPad
