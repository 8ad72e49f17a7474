import QueryPad.Command.Extraction
import QueryPad.Syntax.Focus

-- The commands of a tree as one walk gathers them: a command is held open
-- while the nodes below it are visited, and these write into it.
namespace QueryPad

open Text

-- A command that is being filled. The texts of its arguments and the values
-- that they denote are two lists.
structure Draft where
  range : Range
  text : String
  collection : Option String
  name : String
  arguments : List String
  values : List Bson
  chained : Bool
  errors : List Diagnostic

namespace Draft

def ofNode (index : LineIndex) (node : Tree) : Draft :=
  { range := index.range node.span
    text := node.text
    collection := none
    name := ""
    arguments := []
    values := []
    chained := 1 < node.calls.length
    errors := [] }

def within (name : String) (draft : Draft) : Draft := { draft with collection := some name }

-- The first call that has a name names the command.
def calledBy (call : Tree) (draft : Draft) : Draft :=
  if draft.name.isEmpty then { draft with name := call.calledName } else draft

def pushArgument (text : String) (value : Bson) (draft : Draft) : Draft :=
  { draft with arguments := draft.arguments ++ [text], values := draft.values ++ [value] }

def pushErrors (errors : List Diagnostic) (draft : Draft) : Draft :=
  { draft with errors := draft.errors ++ errors }

-- An argument whose text denotes no value stands for an empty document.
def record (index : LineIndex) (occasion : Occasion) (argument : Tree) (draft : Draft) : Draft :=
  let conversion := argument.convert occasion
  let text := conversion.value.render
  let recorded :=
    match Bson.ofExtendedText (.ofList (Regex.halveEscapes text.toList)) with
    | .ok value => draft.pushArgument text value
    | .error error =>
      (draft.pushErrors [.ofValueReport index ⟨argument.span, error⟩]).pushArgument text (.object [])
  recorded.pushErrors (conversion.reports.map (.ofValueReport index))

end Draft

-- Whether an argument belongs to the first call made on a command.
def Focus.isRecorded (argument : Focus) : Bool :=
  argument.parent?.any fun list => list.tree.is .arguments &&
    list.parent?.any fun call => call.tree.is .functionCall &&
      call.parent?.any fun command => command.tree.is .command &&
        (command.childOf? .functionCall).any fun first => first.number = call.number

-- The commands that are complete, and the one that is open.
structure Gathering where
  complete : List Draft
  current : Option Draft

namespace Gathering

def empty : Gathering := ⟨[], none⟩

def write (state : Gathering) (change : Draft → Draft) : Gathering :=
  { state with current := state.current.map change }

-- What a node does before the nodes below it.
def enter (index : LineIndex) (occasion : Occasion) (focus : Focus) (state : Gathering) :
    Gathering :=
  match focus.tree.rule? with
  | some .command => { state with current := some (.ofNode index focus.tree) }
  | some .collection => state.write (.within focus.tree.text)
  | some .functionCall =>
    if focus.parent?.any (·.tree.is .command) then state.write (.calledBy focus.tree) else state
  | some .argument =>
    if focus.isRecorded then state.write (.record index occasion focus.tree) else state
  | _ => state

-- A command is complete when the nodes below it are done, and what was open
-- around it is open again.
def leave (outer : Option Draft) (focus : Focus) (state : Gathering) : Gathering :=
  if focus.tree.is .command then ⟨state.complete ++ state.current.toList, outer⟩ else state

variable (index : LineIndex) (occasion : Occasion)

mutual

def visit (above : List (Tree × Nat)) (tree : Tree) (state : Gathering) : Gathering :=
  match tree with
  | .terminal _ | .error _ => state
  | .node rule start children =>
    (visitAll ⟨.node rule start children, above⟩ 0 children
      (state.enter index occasion ⟨.node rule start children, above⟩)).leave state.current
        ⟨.node rule start children, above⟩

def visitAll (parent : Focus) (child : Nat) (trees : List Tree) (state : Gathering) : Gathering :=
  match trees with
  | [] => state
  | tree :: trees =>
    visitAll parent (child + 1) trees (visit ((parent.tree, child) :: parent.above) tree state)

end

end Gathering

def Pad.gather (pad : Pad) (occasion : Occasion) : List Draft :=
  (Gathering.empty.visit pad.index occasion [] pad.tree).complete

end QueryPad
