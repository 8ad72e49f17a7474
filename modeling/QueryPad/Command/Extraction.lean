import QueryPad.Bson.Extended
import QueryPad.Command
import QueryPad.Command.Literal

-- The commands of a pad, each with what its values leave to report.
namespace QueryPad

open Text

def Diagnostic.ofValueReport (index : LineIndex) (report : ValueReport) : Diagnostic :=
  ⟨report.error.message, index.range report.span⟩

namespace Tree

mutual

-- The nodes of a rule, a node before those inside it.
def nodesOf (rule : Rule) : Tree → List Tree
  | .node other start children =>
    let inside := nodesOfAll rule children
    if other = rule then .node other start children :: inside else inside
  | _ => []

def nodesOfAll (rule : Rule) : List Tree → List Tree
  | [] => []
  | tree :: trees => tree.nodesOf rule ++ nodesOfAll rule trees

end

-- The calls made on a command, from left to right.
def calls (command : Tree) : List Tree := command.childrenOf .functionCall

-- What stands before the arguments of a call.
def calledName (call : Tree) : String := (call.children.head?.map Tree.text).getD ""

def argumentsOf (call : Tree) : List Tree :=
  (call.childrenOf .arguments).flatMap (·.childrenOf .argument)

end Tree

-- An argument converted, with its reports: first that of reading the text
-- back, then those of the conversion.
def Argument.ofTree (occasion : Occasion) (tree : Tree) : Argument × List ValueReport :=
  let conversion := tree.convert occasion
  let text := conversion.value.render
  match Bson.ofExtendedText (.ofList (Regex.halveEscapes text.toList)) with
  | .ok value => (⟨text, value⟩, conversion.reports)
  | .error error => (⟨text, .object []⟩, ⟨tree.span, error⟩ :: conversion.reports)

def Command.ofTree (index : LineIndex) (occasion : Occasion) (tree : Tree) : Command :=
  let arguments := ((tree.calls.take 1).flatMap Tree.argumentsOf).map (Argument.ofTree occasion)
  { range := index.range tree.span
    text := tree.text
    collection := (tree.childOf? .collection).map Tree.text
    name := ((tree.calls.map Tree.calledName).find? (!·.isEmpty)).getD ""
    arguments := arguments.map (·.1)
    chained := 1 < tree.calls.length
    errors := arguments.flatMap fun (_, reports) => reports.map (.ofValueReport index) }

-- The commands of the text as they stand, without its mistakes of syntax.
def Pad.extractedCommands (pad : Pad) (occasion : Occasion) : List Command :=
  (pad.tree.nodesOf .command).map (Command.ofTree pad.index occasion)

end QueryPad
