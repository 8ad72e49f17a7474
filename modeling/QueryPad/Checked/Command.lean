import QueryPad.Checked.Literal
import QueryPad.Checked.Nodes
import QueryPad.Command.Gathering
import QueryPad.Command.Placement

-- The commands of a text, with every node looked up by its number. A depth
-- bounds how far calls go inside each other, down the nodes.
namespace QueryPad

open Text

def NodeKind.name : NodeKind → String
  | .rule its => its.name
  | .terminal => "terminal"
  | .error => "error"

namespace Conversion

def ofProperties (properties : List (String × Conversion)) : Conversion :=
  ⟨.object (mergeFields (properties.map fun property => (property.1, property.2.value))),
    properties.flatMap fun property => property.2.reports⟩

def ofElements (elements : List Conversion) : Conversion :=
  ⟨.array (elements.map value), elements.flatMap reports⟩

end Conversion

def Draft.command (draft : Draft) : Command :=
  { range := draft.range
    text := draft.text
    collection := draft.collection
    name := draft.name
    arguments := List.zipWith Argument.mk draft.arguments draft.values
    chained := draft.chained
    errors := draft.errors }

def Gathering.fill (state : Gathering) (change : Draft → Checked Draft) : Checked Gathering :=
  match state.current with
  | some draft => do return { state with current := some (← change draft) }
  | none => return state

def LineTable.valueDiagnostic (lines : LineTable) (report : ValueReport) : Checked Diagnostic := do
  return ⟨report.error.message, ← lines.range report.span⟩

-- An error is laid on a command that is there, or a new one is put in front
-- of one of them or behind all.
def Checked.place (finish : Position) (commands : List Command) (error : Diagnostic) :
    Checked (List Command) :=
  let p := error.range.start
  match Command.carrier? commands p (p = finish) with
  | some index => modify commands index (·.withError error)
  | none =>
    let before := commands.takeWhile fun command => command.range.start ≤ p
    insert commands before.length (.placeholder error)

namespace NodeTable

variable (nodes : NodeTable) (occasion : Occasion)

section Values

def failed (id : Nat) (error : ValueError) : Checked Conversion := do
  return ⟨.object [], [⟨← nodes.span id, error⟩]⟩

def ofExcept (id : Nat) : Except ValueError Json → Checked Conversion
  | .ok value => return .of value
  | .error error => nodes.failed id error

def notUnderstood (id : Nat) (name : String) : Checked (Except ValueError Json) := do
  return .error (.notUnderstood name (← nodes.text id))

-- The first child that is no leaf.
def held? (id : Nat) : Checked (Option Nat) := do
  (← nodes.children id).findM? fun child => return !(← nodes.kind child).isLeaf

def terminal? (kind : TokenKind) (id : Nat) : Checked (Option Nat) := do
  (← nodes.children id).findM? (nodes.isTerminal kind)

-- The children of one rule of all children of another one.
def childrenIn (outer inner : Rule) (id : Nat) : Checked (List Nat) := do
  return (← (← nodes.childrenOf outer id).mapM (nodes.childrenOf inner)).flatten

-- The meaning of one token, as part of a literal.
def ofToken (literal : Nat) (token : Token) : Checked (Except ValueError Json) :=
  match token.kind with
  | .string => do return .ok (.string (.ofList (← Checked.unquote token.chars)))
  | .null => return .ok .null
  | .boolean => return .ok (.bool (token.chars = "true".toList))
  | .number =>
    match JsonNumber.ofChars? token.chars with
    | some value => return .ok (.number value)
    | none => return .error (.number token.text)
  | .regex => Checked.regex token.chars
  | _ => nodes.notUnderstood literal token.text

def convertLiteral (literal : Nat) : Checked Conversion := do
  let some leaf ← nodes.child? literal 0 | return .empty
  let some token ← nodes.token? leaf | return .empty
  nodes.ofExcept literal (← nodes.ofToken literal token)

def make (call : Nat) (name : String) (argument : Option (List Char)) :
    Checked (Except ValueError Json) :=
  match name with
  | "ObjectId" => do return Literal.objectId occasion (← nodes.span call).start argument
  | "ISODate" => return Literal.date occasion .iso (argument.map Literal.inUniversalTime)
  | "Date" => return Literal.date occasion .verboseUniversal argument
  | _ => nodes.notUnderstood call name

def callName (call : Nat) : Checked String := do
  let some name ← nodes.terminal? .identifier call | return ""
  nodes.text name

-- An argument without text is none.
def argumentChars? (argument : Nat) : Checked (Option (List Char)) := do
  let chars ← nodes.chars argument
  if chars.isEmpty then return none else return some (← Checked.unquote chars)

def convertCall (call : Nat) : Checked Conversion := do
  let some list ← nodes.childOf? .arguments call | return .empty
  let some _ ← nodes.terminal? .openParen list |
    nodes.failed call
      (.syntax_ ("Expecting parentheses or quotes at '" ++ (← nodes.text call) ++ "'"))
  let name ← nodes.callName call
  match ← nodes.childrenOf .argument list with
  | [] => nodes.ofExcept call (← nodes.make occasion call name none)
  | [argument] =>
    nodes.ofExcept call (← nodes.make occasion call name (← nodes.argumentChars? argument))
  | _ => nodes.failed call (.tooManyArguments name)

-- The name and the value of a property that has a name.
def property? (value : Nat → Checked Conversion) (assignment : Nat) :
    Checked (Option (String × Conversion)) := do
  let some name ← nodes.childOf? .propertyName assignment | return none
  let name := String.ofList (← Checked.unquote (← nodes.chars name))
  match ← nodes.childOf? .propertyValue assignment with
  | some id => return some (name, ← value id)
  | none => return some (name, .empty)

def convert : Nat → Nat → Checked Conversion
  | 0, _ => .error .depth
  | depth + 1, id => do
    match ← nodes.kind id with
    | .rule .argument | .rule .propertyValue => do
      let some value ← nodes.held? id | return .empty
      convert depth value
    | .rule .literal => nodes.convertLiteral id
    | .rule .objectLiteral => do
      let assignments ← nodes.childrenIn .propertyNameAndValueList .propertyAssignment id
      let properties ← assignments.mapM (nodes.property? (convert depth))
      return .ofProperties (properties.filterMap fun property? => property?)
    | .rule .arrayLiteral => do
      let values ← nodes.childrenIn .elementList .propertyValue id
      return .ofElements (← values.mapM (convert depth))
    | .rule .functionCall => nodes.convertCall occasion id
    | .error => return .empty
    | kind => nodes.failed id (.notUnderstood kind.name (← nodes.text id))

end Values

section Drafts

def draft (command : Nat) : Checked Draft := do
  return {
    range := ← nodes.range command
    text := ← nodes.text command
    collection := none
    name := ""
    arguments := []
    values := []
    chained := 1 < (← nodes.childrenOf .functionCall command).length
    errors := [] }

def calledName (call : Nat) : Checked String := do
  let some name ← nodes.child? call 0 | return ""
  nodes.text name

def calledBy (call : Nat) (draft : Draft) : Checked Draft := do
  if draft.name.isEmpty then return { draft with name := ← nodes.calledName call }
  else return draft

-- Whether an argument belongs to the first call made on a command.
def isRecorded (argument : Nat) : Checked Bool := do
  let some list ← nodes.parentOf? .arguments argument | return false
  let some call ← nodes.parentOf? .functionCall list | return false
  let some command ← nodes.parentOf? .command call | return false
  return (← nodes.childOf? .functionCall command) = some call

def record (argument : Nat) (draft : Draft) : Checked Draft := do
  let conversion ← nodes.convert occasion nodes.rows.length argument
  let text := conversion.value.render
  let reports ← conversion.reports.mapM nodes.lines.valueDiagnostic
  match Bson.ofExtendedText (.ofList (Regex.halveEscapes text.toList)) with
  | .ok value => return (draft.pushArgument text value).pushErrors reports
  | .error error => do
    let own ← nodes.lines.valueDiagnostic ⟨← nodes.span argument, error⟩
    return ((draft.pushErrors [own]).pushArgument text (.object [])).pushErrors reports

def enter (id : Nat) (state : Gathering) : Checked Gathering := do
  match ← nodes.kind id with
  | .rule .command => return { state with current := some (← nodes.draft id) }
  | .rule .collection => state.fill fun draft => return draft.within (← nodes.text id)
  | .rule .functionCall => do
    let some _ ← nodes.parentOf? .command id | return state
    state.fill (nodes.calledBy id)
  | .rule .argument => do
    if ← nodes.isRecorded id then state.fill (nodes.record occasion id) else return state
  | _ => return state

-- What a node leaves when the nodes below it are done.
def gather : Nat → Gathering → Nat → Checked Gathering
  | 0, _, _ => .error .depth
  | depth + 1, state, id => do
    let entered ← nodes.enter occasion id state
    let inside ← (← nodes.children id).foldlM (gather depth) entered
    if ← nodes.isRule .command id then
      return ⟨inside.complete ++ inside.current.toList, state.current⟩
    else return inside

end Drafts

-- The walk starts at the first node, which is the root.
def commands : Checked (List Command) := do
  let gathered ← nodes.gather occasion nodes.rows.length .empty 0
  let finish ← nodes.lines.positionAt nodes.lines.size
  nodes.errors.foldlM (Checked.place finish) (gathered.complete.map Draft.command)

end NodeTable

end QueryPad
