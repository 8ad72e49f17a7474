import QueryPad.Checked.Literal
import QueryPad.Checked.Nodes
import QueryPad.Completion

-- The completion at a place, with every node looked up by its number and every
-- text cut out at its offsets. A depth bounds how far calls go inside each
-- other, down the nodes and up again.
namespace QueryPad

open Text

namespace NodeTable

variable (nodes : NodeTable)

section Search

variable (offset : Nat)

-- The later of two nodes, unless it lies around the earlier one.
def laterOf : Option Nat → Option Nat → Checked (Option Nat)
  | some soFar, some next => do
    let outer ← nodes.span next
    let inner ← nodes.span soFar
    return some (if Walk.properlyContains outer inner then soFar else next)
  | soFar, none => .ok soFar
  | none, next => .ok next

-- A node with tokens that ends at or before the offset.
def ended? (id : Nat) : Checked (Option Nat) := do
  if ← nodes.isConsumed id then
    return if (← nodes.span id).stop ≤ offset then some id else none
  else return none

def nodeBefore : Nat → Nat → Checked (Option Nat)
  | 0, _ => .error .depth
  | depth + 1, id => do
    (← nodes.children id).foldlM (fun soFar child => do
      nodes.laterOf soFar (← nodeBefore depth child)) (← nodes.ended? offset id)

def lastLeafBefore? : Nat → Nat → Checked (Option Nat)
  | 0, _ => .error .depth
  | depth + 1, id => do
    if (← nodes.kind id).isLeaf then
      return if (← nodes.token? id).any (Focus.endsBy · offset) then some id else none
    else (← nodes.children id).reverse.findSomeM? (lastLeafBefore? depth)

end Search

section Ranges

variable (offset : Nat) (position : Position)

def rangeFrom (start : Nat) : Checked Range := do
  let p ← nodes.lines.positionAt start
  return if p.line < position.line then ⟨⟨position.line, 0⟩, position⟩ else ⟨p, position⟩

def rangeOf (id : Nat) : Checked Range := do
  nodes.rangeFrom position (← nodes.span id).start

def rangeAfter (id : Nat) : Checked Range := do
  let stop := min (← nodes.span id).stop offset
  let between ← Checked.cut nodes.lines.text stop offset
  let blanks := between.takeWhile isBlank
  nodes.rangeFrom position
    (if blanks.length < between.length then stop + byteSize blanks else offset)

def openSpan (id : Nat) : Checked Span := do
  let span ← nodes.span id
  return ⟨span.start, max span.stop offset⟩

end Ranges

section Context

variable (offset : Nat) (position : Position)

def afterDot (before : Nat) (range : Checked Range) : Checked CompletionContext := do
  if ← nodes.isTerminal .db before then return .members (← range)
  else if ← nodes.isRule .collection before then return .methods (← range)
  else return .nothing

def ofLeaf (leaf : Nat) : Checked CompletionContext := do
  let some token ← nodes.token? leaf | return .nothing
  match token.kind with
  | .db => return .keyword (← nodes.rangeOf position leaf)
  | .semicolon => return .keyword (← nodes.rangeAfter offset position leaf)
  | .dot => do
    let some before ← nodes.previousSibling? leaf | return .nothing
    nodes.afterDot before (nodes.rangeAfter offset position leaf)
  | _ => return .nothing

def ofCall (call : Nat) : Checked CompletionContext := do
  let some dot ← nodes.previousSibling? call | return .nothing
  if ← nodes.isTerminal .dot dot then
    let some name ← nodes.child? call 0 | return .nothing
    if offset < (← nodes.span name).stop then nodes.ofLeaf offset position dot
    else
      let some before ← nodes.previousSibling? dot | return .nothing
      nodes.afterDot before (nodes.rangeOf position name)
  else return .nothing

-- The call that a literal is an argument of.
def callOf? (literal : Nat) : Checked (Option Nat) := do
  let some argument ← nodes.parentOf? .argument literal | return none
  let some list ← nodes.parent? argument | return none
  nodes.parentOf? .functionCall list

-- The collection of the command around a node.
def collectionOf? (id : Nat) : Checked (Option String) := do
  let above ← nodes.ancestors nodes.rows.length id
  let some command ← above.findM? (nodes.isRule .command) | return none
  let some collection ← nodes.childOf? .collection command | return none
  return some (← nodes.text collection)

def argumentOf? (functions : List String) (literal : Nat) : Checked (Option String) := do
  let some call ← nodes.callOf? literal | return none
  let some name ← nodes.child? call 0 | return none
  if functions.contains (← nodes.text name) then nodes.collectionOf? literal else return none

def decidedAt? (id : Nat) : Checked (Option CompletionContext) := do
  match ← nodes.kind id with
  | .error => do
    let some _ ← nodes.parentOf? .commands id | return none
    return some (.keyword (← nodes.rangeOf position id))
  | .terminal => return none
  | .rule rule =>
    match rule with
    | .mongoCommands | .commands => return some (.keyword (.emptyAt position))
    | .emptyCommand => return some (.keyword (← nodes.rangeAfter offset position id))
    | .command => do
      match ← nodes.lastLeafBefore? offset nodes.rows.length id with
      | some leaf => return some (← nodes.ofLeaf offset position leaf)
      | none => return some (.keyword (← nodes.rangeOf position id))
    | .collection => return some (.members (← nodes.rangeOf position id))
    | .functionCall => return some (← nodes.ofCall offset position id)
    | .arguments => do
      let some leaf ← nodes.lastLeafBefore? offset nodes.rows.length id | return some .nothing
      if ← nodes.isTerminal .closeParen leaf then
        return some (.keyword (← nodes.rangeAfter offset position leaf))
      else return some .nothing
    | .objectLiteral => do
      let some collection ← nodes.argumentOf? CompletionContext.queryFunctions id | return none
      return some (.query collection (← nodes.openSpan offset id))
    | .arrayLiteral => do
      let some collection ← nodes.argumentOf? CompletionContext.pipelineFunctions id | return none
      return some (.pipeline collection (← nodes.openSpan offset id))
    | _ => return none

def upwards : Nat → Nat → Checked CompletionContext
  | 0, _ => .error .depth
  | depth + 1, id => do
    match ← nodes.decidedAt? offset position id with
    | some context => return context
    | none => do
      let some parent ← nodes.parent? id | return .nothing
      upwards depth parent

end Context

-- The commands are looked for below the first node, which is the root.
def contextAt (p : Position) : Checked CompletionContext := do
  let offset ← nodes.lines.offsetAt p
  let some commands ← nodes.childOf? .commands 0 | return .keyword (.emptyAt p)
  let some found ← nodes.nodeBefore offset nodes.rows.length commands | return .keyword (.emptyAt p)
  nodes.upwards offset p nodes.rows.length found

end NodeTable

namespace Checked

open Completion

section Keys

def nextFrame (token : Token) : Frame → Checked Frame
  | .array => return .array
  | .object key expectsKey =>
    match token.kind with
    | .colon => return .object key false
    | .comma => return .object none true
    | kind =>
      if expectsKey && Frame.isName kind then do
        return .object (some (.ofList (← unquote token.chars))) false
      else return .object key expectsKey

def readFrame (open_ : List Frame) (token : Token) : Checked (List Frame) :=
  match token.kind with
  | .openBrace => return .object none true :: open_
  | .openBracket => return .array :: open_
  | .closeBrace | .closeBracket => return open_.tail
  | _ =>
    match open_ with
    | [] => return []
    | frame :: outer => do return (← nextFrame token frame) :: outer

-- Where the key at the end of a text starts, and whether a quote does that.
def keyStart (before : List Char) : Checked (Nat × Bool) := do
  let word := (before.reverse.takeWhile isKeyChar).reverse
  let start ← minus (byteSize before) (byteSize word)
  if (← cut before 0 start).getLast?.any Literal.isQuote then return (← minus start 1, true)
  else return (start, false)

-- The steps to the innermost of the open brackets, all but the last of them
-- from the outside in.
def steps (open_ : List Frame) : Checked (List Schema.Step) := do
  return (← front open_.reverse (← minus open_.length 1)).map Frame.step

-- The key that is being typed at an offset of a text.
def keyPlace? (text : List Char) (offset : Nat) : Checked (Option KeyPlace) := do
  let (start, quoted) ← keyStart (← cut text 0 (min offset (byteSize text)))
  let open_ ← (← lex (← cut text 0 start)).tokens.foldlM readFrame []
  match open_ with
  | .object _ true :: _ => return some ⟨← steps open_, start, quoted⟩
  | _ => return none

end Keys

end Checked

namespace LineTable

open Completion Schema

-- The keys that the schema of a document knows at a place of its text.
def completions (lines : LineTable) (schemas : SchemaStore) (uri : String) (p : Position) :
    Checked (List CompletionItem) := do
  let some root := (schemaFor? uri).bind schemas.resolve? | return []
  let offset ← lines.offsetAt p
  let some place ← Checked.keyPlace? lines.text offset | return []
  let some schema := along? root place.path | return []
  return propertyItems root schema (← lines.range ⟨place.start, offset⟩) place.quoted

end LineTable

namespace NodeTable

variable (nodes : NodeTable)

section Embedded

-- A range of a text that starts at an offset of the whole one.
def rangeIn (inner : LineTable) (start : Nat) (range : Range) : Checked Range := do
  let first ← inner.offsetAt range.start
  let last ← inner.offsetAt range.stop
  nodes.lines.range ⟨first + start, last + start⟩

def editIn (inner : LineTable) (start : Nat) : ItemEdit → Checked ItemEdit
  | .replace range text => do return .replace (← nodes.rangeIn inner start range) text
  | .insertOrReplace insert range text => do
    return .insertOrReplace (← nodes.rangeIn inner start insert)
      (← nodes.rangeIn inner start range) text

def itemIn (inner : LineTable) (start : Nat) (item : CompletionItem) : Checked CompletionItem := do
  match item.edit with
  | some edit => return { item with edit := some (← nodes.editIn inner start edit) }
  | none => return item

-- A place before the literal means its start.
def embeddedItems (schemas : SchemaStore) (uri : String) (span : Span) (p : Position) :
    Checked (List CompletionItem) := do
  let stop := min span.stop nodes.lines.size
  let inner ← LineTable.ofChars (← Checked.cut nodes.lines.text span.start stop)
  let place ← inner.positionAt ((← nodes.lines.offsetAt p) - span.start)
  (← inner.completions schemas uri place).mapM (nodes.itemIn inner span.start)

end Embedded

def completions (names : Except PadError (List String)) (schemas : SchemaStore) (p : Position) :
    Checked (Except PadError (List CompletionItem)) := do
  match ← nodes.contextAt p with
  | .keyword range => return .ok [Completion.keywordItem range]
  | .members range =>
    return do
      return Completion.collectionItems (← names) range ++ Completion.functionItems range
  | .methods range => return .ok (Completion.methodItems range)
  | .query collection span =>
    return .ok (← nodes.embeddedItems schemas (Schema.queryDocument collection) span p)
  | .pipeline collection span =>
    return .ok (← nodes.embeddedItems schemas (Schema.pipelineDocument collection) span p)
  | .nothing => return .ok []

end NodeTable

end QueryPad
