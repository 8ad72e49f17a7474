import QueryPad.Checked.Lines
import QueryPad.Pad
import QueryPad.Syntax.Builder

-- A text read into a table of nodes that know each other and their tokens by
-- number. Every number is looked up, and every text of a token is cut out.
namespace QueryPad

open Text

namespace Checked

section Tokens

variable (text : List Char)

-- The characters of a piece, which also tell the kind of a word.
def charsOf (piece : Piece) : Checked (List Char) :=
  cut text piece.start (piece.start + byteSize piece.chars)

def token? (piece : Piece) : Checked (Option Token) :=
  match piece.kind with
  | .token kind => do return some ⟨kind, piece.start, ← charsOf text piece⟩
  | _ => .ok none

def report? (piece : Piece) : Checked (Option SyntaxReport) :=
  match piece.kind with
  | .openString => do
    let chars ← charsOf text piece
    return some ⟨⟨piece.start, piece.start + byteSize chars⟩, .unrecognized chars⟩
  | _ => .ok piece.report?

def lex : Checked Lexed := do
  let tokens ← (piecesFrom 0 text).mapM (token? text)
  let reports ← (piecesFrom 0 text).mapM (report? text)
  return ⟨tokens.filterMap id, byteSize text, reports.filterMap id⟩

end Tokens

-- The token at which the grammar stands, which is the last one from there on.
def current (tokens : List Token) (place : Nat) : Checked Token := do
  item tokens (min place (← minus tokens.length 1))

-- What stands just before a number in a list.
def itemBefore? (numbers : List Nat) (number : Nat) : Checked (Option Nat) :=
  match numbers.findIdx? (· = number) with
  | none | some 0 => .ok none
  | some (index + 1) => do return some (← item numbers index)

section Building

variable (b : Builder)

def push (kind : NodeKind) (first : Nat) (last : Option Nat) : Checked Builder := do
  let rows := b.rows ++ [⟨kind, b.stack.head?, [], first, last⟩]
  match b.stack.head? with
  | none => return { b with rows }
  | some parent =>
    return { b with rows := ← modify rows parent fun row =>
      { row with children := row.children ++ [b.rows.length] } }

def leave : Checked Builder :=
  match b.stack with
  | [] => .ok b
  | id :: stack => do
    let first := (← item b.rows id).first
    let last := b.lastTaken.filter (first ≤ ·)
    return { b with rows := ← modify b.rows id fun row => { row with last }, stack }

def build : Event → Checked Builder
  | .opened rule first => do
    return { ← push b (.rule rule) first none with stack := b.rows.length :: b.stack }
  | .closed => leave b
  | .taken kind token => do
    return { ← push b kind token (some token) with lastTaken := some token }

def finish : Checked (List Row) := do
  let closed ← b.stack.foldlM (fun b _ => leave b) b
  if closed.rows.isEmpty then return (← push closed (.rule .mongoCommands) 0 none).rows
  else return closed.rows

end Building

end Checked

def LineTable.diagnostic (lines : LineTable) (report : SyntaxReport) : Checked Diagnostic := do
  return ⟨report.message, ← lines.emptyRange report.span.start⟩

def NodeKind.isLeaf : NodeKind → Bool
  | .rule _ => false
  | _ => true

structure NodeTable where
  tokens : List Token
  rows : List Row
  lines : LineTable
  -- The mistakes of the text, in the order in which they begin.
  errors : List Diagnostic

namespace NodeTable

variable (nodes : NodeTable)

section Family

def row (id : Nat) : Checked Row := Checked.item nodes.rows id

def kind (id : Nat) : Checked NodeKind := do return (← nodes.row id).kind

def isRule (rule : Rule) (id : Nat) : Checked Bool := do return (← nodes.kind id) = .rule rule

def parent? (id : Nat) : Checked (Option Nat) := do return (← nodes.row id).parent

-- The parent, if it is of a rule.
def parentOf? (rule : Rule) (id : Nat) : Checked (Option Nat) := do
  let some parent ← nodes.parent? id | return none
  return if ← nodes.isRule rule parent then some parent else none

def children (id : Nat) : Checked (List Nat) := do return (← nodes.row id).children

def child? (id index : Nat) : Checked (Option Nat) := do return (← nodes.children id)[index]?

def childOf? (rule : Rule) (id : Nat) : Checked (Option Nat) := do
  (← nodes.children id).findM? (nodes.isRule rule)

def childrenOf (rule : Rule) (id : Nat) : Checked (List Nat) := do
  (← nodes.children id).filterM (nodes.isRule rule)

def previousSibling? (id : Nat) : Checked (Option Nat) := do
  let some parent ← nodes.parent? id | return none
  Checked.itemBefore? (← nodes.children parent) id

-- The parent first, the root last.
def ancestors : Nat → Nat → Checked (List Nat)
  | 0, _ => .error .depth
  | depth + 1, id => do
    let some parent ← nodes.parent? id | return []
    return parent :: (← ancestors depth parent)

end Family

section Contents

-- The token of a leaf.
def token? (id : Nat) : Checked (Option Token) := do
  let row ← nodes.row id
  return if row.kind.isLeaf then nodes.tokens[row.first]? else none

def isTerminal (kind : TokenKind) (id : Nat) : Checked Bool := do
  let token? ← nodes.token? id
  return (← nodes.kind id) = .terminal && token?.any (·.kind = kind)

def firstToken (id : Nat) : Checked Token := do
  Checked.current nodes.tokens (← nodes.row id).first

def lastToken? (id : Nat) : Checked (Option Token) := do
  let some last := (← nodes.row id).last | return none
  return some (← Checked.item nodes.tokens last)

def isConsumed (id : Nat) : Checked Bool := do return (← nodes.row id).last.isSome

def span (id : Nat) : Checked Span := do
  let first ← nodes.firstToken id
  match ← nodes.lastToken? id with
  | some last => return ⟨first.start, max last.stop first.start⟩
  | none => return ⟨first.start, first.start⟩

def range (id : Nat) : Checked Range := do nodes.lines.range (← nodes.span id)

-- The texts of the tokens with nothing between them.
def chars (id : Nat) : Checked (List Char) := do
  let row ← nodes.row id
  match row.last with
  | some last => return (← Checked.part nodes.tokens row.first last).flatMap Token.chars
  | none => return []

def text (id : Nat) : Checked String := do return .ofList (← nodes.chars id)

-- The text from the first token to the last, blanks and comments included.
def source (id : Nat) : Checked String := do
  let span ← nodes.span id
  return .ofList (← Checked.cut nodes.lines.text span.start span.stop)

end Contents

def ofChars (text : List Char) : Checked NodeTable := do
  let lines ← LineTable.ofChars text
  let lexed ← Checked.lex text
  let parse := parseTokens lexed.all
  let rows ← Checked.finish (← (parse.tree.eventsFrom 0).foldlM Checked.build .empty)
  let errors ← (lexed.reports ++ parse.reports).mapM lines.diagnostic
  return ⟨lexed.all, rows, lines, Diagnostic.sortByStart errors⟩

end NodeTable

end QueryPad
