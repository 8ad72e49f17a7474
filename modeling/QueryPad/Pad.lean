import QueryPad.Syntax.Commands
import QueryPad.Text.Lines

namespace QueryPad

open Text

-- A text read as a pad of commands.
structure Pad where
  index : LineIndex
  lexed : Lexed
  parse : Parse

namespace Pad

def ofChars (text : List Char) : Pad :=
  let lexed := lex text
  ⟨.ofChars text, lexed, parseTokens lexed.all⟩

def ofText (text : String) : Pad := ofChars text.toList

def tree (pad : Pad) : Tree := pad.parse.tree

def rangeOf (pad : Pad) (tree : Tree) : Range := pad.index.range tree.span

-- The text of a span, blanks and comments included.
def source? (pad : Pad) (span : Span) : Option String :=
  (slice? pad.index.text span.start span.stop).map String.ofList

def commandsNode? (pad : Pad) : Option Tree := pad.tree.childOf? .commands

end Pad

structure Diagnostic where
  message : String
  range : Range
  deriving DecidableEq

namespace Diagnostic

-- A mistake in the text is reported at the place where it begins.
def ofReport (index : LineIndex) (report : SyntaxReport) : Diagnostic :=
  ⟨report.message, index.emptyRange report.span.start⟩

-- Diagnostics that begin at one place keep their order.
def sortByStart (diagnostics : List Diagnostic) : List Diagnostic :=
  diagnostics.mergeSort fun a b => a.range.start ≤ b.range.start

end Diagnostic

namespace Pad

def lexicalDiagnostics (pad : Pad) : List Diagnostic :=
  pad.lexed.reports.map (.ofReport pad.index)

def grammarDiagnostics (pad : Pad) : List Diagnostic :=
  pad.parse.reports.map (.ofReport pad.index)

def syntaxDiagnostics (pad : Pad) : List Diagnostic :=
  Diagnostic.sortByStart (pad.lexicalDiagnostics ++ pad.grammarDiagnostics)

end Pad

end QueryPad
