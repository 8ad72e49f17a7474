import QueryPad.Command.Extraction

-- Every mistake of syntax is laid on one command.
namespace QueryPad

open Text

namespace Command

-- The index of the last command of which something holds.
def lastIndex? (holds : Command → Bool) (commands : List Command) : Option Nat :=
  (commands.reverse.findIdx? holds).map fun index => commands.length - 1 - index

-- The command that contains the place, else the last one that ends on its
-- line. At the end of the text it may also be the last one before.
def carrier? (commands : List Command) (p : Position) (atEnd : Bool) : Option Nat :=
  (commands.findIdx? (·.range.holds p))
    |>.or (lastIndex? (·.range.stop.line = p.line) commands)
    |>.or (if atEnd then lastIndex? (fun command => command.range.stop ≤ p) commands else none)

-- An error that no command carries gets a placeholder, behind the commands
-- that start before it.
def place (finish : Position) (commands : List Command) (error : Diagnostic) : List Command :=
  let p := error.range.start
  match carrier? commands p (p = finish) with
  | some index => commands.modify index (·.withError error)
  | none =>
    let startsBefore (command : Command) : Bool := command.range.start ≤ p
    commands.takeWhile startsBefore ++ placeholder error :: commands.dropWhile startsBefore

-- The command at a place: the one that contains it, else the last one that
-- ends on its line, else the last one that ends before it, else the last.
def indexAt? (commands : List Command) (p : Position) : Option Nat :=
  (commands.findIdx? (·.range.holds p))
    |>.or (lastIndex? (·.range.stop.line = p.line) commands)
    |>.or (lastIndex? (fun command => command.range.stop < p) commands)
    |>.or (lastIndex? (fun _ => true) commands)

end Command

namespace Pad

-- The end of the text.
def finish (pad : Pad) : Position := pad.index.positionAt pad.index.size

def commands (pad : Pad) (occasion : Occasion) : List Command :=
  pad.syntaxDiagnostics.foldl (Command.place pad.finish) (pad.extractedCommands occasion)

def diagnostics (pad : Pad) (occasion : Occasion) : List Diagnostic :=
  (pad.commands occasion).flatMap Command.errors

end Pad

end QueryPad
