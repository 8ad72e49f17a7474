import QueryPad.Syntax.Builder
import QueryPad.Syntax.Commands

-- The recursive descent made explicit: what the calls under way still have to
-- do is a list of tasks. A loop of the grammar is a task that comes back.
namespace QueryPad.Syntax

-- A place in the tokens, and what was made of those before it.
structure Reader where
  inp : Input
  -- The number of the next token.
  pos : Nat
  events : List Event
  reports : List SyntaxReport

namespace Reader

def start (tokens : List Token) : Reader := ⟨⟨tokens, false⟩, 0, [], []⟩

def enter (r : Reader) (rule : Rule) : Reader :=
  { r with events := r.events ++ [.opened rule r.pos] }

def leave (r : Reader) : Reader := { r with events := r.events ++ [.closed] }

-- The next token becomes a leaf. The end of the text is never passed.
def bump (r : Reader) : Reader :=
  let matched : Reader := { r with
    inp := { r.inp with recovering := false }
    events := r.events ++ [.taken .terminal r.pos] }
  if r.inp.isAt .endOfText then matched
  else { matched with inp := ⟨r.inp.ahead.tail, false⟩, pos := r.pos + 1 }

-- The next token becomes an error leaf.
def spoil (r : Reader) : Reader :=
  if r.inp.isAt .endOfText then r
  else
    { r with
      inp := { r.inp with ahead := r.inp.ahead.tail }
      pos := r.pos + 1
      events := r.events ++ [.taken .error r.pos] }

def report (r : Reader) (fault : SyntaxFault) : Reader :=
  { r with
    inp := { r.inp with recovering := true }
    reports := r.reports ++ r.inp.complaint fault }

def mismatched (r : Reader) (expected : List TokenKind) : Reader :=
  r.report (.mismatched r.inp.current expected)

def missing (r : Reader) (kind : TokenKind) : Reader := r.report (.missing kind r.inp.current)

-- A command without a call is a mistake, unless one was reported already.
def checkCalls (r : Reader) (called : Bool) : Reader :=
  if called || r.inp.recovering then r else r.mismatched [.dot]

end Reader

-- Lists whose items have commas between them.
inductive ItemList where
  | arguments | properties | elements
  deriving DecidableEq

namespace ItemList

def closing : ItemList → TokenKind
  | arguments => .closeParen
  | properties => .closeBrace
  | elements => .closeBracket

-- What may come behind a comma.
def follows : ItemList → TokenKind → Bool
  | arguments => fun _ => true
  | properties => nameStart.contains
  | elements => valueStart.contains

end ItemList

-- A call of a rule, a turn of a loop, or the rest of a call that waits for
-- another one.
inductive Task where
  | pad
  | padEnd
  -- A turn of the loop of commands.
  | commands
  -- A turn of the loop of members. It knows whether one was called, and whether
  -- it is the first turn.
  | members (called first : Bool)
  | member (called first : Bool)
  | callCheck (called : Bool)
  -- A turn of the loop of a dotted collection name.
  | dotted
  | arguments
  | items (list : ItemList)
  -- A turn of the loop of items, and two places where it may go round.
  | item (list : ItemList)
  | behindItem (list : ItemList)
  | behindJunk (list : ItemList)
  | value
  | propertyValue
  | close (closing : TokenKind) (content : List TokenKind)
  | optional (kind : TokenKind)
  | expect (kind : TokenKind)
  -- A turn of a loop that skips tokens up to one of these.
  | skip (kinds : List TokenKind)
  -- The end of a rule.
  | leave
  deriving DecidableEq

namespace Task

-- A literal begins with a bracket, which is matched at once.
def literal (r : Reader) (rule : Rule) (list : ItemList) (starts : List TokenKind) :
    List Task × Reader :=
  ([.items list, .optional .comma, .close list.closing starts, .leave], (r.enter rule).bump)

def call (r : Reader) : List Task × Reader := ([.arguments, .leave], (r.enter .functionCall).bump)

-- What a task does until it calls another rule, goes round in its loop or ends,
-- and what there is to do then.
def turn (r : Reader) : Task → List Task × Reader
  | pad => ([.commands, .leave, .padEnd, .leave], (r.enter .mongoCommands).enter .commands)
  | padEnd => ([], r.bump)
  | commands =>
    match r.inp.peek with
    | .endOfText => ([], r)
    | .db =>
      ([.members false true, .optional .semicolon, .leave, .commands], (r.enter .command).bump)
    | .semicolon => ([.commands], (r.enter .emptyCommand).bump.leave)
    -- the loop that skips goes round at least once here
    | _ => ([.skip commandStart, .commands], (r.mismatched commandStart).spoil)
  | members called first =>
    if r.inp.isAt .dot then ([.member called first], r.bump)
    else if first && r.inp.isAt .identifier then ([.member called first], r.missing .dot)
    else ([.callCheck called], r)
  | member called first =>
    if !r.inp.isAt .identifier then ([.callCheck called], r.mismatched [.identifier])
    else if first && r.inp.nth 1 ≠ .openParen then
      ([.dotted, .leave, .members called false], (r.enter .collection).bump)
    else ((call r).1 ++ [.members true false], (call r).2)
  | callCheck called => ([], r.checkCalls called)
  | dotted =>
    if r.inp.isAt .dot && r.inp.nth 1 = .identifier && r.inp.nth 2 = .dot then
      ([.dotted], r.bump.bump)
    else ([], r)
  | arguments =>
    if r.inp.isAt .openParen then
      ([.items .arguments, .expect .closeParen, .leave], (r.enter .arguments).bump)
    else ([], ((r.enter .arguments).mismatched [.openParen]).leave)
  | items .arguments => if r.inp.isAt .closeParen then ([], r) else ([.item .arguments], r)
  | items .properties =>
    if r.inp.isAtAny nameStart then
      ([.item .properties, .leave], r.enter .propertyNameAndValueList)
    else ([], r)
  | items .elements =>
    if r.inp.isAtAny valueStart then ([.item .elements, .leave], r.enter .elementList)
    else ([], r)
  | item .arguments => ([.value, .leave, .behindItem .arguments], r.enter .argument)
  | item .properties =>
    ([.expect .colon, .propertyValue, .leave, .behindItem .properties],
      ((r.enter .propertyAssignment).enter .propertyName).bump.leave)
  | item .elements => ([.propertyValue, .behindItem .elements], r)
  | behindItem list =>
    if r.inp.isAt .comma && list.follows (r.inp.nth 1) then ([.item list], r.bump)
    else if r.inp.isAt .comma || r.inp.isAt .endOfText || r.inp.isAtAny sync then ([], r)
    else ([.skip (.comma :: sync), .behindJunk list], r.mismatched [.comma, list.closing])
  | behindJunk list =>
    if r.inp.isAt .comma && list.follows (r.inp.nth 1) then ([.item list], r.bump) else ([], r)
  | value =>
    match r.inp.peek with
    | .openBrace => literal r .objectLiteral .properties nameStart
    | .openBracket => literal r .arrayLiteral .elements valueStart
    | .identifier => call r
    | kind =>
      if kind.isLiteral then ([], (r.enter .literal).bump.leave)
      else if r.inp.isAt .comma || r.inp.isAt .colon then ([], r.mismatched valueStart)
      else ([.skip (.comma :: sync)], r.mismatched valueStart)
  | propertyValue => ([.value, .leave], r.enter .propertyValue)
  | close closing content =>
    if r.inp.isAt closing then ([], r.bump)
    else if r.inp.isAt .endOfText || r.inp.isAtAny sync then ([], r.missing closing)
    else ([.skip (closing :: sync), .expect closing], r.mismatched (closing :: content))
  | optional kind => if r.inp.isAt kind then ([], r.bump) else ([], r)
  | expect kind => if r.inp.isAt kind then ([], r.bump) else ([], r.missing kind)
  | skip kinds =>
    if r.inp.isAt .endOfText || r.inp.isAtAny kinds then ([], r) else ([.skip kinds], r.spoil)
  | leave => ([], r.leave)

end Task

structure Descent where
  reader : Reader
  -- The next task first. The tasks of a call stand before those of its caller.
  todo : List Task

namespace Descent

def start (tokens : List Token) : Descent := ⟨.start tokens, [.pad]⟩

def next? (d : Descent) : Option Descent :=
  match d.todo with
  | [] => none
  | task :: below => some ⟨(task.turn d.reader).2, (task.turn d.reader).1 ++ below⟩

def run? : Nat → Descent → Option Descent
  | 0, d => some d
  | turns + 1, d => d.next?.bind (run? turns)

end Descent

end QueryPad.Syntax
