import QueryPad.Syntax.Grammar

-- Commands and pads, the upper half of the grammar.
namespace QueryPad.Syntax

-- In a dotted collection name, the tokens after its first part. The last
-- part before a call belongs to the call, so a part needs a point behind it.
def dottedParts : List Token → List Token × List Token
  | dot :: part :: after :: rest =>
    if dot.kind = .dot && part.kind = .identifier && after.kind = .dot then
      let (parts, rest) := dottedParts (after :: rest)
      (dot :: part :: parts, rest)
    else ([], dot :: part :: after :: rest)
  | tokens => ([], tokens)

theorem dottedParts_append (tokens : List Token) :
    (dottedParts tokens).1 ++ (dottedParts tokens).2 = tokens := by
  fun_induction dottedParts tokens <;> simp_all

-- The parts behind the first of a dotted collection name, all of them matched.
def dotted (inp : Input) : Parsed inp :=
  ⟨(dottedParts inp.ahead).1.map .terminal, [], { inp with ahead := (dottedParts inp.ahead).2 }, by
    have h : ∀ tokens : List Token, Tree.tokensOf (tokens.map .terminal) = tokens := by
      intro tokens
      simp [Tree.tokensOf_eq_flatMap, List.flatMap_map, Tree.tokens]
    rw [h]
    exact dottedParts_append inp.ahead⟩

def collection {inp : Input} (name : Taken inp) : Parsed inp :=
  .underNode .collection <| name.andThen fun mid _ => dotted mid

theorem collection_size_lt {inp : Input} (name : Taken inp) :
    (collection name).rest.size < inp.size := by
  rw [collection, Parsed.underNode_rest]
  exact name.andThen_size_lt _

theorem functionCall_size_lt {inp : Input} (name : Taken inp) :
    (functionCall name).rest.size < inp.size := by
  rw [functionCall, Parsed.underNode_rest]
  exact name.andThen_size_lt _

mutual

-- The dotted members of a command. Right after `db` a missing point is
-- reported and taken as given.
def members (inp : Input) (first : Bool) : Parsed inp :=
  match Taken.first? inp (· = .dot) with
  | some dot => dot.andThen fun mid _ => member mid first
  | none =>
    if first && inp.isAt .identifier then
      (Parsed.report inp (.missing .dot inp.current)).andThen fun mid _ => member mid first
    else .nothing inp
termination_by 2 * inp.size + 1

-- A name right after `db` that is not called is the collection.
def member (inp : Input) (first : Bool) : Parsed inp :=
  match Taken.first? inp (· = .identifier) with
  | none => .report inp (.mismatched inp.current [.identifier])
  | some name =>
    if first && inp.nth 1 ≠ .openParen then
      (collection name).append (members (collection name).rest false)
    else (functionCall name).append (members (functionCall name).rest false)
termination_by 2 * inp.size
decreasing_by
  · have := collection_size_lt name
    omega
  · have := functionCall_size_lt name
    omega

end

-- A command without a call is a mistake, unless one was reported already.
def callCheck {inp : Input} (body : Parsed inp) : Parsed body.rest :=
  if body.trees.any (·.is .functionCall) || body.rest.recovering then .nothing body.rest
  else .report body.rest (.mismatched body.rest.current [.dot])

def commandBody (inp : Input) : Parsed inp :=
  (members inp true).append (callCheck (members inp true))

def command {inp : Input} (db : Taken inp) : Parsed inp :=
  .underNode .command <|
    db.andThen fun mid _ => (commandBody mid).andThen fun mid _ => .optional mid .semicolon

def emptyCommand {inp : Input} (semicolon : Taken inp) : Parsed inp :=
  .underNode .emptyCommand semicolon.parsed

-- What begins no command, skipped up to where one may begin.
def noCommand {inp : Input} (token : Taken inp) : Parsed inp :=
  .withReports (inp.complaint (.mismatched token.token commandStart)) <|
    token.spoiled.andThen fun mid _ => .skipUntil mid commandStart.contains

def commandItem {inp : Input} (token : Taken inp) : Parsed inp :=
  match token.token.kind with
  | .db => command token
  | .semicolon => emptyCommand token
  | _ => noCommand token

theorem commandItem_size_lt {inp : Input} (token : Taken inp) :
    (commandItem token).rest.size < inp.size := by
  rw [commandItem]
  split
  · rw [command, Parsed.underNode_rest]
    exact token.andThen_size_lt _
  · exact token.size_lt
  · exact token.spoiled.andThen_size_lt fun mid _ => .skipUntil mid commandStart.contains

-- Commands to the end of the text.
def commandList (inp : Input) : Parsed inp :=
  match Taken.next? inp with
  | none => .nothing inp
  | some token =>
    if token.token.kind = .endOfText then .nothing inp
    else (commandItem token).append (commandList (commandItem token).rest)
termination_by inp.size
decreasing_by exact commandItem_size_lt token

-- The token that marks the end of a text.
def padEnd (inp : Input) : Parsed inp :=
  match Taken.next? inp with
  | none => .nothing inp
  | some last => last.parsed

def padBody (inp : Input) : Parsed inp :=
  (Parsed.underNode .commands (commandList inp)).andThen fun mid _ => padEnd mid

end Syntax

-- What the grammar makes of tokens that end with the end of the text.
structure Parse where
  tree : Tree
  reports : List SyntaxReport

def parseTokens (tokens : List Token) : Parse :=
  let inp : Syntax.Input := ⟨tokens, false⟩
  let body := Syntax.padBody inp
  ⟨.node .mongoCommands inp.current.start body.trees, body.reports⟩

end QueryPad
