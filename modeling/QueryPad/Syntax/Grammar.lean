import QueryPad.Syntax.Input
import QueryPad.Token.Lexer

-- The grammar of pads, read by recursive descent. Reading never fails: a
-- missing token is reported and taken as given, an unexpected one is
-- reported and kept as an error leaf.
namespace QueryPad.Syntax

def valueStart : List TokenKind :=
  [.openBrace, .openBracket, .identifier, .string, .number, .boolean, .null, .regex]

def nameStart : List TokenKind := [.string, .identifier, .db, .null, .boolean]

-- Kinds that end every open literal when tokens are skipped.
def sync : List TokenKind := [.semicolon, .db, .closeParen, .closeBracket, .closeBrace]

def commandStart : List TokenKind := [.endOfText, .db, .semicolon]

-- Skipping inside a literal or an argument list.
def skipTo (inp : Input) (kinds : List TokenKind) : Parsed inp :=
  .skipUntil inp fun kind => kinds.contains kind || sync.contains kind

-- The closing bracket of a literal, with junk skipped before it.
def close (inp : Input) (closing : TokenKind) (content : List TokenKind) : Parsed inp :=
  if inp.isAt closing then .expect inp closing
  else if inp.isAt .endOfText || inp.isAtAny sync then
    .report inp (.missing closing inp.current)
  else
    (Parsed.report inp (.mismatched inp.current (closing :: content))).andThen fun mid _ =>
      (skipTo mid [closing]).andThen fun mid _ => .expect mid closing

-- A comma that has an item after it.
def commaBefore? (inp : Input) (follows : TokenKind → Bool) : Option (Taken inp) :=
  (Taken.first? inp (· = .comma)).filter fun _ => follows (inp.nth 1)

-- No value starts here. A comma or a colon stays for the rule around.
def noValue (inp : Input) : Parsed inp :=
  (Parsed.report inp (.mismatched inp.current valueStart)).andThen fun mid _ =>
    if mid.isAt .comma || mid.isAt .colon then .nothing mid else skipTo mid [.comma]

-- What stands between two items of a list: junk, most often none, and a
-- comma if another item follows.
structure Separator (inp : Input) where
  junk : Parsed inp
  comma : Option (Taken junk.rest)

def separator (inp : Input) (closing : TokenKind) (follows : TokenKind → Bool) : Separator inp :=
  let comma := commaBefore? inp follows
  if comma.isSome || inp.isAt .comma || inp.isAt .endOfText || inp.isAtAny sync then
    ⟨.nothing inp, comma⟩
  else
    let junk := (Parsed.report inp (.mismatched inp.current [.comma, closing])).andThen
      fun mid _ => skipTo mid [.comma]
    ⟨junk, commaBefore? junk.rest follows⟩

-- The separator, and behind a comma the items that follow.
def Separator.andThen {inp : Input} (sep : Separator inp)
    (items : (mid : Input) → mid.size < inp.size → Parsed mid) : Parsed inp :=
  match sep.comma with
  | none => sep.junk
  | some comma =>
    sep.junk.append <| comma.andThen fun mid h => items mid (Nat.lt_of_lt_of_le h sep.junk.size_le)

def literal {inp : Input} (token : Taken inp) : Parsed inp :=
  .underNode .literal token.parsed

mutual

-- The body of an argument and of a property value.
def value (inp : Input) : Parsed inp :=
  match Taken.next? inp with
  | none => noValue inp
  | some token =>
    match token.token.kind with
    | .openBrace => objectLiteral token
    | .openBracket => arrayLiteral token
    | .identifier => functionCall token
    | kind => if kind.isLiteral then literal token else noValue inp
termination_by 4 * inp.size + 1

def objectLiteral {inp : Input} (opening : Taken inp) : Parsed inp :=
  .underNode .objectLiteral <|
    opening.andThen fun mid _ =>
      (if mid.isAtAny nameStart then
        Parsed.underNode .propertyNameAndValueList (propertyList mid)
      else .nothing mid).andThen fun mid _ =>
    (Parsed.optional mid .comma).andThen fun mid _ =>
    close mid .closeBrace nameStart
termination_by 4 * inp.size

def propertyList (inp : Input) : Parsed inp :=
  match Taken.first? inp nameStart.contains with
  | none => .nothing inp
  | some name =>
    (propertyAssignment name).andThen fun mid _ =>
      (separator mid .closeBrace nameStart.contains).andThen fun mid _ => propertyList mid
termination_by 4 * inp.size + 1

def propertyAssignment {inp : Input} (name : Taken inp) : Parsed inp :=
  .underNode .propertyAssignment <|
    (name.underNode .propertyName).andThen fun mid _ =>
    (Parsed.expect mid .colon).andThen fun mid _ =>
    propertyValue mid
termination_by 4 * inp.size

def propertyValue (inp : Input) : Parsed inp :=
  .underNode .propertyValue (value inp)
termination_by 4 * inp.size + 2

def arrayLiteral {inp : Input} (opening : Taken inp) : Parsed inp :=
  .underNode .arrayLiteral <|
    opening.andThen fun mid _ =>
      (if mid.isAtAny valueStart then Parsed.underNode .elementList (elementList mid)
      else .nothing mid).andThen fun mid _ =>
    (Parsed.optional mid .comma).andThen fun mid _ =>
    close mid .closeBracket valueStart
termination_by 4 * inp.size

def elementList (inp : Input) : Parsed inp :=
  (propertyValue inp).andThen fun mid _ =>
    (separator mid .closeBracket valueStart.contains).andThen fun mid _ => elementList mid
termination_by 4 * inp.size + 3

def functionCall {inp : Input} (name : Taken inp) : Parsed inp :=
  .underNode .functionCall <| name.andThen fun mid _ => arguments mid
termination_by 4 * inp.size

def arguments (inp : Input) : Parsed inp :=
  .underNode .arguments <|
    match Taken.first? inp (· = .openParen) with
    | none => .report inp (.mismatched inp.current [.openParen])
    | some opening =>
      opening.andThen fun mid _ =>
        (if mid.isAt .closeParen then Parsed.nothing mid else argumentList mid).andThen fun mid _ =>
        .expect mid .closeParen
termination_by 4 * inp.size + 1

def argumentList (inp : Input) : Parsed inp :=
  (Parsed.underNode .argument (value inp)).andThen fun mid _ =>
    (separator mid .closeParen fun _ => true).andThen fun mid _ => argumentList mid
termination_by 4 * inp.size + 3

end

end QueryPad.Syntax
