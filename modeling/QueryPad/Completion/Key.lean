import QueryPad.Command.Literal
import QueryPad.Schema.Navigation
import QueryPad.Token.Lexer

-- The key being typed in an object, told from the tokens before it.
namespace QueryPad.Completion

open Text Schema

-- A bracket that is open, and what an object has had so far.
inductive Frame where
  | object (key : Option String) (expectsKey : Bool)
  | array
  deriving DecidableEq

structure KeyPlace where
  -- From the outermost literal to the object being edited.
  path : List Step
  -- Where the key starts, its quote included.
  start : Nat
  quoted : Bool
  deriving DecidableEq

def isKeyChar (c : Char) : Bool := isLetterOrNumber c || c = '_' || c = '$' || c = '.'

namespace Frame

def isName : TokenKind → Bool
  | .identifier | .string | .db | .null | .boolean => true
  | _ => false

-- A token inside an object, at its own level.
def next (token : Token) : Frame → Frame
  | array => array
  | object key expectsKey =>
    match token.kind with
    | .colon => object key false
    | .comma => object none true
    | kind =>
      if expectsKey && isName kind then
        object (some (.ofList (Literal.unquote token.chars))) false
      else object key expectsKey

-- The open brackets after a token, the innermost first.
def read (open_ : List Frame) (token : Token) : List Frame :=
  match token.kind with
  | .openBrace => object none true :: open_
  | .openBracket => array :: open_
  | .closeBrace | .closeBracket => open_.tail
  | _ =>
    match open_ with
    | [] => []
    | frame :: outer => frame.next token :: outer

def step : Frame → Step
  | object key _ => .key (key.getD "")
  | array => .item

end Frame

-- The text before the key, and the key as far as it is typed.
def splitKey (before : List Char) : List Char × List Char :=
  let word := (before.reverse.takeWhile isKeyChar).reverse
  (before.take (before.length - word.length), word)

def keyPlace? (before : List Char) : Option KeyPlace :=
  let (rest, _) := splitKey before
  let quoted := rest.getLast?.any Literal.isQuote
  let rest := if quoted then rest.dropLast else rest
  match (lex rest).tokens.foldl Frame.read [] with
  | .object _ true :: outer => some ⟨(outer.reverse.map Frame.step), byteSize rest, quoted⟩
  | _ => none

end QueryPad.Completion
