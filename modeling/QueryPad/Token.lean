import QueryPad.Text.Position
import QueryPad.Text.Width

namespace QueryPad

open Text

inductive TokenKind where
  | db | identifier | dot
  | openParen | closeParen | openBrace | closeBrace | openBracket | closeBracket
  | comma | colon | semicolon
  | string | number | boolean | null | regex
  | endOfText
  deriving DecidableEq, Inhabited

namespace TokenKind

def isLiteral : TokenKind → Bool
  | string | number | boolean | null | regex => true
  | _ => false

-- How diagnostics speak of a kind.
def displayName : TokenKind → String
  | db => "'db'"
  | identifier => "IDENTIFIER"
  | dot => "'.'"
  | openParen => "'('"
  | closeParen => "')'"
  | openBrace => "'\x7b'"
  | closeBrace => "'\x7d'"
  | openBracket => "'['"
  | closeBracket => "']'"
  | comma => "','"
  | colon => "':'"
  | semicolon => "';'"
  | string => "StringLiteral"
  | number => "NumericLiteral"
  | boolean => "BooleanLiteral"
  | null => "NullLiteral"
  | regex => "RegexLiteral"
  | endOfText => "<EOF>"

end TokenKind

-- A token keeps the exact characters of the source, quotes and escapes included.
structure Token where
  kind : TokenKind
  -- Byte offset of the first character.
  start : Nat
  chars : List Char
  deriving DecidableEq, Inhabited

namespace Token

def text (token : Token) : String := .ofList token.chars

def stop (token : Token) : Nat := token.start + byteSize token.chars

def span (token : Token) : Span := ⟨token.start, token.stop⟩

-- What stands after the last token of a text.
def atEnd (offset : Nat) : Token := ⟨.endOfText, offset, []⟩

-- The token as diagnostics quote it.
def displayText (token : Token) : String :=
  if token.kind = .endOfText then "'<EOF>'" else "'" ++ token.text ++ "'"

end Token

-- What is wrong at one place of a text, for a reader of tokens.
inductive SyntaxFault where
  -- Characters that begin no token.
  | unrecognized (chars : List Char)
  | mismatched (found : Token) (expected : List TokenKind)
  | missing (kind : TokenKind) (found : Token)
  deriving DecidableEq

-- One kind stands alone, several stand in braces.
def expectedKinds : List TokenKind → String
  | [kind] => kind.displayName
  | kinds => "\x7b" ++ ", ".intercalate (kinds.map TokenKind.displayName) ++ "\x7d"

def SyntaxFault.message : SyntaxFault → String
  | unrecognized chars => "token recognition error at: '" ++ String.ofList chars ++ "'"
  | mismatched found expected =>
    "mismatched input " ++ found.displayText ++ " expecting " ++ expectedKinds expected
  | missing kind found => "missing " ++ kind.displayName ++ " at " ++ found.displayText

structure SyntaxReport where
  span : Span
  fault : SyntaxFault
  deriving DecidableEq

def SyntaxReport.message (report : SyntaxReport) : String := report.fault.message

end QueryPad
