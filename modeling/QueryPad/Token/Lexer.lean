import QueryPad.Token.Piece

namespace QueryPad

open Text

namespace Piece

def token? (piece : Piece) : Option Token :=
  match piece.kind with
  | .token kind => some ⟨kind, piece.start, piece.chars⟩
  | _ => none

-- Of a comment that is never closed only the opening is reported.
def faultyChars? (piece : Piece) : Option (List Char) :=
  match piece.kind with
  | .openComment => some ['/', '*']
  | .openString | .stray => some piece.chars
  | _ => none

def report? (piece : Piece) : Option SyntaxReport :=
  piece.faultyChars?.map fun chars =>
    ⟨⟨piece.start, piece.start + byteSize chars⟩, .unrecognized chars⟩

end Piece

structure Lexed where
  tokens : List Token
  -- Where the text ends.
  stop : Nat
  reports : List SyntaxReport

-- The tokens followed by the one that marks the end.
def Lexed.all (lexed : Lexed) : List Token := lexed.tokens ++ [.atEnd lexed.stop]

def lex (text : List Char) : Lexed :=
  let pieces := piecesFrom 0 text
  ⟨pieces.filterMap Piece.token?, byteSize text, pieces.filterMap Piece.report?⟩

end QueryPad
