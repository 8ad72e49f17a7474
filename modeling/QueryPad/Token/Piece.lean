import QueryPad.Token
import QueryPad.Token.Scan

namespace QueryPad

open Text

-- What a stretch of a text is to the reader of tokens.
inductive PieceKind where
  | blank | lineComment | blockComment
  | token (kind : TokenKind)
  -- A comment that runs to the end of the text.
  | openComment
  -- A string that is not closed on its line.
  | openString
  -- A character that begins no token.
  | stray
  deriving DecidableEq

-- Pieces cover a text without gap.
structure Piece where
  kind : PieceKind
  start : Nat
  chars : List Char
  deriving DecidableEq

namespace Piece

def wordKind (chars : List Char) : TokenKind :=
  match String.ofList chars with
  | "db" => .db
  | "true" | "false" => .boolean
  | "null" => .null
  | _ => .identifier

def markKind : Char → Option TokenKind
  | '.' => some .dot
  | '(' => some .openParen
  | ')' => some .closeParen
  | '{' => some .openBrace
  | '}' => some .closeBrace
  | '[' => some .openBracket
  | ']' => some .closeBracket
  | ',' => some .comma
  | ':' => some .colon
  | ';' => some .semicolon
  | _ => none

-- A digit begins a number, a point does before a digit, a minus before either.
def beginsNumber (c : Char) (rest : List Char) : Bool :=
  let next := rest.headD ' '
  c.isDigit || (c = '.' && next.isDigit) || (c = '-' && (next.isDigit || next = '.'))

-- The piece at the start of a text, its characters, and the text after it.
def next (c : Char) (rest : List Char) : PieceKind × List Char × List Char :=
  if isBlank c then
    (.blank, c :: rest.takeWhile isBlank, rest.dropWhile isBlank)
  else if c = '/' && rest.head? = some '/' then
    (.lineComment, c :: rest.takeWhile (!isLineTerminator ·), rest.dropWhile (!isLineTerminator ·))
  else if c = '/' && rest.head? = some '*' then
    let (closed, taken, after) := Scan.commentBody rest.tail
    (if closed then .blockComment else .openComment, c :: '*' :: taken, after)
  else if beginsNumber c rest then
    let (taken, after) := Scan.number (c :: rest)
    (.token .number, taken, after)
  else if let some kind := markKind c then
    (.token kind, [c], rest)
  else if c = '\'' || c = '"' then
    let (closed, taken, after) := Scan.quoted c rest
    (if closed then .token .string else .openString, c :: taken, after)
  else if c = '/' then
    match Scan.regexBody false rest with
    | some (body, after) =>
      let flags := after.takeWhile Scan.isWordPart
      (.token .regex, c :: body ++ flags, after.dropWhile Scan.isWordPart)
    | none => (.stray, [c], rest)
  else if Scan.isWordStart c then
    let word := c :: rest.takeWhile Scan.isWordPart
    (.token (wordKind word), word, rest.dropWhile Scan.isWordPart)
  else (.stray, [c], rest)

theorem next_append (c : Char) (rest : List Char) :
    (next c rest).2.1 ++ (next c rest).2.2 = c :: rest := by
  fun_cases next c rest with
  | case1 => simp
  | case2 => simp
  | case3 _ h closed taken after e =>
      have := Scan.commentBody_append rest.tail
      cases rest <;> simp_all
  | case4 _ _ _ _ taken after e =>
      have := Scan.number_append (c :: rest)
      simp_all
  | case5 => simp
  | case6 _ _ _ _ _ _ closed taken after e =>
      have := Scan.quoted_append c rest
      simp_all
  | case7 _ _ _ _ _ _ body after h flags =>
      have := Scan.regexBody_append h
      simp_all [flags]
  | case8 => simp
  | case9 _ _ _ _ _ _ _ word => simp [word]
  | case10 => simp

theorem number_taken_ne_nil {c : Char} {rest : List Char} (h : beginsNumber c rest) :
    (Scan.number (c :: rest)).1 ≠ [] := by
  simp only [beginsNumber, Bool.or_eq_true, Bool.and_eq_true, decide_eq_true_eq] at h
  rcases h with (hd | ⟨rfl, hd⟩) | ⟨rfl, _⟩
  · have hc : c ≠ '-' := by rintro rfl; simp at hd
    simp [Scan.number, Scan.optionalChar, hc, Scan.digits, hd]
  · cases rest with
    | nil => simp at hd
    | cons d rest =>
        simp only [List.headD_cons] at hd
        simp [Scan.number, Scan.optionalChar, Scan.digits, Scan.fraction, hd]
  · simp [Scan.number, Scan.optionalChar]

theorem next_taken_ne_nil (c : Char) (rest : List Char) : (next c rest).2.1 ≠ [] := by
  fun_cases next c rest with
  | case4 _ _ _ h taken after e =>
      have := number_taken_ne_nil h
      simp_all
  | _ => simp_all

-- Every piece takes something, so reading pieces ends.
theorem next_rest_length (c : Char) (rest : List Char) :
    (next c rest).2.2.length < (c :: rest).length := by
  have h := congrArg List.length (next_append c rest)
  have hn := List.length_pos_iff.mpr (next_taken_ne_nil c rest)
  rw [List.length_append] at h
  omega

end Piece

def piecesFrom (start : Nat) : List Char → List Piece
  | [] => []
  | c :: rest =>
    ⟨(Piece.next c rest).1, start, (Piece.next c rest).2.1⟩ ::
      piecesFrom (start + byteSize (Piece.next c rest).2.1) (Piece.next c rest).2.2
termination_by cs => cs.length
decreasing_by exact Piece.next_rest_length c rest

-- The pieces of a text, put together, are the text.
theorem piecesFrom_join (start : Nat) (cs : List Char) :
    (piecesFrom start cs).flatMap Piece.chars = cs := by
  fun_induction piecesFrom start cs with
  | case1 => rfl
  | case2 start c rest ih =>
      rw [List.flatMap_cons, ih]
      exact Piece.next_append c rest

end QueryPad
