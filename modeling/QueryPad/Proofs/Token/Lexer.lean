import QueryPad.Proofs.Text.Position
import QueryPad.Token.Lexer

-- What holds of every token of a text, and that the tokens of a text stand one
-- behind the other.
namespace QueryPad

open Text

-- A piece is what is read where it begins.
theorem exists_read_of_mem_piecesFrom {start : Nat} {text : List Char} {piece : Piece}
    (h : piece ∈ piecesFrom start text) :
    ∃ before c rest, text = before ++ c :: rest ∧
      piece = ⟨(Piece.next c rest).1, start + byteSize before, (Piece.next c rest).2.1⟩ := by
  fun_induction piecesFrom start text with
  | case1 => simp at h
  | case2 start c rest ih =>
    rcases List.mem_cons.mp h with rfl | htail
    · exact ⟨[], c, rest, rfl, rfl⟩
    · obtain ⟨before, d, after, hafter, rfl⟩ := ih htail
      refine ⟨(Piece.next c rest).2.1 ++ before, d, after, ?_, ?_⟩
      · rw [List.append_assoc, ← hafter, Piece.next_append]
      · rw [byteSize_append, Nat.add_assoc]

theorem exists_next_of_mem_piecesFrom {start : Nat} {text : List Char} {piece : Piece}
    (h : piece ∈ piecesFrom start text) :
    ∃ c rest, piece.kind = (Piece.next c rest).1 ∧ piece.chars = (Piece.next c rest).2.1 := by
  obtain ⟨_, c, rest, _, rfl⟩ := exists_read_of_mem_piecesFrom h
  exact ⟨c, rest, rfl, rfl⟩

theorem Piece.eq_of_token? {piece : Piece} {token : Token} (h : piece.token? = some token) :
    piece = ⟨.token token.kind, token.start, token.chars⟩ := by
  obtain ⟨kind, start, chars⟩ := piece
  rw [Piece.token?] at h
  split at h
  · next kind hkind =>
    obtain rfl := Option.some.inj h
    exact congrArg (Piece.mk · start chars) hkind
  · contradiction

-- So is a token.
theorem exists_read_of_mem_lex {text : List Char} {token : Token} (h : token ∈ (lex text).tokens) :
    ∃ before c rest, text = before ++ c :: rest ∧ token.start = byteSize before ∧
      (Piece.next c rest).1 = .token token.kind ∧ token.chars = (Piece.next c rest).2.1 := by
  obtain ⟨piece, hpiece, htoken⟩ := List.mem_filterMap.mp h
  rw [Piece.eq_of_token? htoken] at hpiece
  obtain ⟨before, c, rest, htext, hread⟩ := exists_read_of_mem_piecesFrom hpiece
  obtain ⟨hkind, hstart, hchars⟩ := Piece.mk.inj hread
  exact ⟨before, c, rest, htext, hstart.trans (Nat.zero_add _), hkind.symm, hchars⟩

theorem exists_next_of_mem_lex {text : List Char} {token : Token} (h : token ∈ (lex text).tokens) :
    ∃ c rest, (Piece.next c rest).1 = .token token.kind ∧
      token.chars = (Piece.next c rest).2.1 := by
  obtain ⟨_, c, rest, _, _, hnext⟩ := exists_read_of_mem_lex h
  exact ⟨c, rest, hnext⟩

namespace Piece

theorem markKind_ne_endOfText (c : Char) : markKind c ≠ some .endOfText := by
  fun_cases markKind c <;> simp

theorem wordKind_ne_endOfText (chars : List Char) : wordKind chars ≠ .endOfText := by
  fun_cases wordKind chars <;> simp

-- What is read where a character stands before a text: the kind of the piece,
-- its characters and what is left. Each case holds what sets it apart from the
-- cases that are tried before it.
inductive Reads : Char → List Char → PieceKind × List Char × List Char → Prop where
  | blank {c : Char} (rest : List Char) (hblank : isBlank c) :
      Reads c rest (.blank, c :: rest.takeWhile isBlank, rest.dropWhile isBlank)
  | lineComment (line : List Char) :
      Reads '/' ('/' :: line) (.lineComment, '/' :: '/' :: line.takeWhile (!isLineTerminator ·),
        line.dropWhile (!isLineTerminator ·))
  | blockComment {rest taken after : List Char}
      (hbody : Scan.commentBody rest = (true, taken, after)) :
      Reads '/' ('*' :: rest) (.blockComment, '/' :: '*' :: taken, after)
  | openComment {rest taken after : List Char}
      (hbody : Scan.commentBody rest = (false, taken, after)) :
      Reads '/' ('*' :: rest) (.openComment, '/' :: '*' :: taken, after)
  | number {c : Char} {rest : List Char} (hbegins : beginsNumber c rest) :
      Reads c rest (.token .number, Scan.number (c :: rest))
  | mark {c : Char} {rest : List Char} {kind : TokenKind} (hbegins : ¬ beginsNumber c rest)
      (hmark : markKind c = some kind) : Reads c rest (.token kind, [c], rest)
  | string {quote : Char} {rest taken after : List Char} (hquote : quote = '\'' ∨ quote = '"')
      (hbody : Scan.quoted quote rest = (true, taken, after)) :
      Reads quote rest (.token .string, quote :: taken, after)
  | openString {quote : Char} {rest taken after : List Char} (hquote : quote = '\'' ∨ quote = '"')
      (hbody : Scan.quoted quote rest = (false, taken, after)) :
      Reads quote rest (.openString, quote :: taken, after)
  | regex {rest body after : List Char} (hline : rest.head? ≠ some '/')
      (hblock : rest.head? ≠ some '*') (hbody : Scan.regexBody false rest = some (body, after)) :
      Reads '/' rest (.token .regex, '/' :: body ++ after.takeWhile Scan.isWordPart,
        after.dropWhile Scan.isWordPart)
  | slash {rest : List Char} (hline : rest.head? ≠ some '/') (hblock : rest.head? ≠ some '*')
      (hbody : Scan.regexBody false rest = none) : Reads '/' rest (.stray, ['/'], rest)
  | word {c : Char} (rest : List Char) (hstart : Scan.isWordStart c) :
      Reads c rest (.token (wordKind (c :: rest.takeWhile Scan.isWordPart)),
        c :: rest.takeWhile Scan.isWordPart, rest.dropWhile Scan.isWordPart)
  | stray {c : Char} {rest : List Char} (hblank : ¬ isBlank c) (hslash : c ≠ '/')
      (hbegins : ¬ beginsNumber c rest) (hmark : markKind c = none)
      (hquote : ¬ (c = '\'' ∨ c = '"')) (hstart : ¬ Scan.isWordStart c) :
      Reads c rest (.stray, [c], rest)

theorem reads_next (c : Char) (rest : List Char) : Reads c rest (next c rest) := by
  fun_cases next c rest with
  | case1 hblank => exact .blank rest hblank
  | case2 _ hline =>
    obtain ⟨rfl, hhead⟩ : c = '/' ∧ rest.head? = some '/' := by simpa using hline
    obtain ⟨line, rfl⟩ := List.head?_eq_some_iff.mp hhead
    exact .lineComment line
  | case3 _ _ hblock closed taken after hbody =>
    obtain ⟨rfl, hhead⟩ : c = '/' ∧ rest.head? = some '*' := by simpa using hblock
    obtain ⟨rest, rfl⟩ := List.head?_eq_some_iff.mp hhead
    cases closed with
    | false => exact .openComment hbody
    | true => exact .blockComment hbody
  | case4 _ _ _ hbegins taken after hnumber => exact hnumber ▸ .number hbegins
  | case5 _ _ _ hbegins kind hmark => exact .mark hbegins hmark
  | case6 _ _ _ _ hquote closed taken after hbody =>
    cases closed with
    | false => exact .openString (by simpa using hquote) hbody
    | true => exact .string (by simpa using hquote) hbody
  | case7 _ hline hblock _ _ hslash body after hbody =>
    subst hslash
    exact .regex (by simpa using hline) (by simpa using hblock) hbody
  | case8 _ hline hblock _ _ hslash hbody =>
    subst hslash
    exact .slash (by simpa using hline) (by simpa using hblock) hbody
  | case9 _ _ _ _ _ _ hstart => exact .word rest hstart
  | case10 hblank _ _ hbegins hquote hslash hstart hmark =>
    exact .stray hblank hslash hbegins (Option.eq_none_iff_forall_not_mem.mpr hmark)
      (by simpa using hquote) hstart

theorem next_ne_endOfText (c : Char) (rest : List Char) :
    (next c rest).1 ≠ .token .endOfText := by
  have hread := reads_next c rest
  generalize next c rest = piece at hread ⊢
  cases hread with
  | @mark _ _ kind _ hmark =>
    have hkind : kind ≠ .endOfText := by
      rintro rfl
      exact markKind_ne_endOfText c hmark
    simpa using hkind
  | word => simpa using wordKind_ne_endOfText _
  | _ => simp

end Piece

theorem kind_ne_endOfText_of_mem_lex {text : List Char} {token : Token}
    (h : token ∈ (lex text).tokens) : token.kind ≠ .endOfText := by
  obtain ⟨c, rest, hkind, _⟩ := exists_next_of_mem_lex h
  intro hend
  exact Piece.next_ne_endOfText c rest (hend ▸ hkind)

theorem chars_ne_nil_of_mem_lex {text : List Char} {token : Token}
    (h : token ∈ (lex text).tokens) : token.chars ≠ [] := by
  obtain ⟨c, rest, _, hchars⟩ := exists_next_of_mem_lex h
  rw [hchars]
  exact Piece.next_taken_ne_nil c rest

theorem exists_split_of_mem_piecesFrom {start : Nat} {text : List Char} {piece : Piece}
    (h : piece ∈ piecesFrom start text) :
    ∃ before after, text = before ++ (piece.chars ++ after) ∧
      piece.start = start + byteSize before := by
  obtain ⟨before, c, rest, htext, rfl⟩ := exists_read_of_mem_piecesFrom h
  exact ⟨before, (Piece.next c rest).2.2, by rw [htext, Piece.next_append], rfl⟩

theorem piecesFrom_ordered (start : Nat) (text : List Char) :
    (piecesFrom start text).Pairwise fun a b => a.start + byteSize a.chars ≤ b.start := by
  fun_induction piecesFrom start text with
  | case1 => exact .nil
  | case2 start c rest ih =>
    refine .cons (fun piece hpiece => ?_) ih
    obtain ⟨before, after, _, hstart⟩ := exists_split_of_mem_piecesFrom hpiece
    show start + byteSize (Piece.next c rest).2.1 ≤ piece.start
    omega

section Tokens

variable {text : List Char} {token : Token}

theorem exists_split_of_mem_lex (h : token ∈ (lex text).tokens) :
    ∃ before after, text = before ++ (token.chars ++ after) ∧ token.start = byteSize before := by
  obtain ⟨piece, hpiece, htoken⟩ := List.mem_filterMap.mp h
  rw [Piece.eq_of_token? htoken] at hpiece
  obtain ⟨before, after, htext, hstart⟩ := exists_split_of_mem_piecesFrom hpiece
  exact ⟨before, after, htext, hstart.trans (Nat.zero_add _)⟩

theorem lex_ordered (text : List Char) :
    (lex text).tokens.Pairwise fun a b => a.stop ≤ b.start := by
  refine (piecesFrom_ordered 0 text).filterMap _ ?_
  intro piece piece' hordered token htoken token' htoken'
  rw [Piece.eq_of_token? htoken, Piece.eq_of_token? htoken'] at hordered
  exact hordered

theorem start_lt_stop_of_mem_lex (h : token ∈ (lex text).tokens) : token.start < token.stop := by
  have hne := chars_ne_nil_of_mem_lex h
  rw [Token.stop]
  cases hchars : token.chars with
  | nil => contradiction
  | cons c rest =>
    have hc := c.utf8Size_pos
    rw [byteSize_cons]
    omega

-- Where a token begins, the text before it is over.
theorem positionAt_lt_start {offset : Nat} (h : token ∈ (lex text).tokens)
    (hoffset : offset < token.start) :
    (LineIndex.ofChars text).positionAt offset <
      (LineIndex.ofChars text).positionAt token.start := by
  obtain ⟨before, after, htext, hstart⟩ := exists_split_of_mem_lex h
  rw [hstart] at hoffset ⊢
  exact LineIndex.positionAt_lt htext hoffset

end Tokens

end QueryPad
