import QueryPad.Proofs.Token.Lexer
import QueryPad.Proofs.Token.Neighbours

-- What is typed behind a semicolon does not change how the text before it is
-- read, as long as it does not close a regular expression.
namespace QueryPad

open Text

namespace Scan

variable {cs more : List Char}

-- What stops before the end of a text stops there with more behind it.
theorem takeWhile_append_of_left {p : Char → Bool} (h : cs.dropWhile p ≠ []) :
    (cs ++ more).takeWhile p = cs.takeWhile p ∧
      (cs ++ more).dropWhile p = cs.dropWhile p ++ more := by
  have hjoin := congrArg List.length (List.takeWhile_append_dropWhile (p := p) (l := cs))
  have hleft := List.length_pos_iff.mpr h
  rw [List.length_append] at hjoin
  rw [List.takeWhile_append, if_neg (by omega), List.dropWhile_append, if_neg (by simpa using h)]
  exact ⟨rfl, rfl⟩

theorem commentBody_append_of_left (h : (commentBody cs).2.2 ≠ []) :
    commentBody (cs ++ more) =
      ((commentBody cs).1, (commentBody cs).2.1, (commentBody cs).2.2 ++ more) := by
  fun_induction commentBody cs with
  | case1 => contradiction
  | case2 rest => rw [List.cons_append, List.cons_append, commentBody]
  | case3 c rest hopen closed taken after hbody ih =>
    rw [hbody] at ih
    have hne : rest ≠ [] := by
      rintro rfl
      obtain ⟨_, _, rfl⟩ : false = closed ∧ [] = taken ∧ [] = after := by
        simpa [commentBody] using hbody
      contradiction
    obtain ⟨d, behind, rfl⟩ := List.exists_cons_of_ne_nil hne
    rw [List.cons_append, commentBody, ih h]
    rintro tail rfl htail
    obtain ⟨rfl, _⟩ := List.cons.inj htail
    exact hopen behind rfl rfl

theorem quoted_append_of_left {quote : Char} (h : (quoted quote cs).2.2 ≠ []) :
    quoted quote (cs ++ more) =
      ((quoted quote cs).1, (quoted quote cs).2.1, (quoted quote cs).2.2 ++ more) := by
  fun_induction quoted quote cs with
  | case1 | case4 => contradiction
  | case2 rest =>
    unfold quoted
    simp
  | case3 c rest hquote hline =>
    unfold quoted
    simp [hquote, hline]
  | case5 escaped rest closed taken after hbody hquote hline ih =>
    rw [hbody] at ih
    unfold quoted
    simp only [List.cons_append, if_neg hquote, if_neg hline, ih h]
    rfl
  | case6 c rest hquote hline hescape closed taken after hbody ih =>
    rw [hbody] at ih
    unfold quoted
    simp only [List.cons_append, if_neg hquote, if_neg hline, if_neg hescape, ih h]

theorem getLast?_ne_of_cons {c last : Char} (h : (c :: cs).getLast? ≠ some last) :
    cs.getLast? ≠ some last := by
  intro heq
  simp [List.getLast?_cons, heq] at h

-- An escape at the end of the text would cover what is typed first.
theorem regexBody_append_eq_none {inClass : Bool} (h : regexBody inClass cs = none)
    (hlast : cs.getLast? ≠ some '\\') (hmore : ∀ inClass, regexBody inClass more = none) :
    regexBody inClass (cs ++ more) = none := by
  fun_induction regexBody inClass cs with
  | case1 inClass => exact hmore inClass
  | case2 inClass c rest hline =>
    unfold regexBody
    simp only [List.cons_append, if_pos hline]
  | case3 => simp at hlast
  | case4 inClass escaped rest hescaped hback =>
    unfold regexBody
    simp only [List.cons_append, if_neg hback, if_pos hescaped, if_true]
  | case5 inClass escaped rest hescaped hback ih =>
    have htail := getLast?_ne_of_cons (getLast?_ne_of_cons hlast)
    have hnone := ih (Option.map_eq_none_iff.mp h) htail
    unfold regexBody
    simp only [List.cons_append, if_neg hback, if_neg hescaped, hnone, if_true, Option.map_none]
  | case6 => contradiction
  | case7 inClass c rest hline hescape hclose ih =>
    have hnone := ih (Option.map_eq_none_iff.mp h) (getLast?_ne_of_cons hlast)
    unfold regexBody
    simp only [List.cons_append, if_neg hline, if_neg hescape, if_neg hclose, hnone,
      Option.map_none]

-- On a line without slashes nothing closes a regular expression.
theorem regexBody_eq_none {line : List Char} (hline : ∀ c ∈ line, c ≠ '/' ∧ c ≠ '\\')
    (hmore : ∀ c ∈ more.head?, isLineTerminator c) (inClass : Bool) :
    regexBody inClass (line ++ more) = none := by
  induction line generalizing inClass with
  | nil =>
    cases more with
    | nil => rfl
    | cons c rest =>
      rw [List.nil_append, regexBody.eq_def]
      exact if_pos (hmore c rfl)
  | cons c rest ih =>
    obtain ⟨⟨hslash, hescape⟩, hrest⟩ := List.forall_mem_cons.mp hline
    rw [List.cons_append, regexBody.eq_def]
    simp [hslash, hescape, ih hrest]

section Number

variable (before more : List Char)

-- A semicolon ends a number just as the end of the text does.
theorem digits_semicolon : digits (before ++ ';' :: more) =
    ((digits before).1, (digits before).2 ++ ';' :: more) := by
  induction before with
  | nil => rfl
  | cons c rest ih =>
    obtain ⟨htaken, hleft⟩ := Prod.mk.inj ih
    rw [digits, digits, List.cons_append]
    by_cases hc : c.isDigit
    · simp only [List.takeWhile_cons_of_pos hc, List.dropWhile_cons_of_pos hc, htaken, hleft]
      rfl
    · simp only [List.takeWhile_cons_of_neg hc, List.dropWhile_cons_of_neg hc]
      rfl

theorem optionalChar_semicolon {accepts : Char → Bool} (h : accepts ';' = false) :
    optionalChar accepts (before ++ ';' :: more) =
      ((optionalChar accepts before).1, (optionalChar accepts before).2 ++ ';' :: more) := by
  cases before with
  | nil => simp [optionalChar, h]
  | cons c rest =>
    rw [List.cons_append, optionalChar, optionalChar]
    split <;> rfl

theorem fraction_semicolon : fraction (before ++ ';' :: more) =
    ((fraction before).1, (fraction before).2 ++ ';' :: more) := by
  fun_cases fraction before with
  | case1 rest left hnone =>
    have hdigits := digits_semicolon rest more
    rw [hnone] at hdigits
    exact fraction_point_nil hdigits
  | case2 rest ds left hne hsome =>
    have hdigits := digits_semicolon rest more
    rw [hsome] at hdigits
    exact fraction_point hdigits hne
  | case3 _ hpoint =>
    apply fraction_of_not
    intro c hc
    rcases head?_append_cases hc with hhead | ⟨_, hc⟩
    · obtain ⟨rest, hbefore⟩ := List.head?_eq_some_iff.mp hhead
      rintro rfl
      exact hpoint rest hbefore
    · obtain rfl := Option.some.inj hc
      decide

theorem exponent_semicolon : exponent (before ++ ';' :: more) =
    ((exponent before).1, (exponent before).2 ++ ';' :: more) := by
  fun_cases exponent before with
  | case1 => rfl
  | case2 e rest he sign unsigned hsign left hnone =>
    have hsigned := @optionalChar_semicolon rest more (fun c => c = '+' || c = '-') rfl
    have hdigits := digits_semicolon unsigned more
    rw [hsign] at hsigned
    rw [hnone] at hdigits
    rw [List.cons_append]
    exact exponent_eq_nil (by rw [hsigned, hdigits])
  | case3 e rest he sign unsigned hsign ds left hne hsome =>
    have hsigned := @optionalChar_semicolon rest more (fun c => c = '+' || c = '-') rfl
    have hdigits := digits_semicolon unsigned more
    rw [hsign] at hsigned
    rw [hsome] at hdigits
    exact exponent_eq he hsigned hdigits hne
  | case4 e rest he => rw [List.cons_append, exponent, if_neg he]

theorem number_semicolon : number (before ++ ';' :: more) =
    ((number before).1, (number before).2 ++ ';' :: more) := by
  have hsign := @optionalChar_semicolon before more (· = '-') rfl
  simp only [number, hsign, digits_semicolon, fraction_semicolon, exponent_semicolon]

variable {more}

theorem number_append_of_semicolon (h : cs.getLast? = some ';') :
    number (cs ++ more) = ((number cs).1, (number cs).2 ++ more) := by
  obtain ⟨before, rfl⟩ := List.getLast?_eq_some_iff.mp h
  rw [List.append_assoc, number_semicolon, List.singleton_append, number_semicolon]
  simp

end Number

end Scan

namespace Piece

variable {c : Char} {rest more : List Char}

-- A piece that ends before a semicolon does.
theorem next_append_of_left (hlast : rest.getLast? = some ';') (hleft : (next c rest).2.2 ≠ [])
    (hmore : ∀ inClass, Scan.regexBody inClass more = none) :
    next c (rest ++ more) =
      ((next c rest).1, (next c rest).2.1, (next c rest).2.2 ++ more) := by
  have hne : rest ≠ [] := by
    rintro rfl
    contradiction
  have hhead : (rest ++ more).head? = rest.head? := List.head?_append_of_ne_nil rest hne
  have hnumber : beginsNumber c (rest ++ more) = beginsNumber c rest := by
    obtain ⟨d, tail, rfl⟩ := List.exists_cons_of_ne_nil hne
    rfl
  have hread := reads_next c rest
  generalize next c rest = piece at hread hleft ⊢
  apply Reads.next_eq
  cases hread with
  | blank _ hblank =>
    obtain ⟨htaken, hstop⟩ := @Scan.takeWhile_append_of_left rest more _ hleft
    have hlonger := Reads.blank (rest ++ more) hblank
    rwa [htaken, hstop] at hlonger
  | lineComment line =>
    obtain ⟨htaken, hstop⟩ := @Scan.takeWhile_append_of_left line more _ hleft
    have hlonger := Reads.lineComment (line ++ more)
    rwa [htaken, hstop] at hlonger
  | @blockComment inner _ _ hbody =>
    have hlonger := @Scan.commentBody_append_of_left inner more (by rwa [hbody])
    rw [hbody] at hlonger
    exact .blockComment hlonger
  | @openComment inner _ _ hbody =>
    have hlonger := @Scan.commentBody_append_of_left inner more (by rwa [hbody])
    rw [hbody] at hlonger
    exact .openComment hlonger
  | number hbegins =>
    have hlonger : Scan.number (c :: rest ++ more) = _ :=
      Scan.number_append_of_semicolon (by simp [List.getLast?_cons, hlast])
    exact hlonger ▸ .number (hnumber.trans hbegins)
  | mark hbegins hmark => exact .mark (hnumber ▸ hbegins) hmark
  | string hquote hbody =>
    have hlonger := @Scan.quoted_append_of_left rest more c (by rwa [hbody])
    rw [hbody] at hlonger
    exact .string hquote hlonger
  | openString hquote hbody =>
    have hlonger := @Scan.quoted_append_of_left rest more c (by rwa [hbody])
    rw [hbody] at hlonger
    exact .openString hquote hlonger
  | @regex _ body after hline hblock hbody =>
    have hlonger := Scan.regexBody_append_eq hbody (after ++ more)
    rw [← List.append_assoc, Scan.regexBody_append hbody] at hlonger
    obtain ⟨htaken, hstop⟩ := @Scan.takeWhile_append_of_left after more _ hleft
    have hlonger := Reads.regex (hhead ▸ hline) (hhead ▸ hblock) hlonger
    rwa [htaken, hstop] at hlonger
  | slash hline hblock hbody =>
    have hlonger := Scan.regexBody_append_eq_none hbody (by simp [hlast]) hmore
    exact .slash (hhead ▸ hline) (hhead ▸ hblock) hlonger
  | word _ hstart =>
    obtain ⟨htaken, hstop⟩ := @Scan.takeWhile_append_of_left rest more _ hleft
    have hlonger := Reads.word (rest ++ more) hstart
    rwa [htaken, hstop] at hlonger
  | stray hblank hslash hbegins hmark hquote hstart =>
    exact .stray hblank hslash (hnumber ▸ hbegins) hmark hquote hstart

end Piece

section Pieces

variable {start : Nat} {text more : List Char}

-- A piece that is a semicolon, with nothing behind it.
def ClosedFrom (start : Nat) (text : List Char) : Prop :=
  ∃ piece ∈ piecesFrom start text, piece.kind = .token .semicolon ∧
    piece.start + byteSize piece.chars = start + byteSize text

theorem Piece.next_semicolon (rest : List Char) :
    next ';' rest = (.token .semicolon, [';'], rest) := by
  have hends : TokenKind.semicolon.Ends rest := by simp [TokenKind.Ends, TokenKind.takes]
  have hword : IsWord .semicolon [';'] := isWord_mark rfl
  obtain ⟨c, more, hchars, hnext⟩ := hword rest hends
  obtain ⟨rfl, rfl⟩ := List.cons.inj hchars
  exact hnext

theorem Piece.eq_semicolon {c : Char} {rest : List Char}
    (h : (Piece.next c rest).1 = .token .semicolon) : c = ';' := by
  have hmark := markKind_of_isMark rfl h
  unfold markKind at hmark
  split at hmark <;> simp at hmark
  rfl

theorem ClosedFrom.getLast? (h : ClosedFrom start text) : text.getLast? = some ';' := by
  obtain ⟨piece, hpiece, hkind, hstop⟩ := h
  obtain ⟨c, rest, hnext, hchars⟩ := exists_next_of_mem_piecesFrom hpiece
  obtain ⟨before, after, htext, hstart⟩ := exists_split_of_mem_piecesFrom hpiece
  obtain rfl := Piece.eq_semicolon (hnext ▸ hkind)
  rw [Piece.next_semicolon] at hchars
  have hsize := congrArg byteSize htext
  simp only [byteSize_append] at hsize
  have hafter : after = [] := eq_nil_of_byteSize (by omega)
  rw [htext, hafter, hchars]
  simp

theorem piecesFrom_append (h : ClosedFrom start text)
    (hmore : ∀ inClass, Scan.regexBody inClass more = none) :
    piecesFrom start (text ++ more) =
      piecesFrom start text ++ piecesFrom (start + byteSize text) more := by
  obtain ⟨piece, hpiece, hkind, hstop⟩ := h
  fun_induction piecesFrom start text with
  | case1 => contradiction
  | case2 start c rest ih =>
    have hsize := congrArg byteSize (Piece.next_append c rest)
    rw [byteSize_append] at hsize
    rw [List.cons_append, piecesFrom]
    rcases List.mem_cons.mp hpiece with rfl | hlater
    · obtain rfl := Piece.eq_semicolon hkind
      rw [Piece.next_semicolon] at hstop ⊢
      rw [byteSize_cons] at hstop
      obtain rfl : rest = [] := eq_nil_of_byteSize (by simpa using hstop)
      rw [Piece.next_semicolon]
      simp [piecesFrom]
    · have hclosed : ClosedFrom (start + byteSize (Piece.next c rest).2.1)
        (Piece.next c rest).2.2 := ⟨piece, hlater, hkind, by omega⟩
      have hleft : (Piece.next c rest).2.2 ≠ [] := by
        intro hnil
        have hlast := hclosed.getLast?
        rw [hnil] at hlast
        contradiction
      have hne : rest ≠ [] := by
        rintro rfl
        have hshorter := Piece.next_rest_length c []
        have hpos := List.length_pos_iff.mpr hleft
        rw [List.length_singleton] at hshorter
        omega
      have hlast : rest.getLast? = some ';' := by
        have hjoin := congrArg List.getLast? (Piece.next_append c rest)
        rw [List.getLast?_append, hclosed.getLast?, List.getLast?_cons_of_ne_nil hne] at hjoin
        exact hjoin.symm
      rw [Piece.next_append_of_left hlast hleft hmore, ih hlater (by omega)]
      rw [List.cons_append, Nat.add_assoc, hsize]

end Pieces

section Tokens

-- The tokens of a text that begins at an offset.
def tokensFrom (start : Nat) (text : List Char) : List Token :=
  (piecesFrom start text).filterMap Piece.token?

variable {start : Nat} {text more : List Char}

theorem tokensFrom_nil (start : Nat) : tokensFrom start [] = [] := by
  rw [tokensFrom, piecesFrom]
  rfl

theorem tokensFrom_word {kind : TokenKind} {chars : List Char} (hword : IsWord kind chars)
    (hends : kind.Ends more) (start : Nat) :
    tokensFrom start (chars ++ more) =
      ⟨kind, start, chars⟩ :: tokensFrom (start + byteSize chars) more := by
  obtain ⟨c, rest, rfl, hnext⟩ := hword more hends
  rw [tokensFrom, List.cons_append, piecesFrom, hnext]
  rfl

-- A blank in front only moves what follows.
theorem tokensFrom_blank {c : Char} (hc : isBlank c) (start : Nat) (rest : List Char) :
    tokensFrom start (c :: rest) = tokensFrom (start + c.utf8Size) rest := by
  rw [tokensFrom, piecesFrom, Piece.next_of_isBlank hc]
  cases rest with
  | nil => rfl
  | cons d rest =>
    by_cases hd : isBlank d
    · rw [tokensFrom, piecesFrom, Piece.next_of_isBlank hd, List.takeWhile_cons_of_pos hd,
        List.dropWhile_cons_of_pos hd, byteSize_cons, Nat.add_assoc]
      rfl
    · rw [List.takeWhile_cons_of_neg hd, List.dropWhile_cons_of_neg hd, tokensFrom]
      rfl

-- Where a text begins does not change what its tokens are.
theorem tokensFrom_words (start start' : Nat) (text : List Char) :
    (tokensFrom start text).map Token.word = (tokensFrom start' text).map Token.word := by
  fun_induction piecesFrom start text generalizing start' with
  | case1 => rw [tokensFrom_nil, tokensFrom_nil]
  | case2 start c rest ih =>
    have hrest := ih (start' + byteSize (Piece.next c rest).2.1)
    rw [tokensFrom, tokensFrom, piecesFrom, piecesFrom]
    cases hkind : (Piece.next c rest).1 with
    | token kind => exact congrArg (List.cons _) hrest
    | _ => exact hrest

theorem start_le_of_mem_tokensFrom {token : Token} (h : token ∈ tokensFrom start text) :
    start ≤ token.start := by
  obtain ⟨piece, hpiece, htoken⟩ := List.mem_filterMap.mp h
  rw [Piece.eq_of_token? htoken] at hpiece
  obtain ⟨before, _, _, hstart⟩ := exists_split_of_mem_piecesFrom hpiece
  dsimp only at hstart
  omega

-- A text that is empty, or that a semicolon ends.
def IsClosed (text : List Char) : Prop :=
  text = [] ∨ ∃ token ∈ (lex text).tokens, token.kind = .semicolon ∧ token.stop = byteSize text

-- The semicolon is the last of the tokens.
theorem IsClosed.exists_last (h : IsClosed text) :
    (lex text).tokens = [] ∨ ∃ first semicolon,
      (lex text).tokens = first ++ [semicolon] ∧ semicolon.kind = .semicolon := by
  rcases h with rfl | ⟨token, htoken, hkind, hstop⟩
  · exact .inl (tokensFrom_nil 0)
  · obtain ⟨first, behind, hsplit⟩ := List.append_of_mem htoken
    have hordered := lex_ordered text
    rw [hsplit] at hordered
    have hbehind := (List.pairwise_cons.mp (List.pairwise_append.mp hordered).2.1).1
    cases behind with
    | nil => exact .inr ⟨first, token, hsplit, hkind⟩
    | cons next behind =>
      have hnext : next ∈ (lex text).tokens := by simp [hsplit]
      obtain ⟨before, after, htext, hstart⟩ := exists_split_of_mem_lex hnext
      have hsize := congrArg byteSize htext
      simp only [byteSize_append] at hsize
      have hfilled := start_lt_stop_of_mem_lex hnext
      have hlater := hbehind next (by simp)
      rw [Token.stop] at hfilled
      omega

theorem lex_append (h : IsClosed text) (hmore : ∀ inClass, Scan.regexBody inClass more = none) :
    (lex (text ++ more)).tokens = (lex text).tokens ++ tokensFrom (byteSize text) more := by
  rcases h with rfl | ⟨token, htoken, hkind, hstop⟩
  · change _ = tokensFrom 0 [] ++ _
    rw [tokensFrom_nil]
    rfl
  · obtain ⟨piece, hpiece, heq⟩ := List.mem_filterMap.mp htoken
    rw [Piece.eq_of_token? heq] at hpiece
    have hclosed : ClosedFrom 0 text :=
      ⟨_, hpiece, congrArg PieceKind.token hkind, hstop.trans (Nat.zero_add _).symm⟩
    have hpieces := piecesFrom_append hclosed hmore
    rw [Nat.zero_add] at hpieces
    rw [lex, lex, tokensFrom, hpieces, List.filterMap_append]

end Tokens

end QueryPad
