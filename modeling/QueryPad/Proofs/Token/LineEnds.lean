import Mathlib.Data.List.Forall2
import QueryPad.Proofs.Text.LineEnds
import QueryPad.Proofs.Token.Neighbours

-- A text with a CR before each LF is read as the same tokens, as long as no
-- string runs over the end of a line.
namespace QueryPad

open Text

namespace Scan

variable {cs : List Char}

-- A part of a text and what is behind it, both with the other line ends.
def crlfParts (parts : List Char × List Char) : List Char × List Char :=
  (crlf parts.1, crlf parts.2)

theorem digits_crlf (cs : List Char) : digits (crlf cs) = crlfParts (digits cs) := by
  rw [digits, takeWhile_crlf rfl, dropWhile_crlf rfl]
  rfl

theorem optionalChar_crlf {accepts : Char → Bool} (hcr : accepts '\r' = false)
    (hlf : accepts '\n' = false) (cs : List Char) :
    optionalChar accepts (crlf cs) = crlfParts (optionalChar accepts cs) := by
  cases cs with
  | nil => rfl
  | cons c cs =>
    by_cases hc : c = '\n'
    · subst hc
      simp [optionalChar, hcr, hlf, crlfParts]
    · rw [crlf_cons hc, optionalChar, optionalChar]
      split <;> simp [crlfParts, crlf_cons hc]

theorem crlf_digits (cs : List Char) : crlf (digits cs).1 = (digits cs).1 :=
  crlf_of_notMem fun hlf => absurd (isDigit_digits cs _ hlf) (by decide)

theorem fraction_crlf (cs : List Char) : fraction (crlf cs) = crlfParts (fraction cs) := by
  have hlf : '.' ≠ '\n' := by decide
  fun_cases fraction cs with
  | case1 rest after hnone =>
    have hread := digits_crlf rest
    rw [hnone] at hread
    rw [crlf_cons hlf, fraction_point_nil hread, crlfParts, crlf_cons hlf, crlf_nil]
  | case2 rest ds after hne hsome =>
    have hread := digits_crlf rest
    have hplain := crlf_digits rest
    rw [hsome] at hread hplain
    dsimp only [crlfParts] at hread hplain
    rw [hplain] at hread
    rw [crlf_cons hlf, fraction_point hread hne, crlfParts, crlf_cons hlf, hplain]
  | case3 cs hpoint =>
    refine fraction_of_not (forall_head?_crlf (by decide) fun c hc => ?_)
    obtain ⟨tail, rfl⟩ := List.head?_eq_some_iff.mp hc
    rintro rfl
    exact hpoint tail rfl

theorem exponent_crlf (cs : List Char) : exponent (crlf cs) = crlfParts (exponent cs) := by
  fun_cases exponent cs with
  | case1 => rfl
  | case2 e rest he sign unsigned hsign after hnone =>
    have hlf : e ≠ '\n' := by rintro rfl; contradiction
    have hread := digits_crlf unsigned
    have hsigned := @optionalChar_crlf (fun c => c = '+' || c = '-') rfl rfl rest
    rw [hnone] at hread
    rw [hsign] at hsigned
    have hdigits : (digits (crlfParts (sign, unsigned)).2).1 = [] := congrArg Prod.fst hread
    rw [← hsigned] at hdigits
    rw [crlf_cons hlf, exponent_eq_nil hdigits, crlfParts, crlf_cons hlf, crlf_nil]
  | case3 e rest he sign unsigned hsign ds after hne hsome =>
    have hlf : e ≠ '\n' := by rintro rfl; contradiction
    have hread := digits_crlf unsigned
    have hsigned := @optionalChar_crlf (fun c => c = '+' || c = '-') rfl rfl rest
    have hplain := crlf_digits unsigned
    rw [hsome] at hread hplain
    rw [hsign] at hsigned
    dsimp only [crlfParts] at hread hplain hsigned
    rw [hplain] at hread
    rw [crlf_cons hlf, exponent_eq he hsigned hread hne]
    simp only [crlfParts, List.cons_append, crlf_cons hlf, crlf_append, hplain]
  | case4 e rest he =>
    refine exponent_of_not (forall_head?_crlf (by decide) fun c hc => ?_)
    obtain rfl := Option.some.inj hc
    simpa using he

theorem number_crlf (cs : List Char) : number (crlf cs) = crlfParts (number cs) := by
  have hsign := @optionalChar_crlf (· = '-') rfl rfl cs
  simp only [number, hsign, digits_crlf, fraction_crlf, exponent_crlf, crlfParts, crlf_append]

section Quoted

variable {quote : Char} (hcr : quote ≠ '\r') (hlf : quote ≠ '\n')

-- No unescaped line end is in a string.
theorem quoted_of_isLineTerminator (h : ∀ c ∈ cs.head?, c ≠ quote ∧ isLineTerminator c) :
    quoted quote cs = (false, [], cs) := by
  cases cs with
  | nil => rfl
  | cons c rest =>
    obtain ⟨hquote, hline⟩ := h c rfl
    unfold quoted
    rw [if_neg hquote, if_pos hline]

include hlf

theorem head?_quoted (cs : List Char) : ∀ c ∈ (quoted quote cs).2.1.head?, c ≠ '\n' := by
  have hline : isLineTerminator '\n' := by decide
  fun_cases quoted quote cs <;> grind

-- Behind an escaped CR an LF ends the string.
theorem quoted_not_crlf (cs : List Char) : ¬ ['\r', '\n'] <:+: (quoted quote cs).2.1 := by
  fun_induction quoted quote cs with
  | case1 | case3 => simp
  | case2 | case4 => simp [List.infix_cons_iff]
  | case5 escaped rest closed taken after hbody hquote hline ih =>
    have hhead := head?_quoted hlf rest
    rw [hbody] at ih hhead
    simp only [List.infix_cons_iff, List.cons_prefix_cons, not_or]
    refine ⟨fun h => absurd h.1 (by decide), ?_, ih⟩
    rintro ⟨rfl, hprefix⟩
    obtain ⟨tail, rfl⟩ := hprefix
    exact hhead '\n' rfl rfl
  | case6 c rest hquote hline hescape closed taken after hbody ih =>
    rw [hbody] at ih
    simp only [List.infix_cons_iff, List.cons_prefix_cons, not_or]
    refine ⟨?_, ih⟩
    rintro ⟨rfl, -⟩
    exact hline (by decide)

include hcr

-- An escape covers one character, so it covers no line end of two.
theorem quoted_crlf (h : '\n' ∉ (quoted quote cs).2.1) :
    quoted quote (crlf cs) = ((quoted quote cs).1, crlfParts (quoted quote cs).2) := by
  fun_induction quoted quote cs with
  | case1 => rfl
  | case2 rest =>
    rw [crlf_cons hlf]
    unfold quoted
    simp [crlfParts, crlf_cons hlf]
  | case3 c rest hquote hline =>
    refine quoted_of_isLineTerminator (forall_head?_crlf ⟨Ne.symm hcr, rfl⟩ fun d hd => ?_)
    obtain rfl := Option.some.inj hd
    exact ⟨hquote, hline⟩
  | case4 hquote hline =>
    unfold quoted
    simp only [crlf_of_notMem h, if_neg hquote, if_neg hline, if_true]
    rfl
  | case5 escaped rest closed taken after hbody hquote hline ih =>
    rw [hbody] at ih
    obtain ⟨hescaped, htaken⟩ : escaped ≠ '\n' ∧ '\n' ∉ taken := by simpa [eq_comm] using h
    rw [crlf_cons (by decide), crlf_cons hescaped]
    unfold quoted
    simp only [if_neg hquote, if_neg hline, if_true, ih htaken, crlfParts,
      crlf_cons (show '\\' ≠ '\n' by decide), crlf_cons hescaped]
  | case6 c rest hquote hline hescape closed taken after hbody ih =>
    rw [hbody] at ih
    obtain ⟨hc, htaken⟩ : c ≠ '\n' ∧ '\n' ∉ taken := by simpa [eq_comm] using h
    rw [crlf_cons hc]
    unfold quoted
    simp only [if_neg hquote, if_neg hline, if_neg hescape, ih htaken, crlfParts, crlf_cons hc]

end Quoted

theorem regexBody_of_isLineTerminator (inClass : Bool)
    (h : ∀ c ∈ cs.head?, isLineTerminator c) : regexBody inClass cs = none := by
  cases cs with
  | nil => rfl
  | cons c rest =>
    rw [regexBody.eq_def]
    exact if_pos (h c rfl)

theorem regexBody_crlf (inClass : Bool) (cs : List Char) :
    regexBody inClass (crlf cs) = (regexBody inClass cs).map crlfParts := by
  have hplain : ∀ {c}, ¬ isLineTerminator c → c ≠ '\n' := by
    rintro c hline rfl
    exact hline (by decide)
  fun_induction regexBody inClass cs with
  | case1 inClass => rfl
  | case2 inClass c rest hline =>
    refine regexBody_of_isLineTerminator inClass (forall_head?_crlf rfl fun d hd => ?_)
    obtain rfl := Option.some.inj hd
    exact hline
  | case3 => rfl
  | case4 inClass escaped rest hescaped hback =>
    have hend : ∀ c ∈ (crlf (escaped :: rest)).head?, isLineTerminator c :=
      forall_head?_crlf rfl fun d hd => Option.some.inj hd ▸ hescaped
    obtain ⟨d, tail, hlist⟩ : ∃ d tail, crlf (escaped :: rest) = d :: tail := by
      by_cases hlf : escaped = '\n'
      · exact ⟨'\r', '\n' :: crlf rest, by rw [hlf, crlf_lf]⟩
      · exact ⟨escaped, crlf rest, crlf_cons hlf⟩
    rw [hlist] at hend
    rw [crlf_cons (by decide), hlist, regexBody.eq_def]
    simp only [if_neg hback, if_true, if_pos (hend d rfl), Option.map_none]
  | case5 inClass escaped rest hescaped hback ih =>
    have hslash : '\\' ≠ '\n' := by decide
    rw [crlf_cons hslash, crlf_cons (hplain hescaped), regexBody.eq_def]
    simp only [if_neg hback, if_neg hescaped, if_true, ih, Option.map_map]
    congr 1
    funext parts
    simp [crlfParts, crlf_cons hslash, crlf_cons (hplain hescaped)]
  | case6 inClass c rest hline hback hslash =>
    rw [crlf_cons (hplain hline), regexBody.eq_def]
    simp only [if_neg hline, if_neg hback, if_pos hslash, Option.map_some, crlfParts,
      crlf_cons (hplain hline), crlf_nil]
  | case7 inClass c rest hline hback hslash ih =>
    rw [crlf_cons (hplain hline), regexBody.eq_def]
    simp only [if_neg hline, if_neg hback, if_neg hslash, ih, Option.map_map]
    congr 1
    funext parts
    simp [crlfParts, crlf_cons (hplain hline)]

theorem commentBody_cons {c : Char} {rest : List Char} (h : c = '*' → rest.head? ≠ some '/') :
    commentBody (c :: rest) =
      ((commentBody rest).1, c :: (commentBody rest).2.1, (commentBody rest).2.2) := by
  rw [commentBody]
  rintro tail rfl rfl
  exact h rfl rfl

theorem commentBody_crlf (cs : List Char) :
    commentBody (crlf cs) = ((commentBody cs).1, crlfParts (commentBody cs).2) := by
  fun_induction commentBody cs with
  | case1 => rfl
  | case2 rest => rw [crlf_cons (by decide), crlf_cons (by decide), commentBody]; rfl
  | case3 c rest hopen closed taken after hbody ih =>
    rw [hbody] at ih
    by_cases hlf : c = '\n'
    · subst hlf
      rw [crlf_lf, commentBody_cons (absurd · (by decide)), commentBody_cons (absurd · (by decide)), ih]
      rfl
    · have hslash : c = '*' → (crlf rest).head? ≠ some '/' := by
        rintro rfl hhead
        obtain ⟨tail, rfl⟩ := List.head?_eq_some_iff.mp
          ((head?_crlf_eq_iff (by decide) (by decide)).mp hhead)
        exact hopen tail rfl rfl
      rw [crlf_cons hlf, commentBody_cons hslash, ih]
      simp [crlfParts, crlf_cons hlf]

end Scan

namespace Piece

variable {c : Char} {rest : List Char}

theorem beginsNumber_crlf (c : Char) (rest : List Char) :
    beginsNumber c (crlf rest) = beginsNumber c rest := by
  rcases rest with _ | ⟨d, rest⟩
  · rfl
  by_cases hd : d = '\n'
  · subst hd
    rfl
  · rw [crlf_cons hd]
    rfl

-- The kind of a piece, its characters and what is behind it, with the other line ends.
def crlfNext (next : PieceKind × List Char × List Char) : PieceKind × List Char × List Char :=
  (next.1, Scan.crlfParts next.2)

theorem next_crlf (hc : c ≠ '\n') (hstring : (next c rest).1 = .token .string ∨
    (next c rest).1 = .openString → '\n' ∉ (next c rest).2.1) :
    next c (crlf rest) = crlfNext (next c rest) := by
  have hhead {d : Char} (hcr : d ≠ '\r') (hlf : d ≠ '\n') (h : rest.head? ≠ some d) :
      (crlf rest).head? ≠ some d := fun heq => h ((head?_crlf_eq_iff hcr hlf).mp heq)
  have hword : Scan.isWordPart '\r' = Scan.isWordPart '\n' := rfl
  have halone {d : Char} (hd : d ≠ '\n') : crlf [d] = [d] := by rw [crlf_cons hd, crlf_nil]
  have hquoted {quote : Char} (h : quote = '\'' ∨ quote = '"') : quote ≠ '\r' := by
    rcases h with rfl | rfl <;> decide
  have hslash : '/' ≠ '\n' := by decide
  have hstar : '*' ≠ '\n' := by decide
  have hread := reads_next c rest
  generalize next c rest = piece at hread hstring ⊢
  apply Reads.next_eq
  cases hread with
  | blank _ hblank =>
    have htwin := Reads.blank (crlf rest) hblank
    rwa [takeWhile_crlf rfl, dropWhile_crlf rfl, ← crlf_cons hc] at htwin
  | lineComment line =>
    have htwin := Reads.lineComment (crlf line)
    rwa [takeWhile_crlf rfl, dropWhile_crlf rfl, ← crlf_cons hslash, ← crlf_cons hslash] at htwin
  | @blockComment inner _ _ hbody =>
    have htwin := Scan.commentBody_crlf inner
    rw [hbody] at htwin
    have htwin := Reads.blockComment htwin
    rwa [← crlf_cons hstar, ← crlf_cons hstar, ← crlf_cons hslash] at htwin
  | @openComment inner _ _ hbody =>
    have htwin := Scan.commentBody_crlf inner
    rw [hbody] at htwin
    have htwin := Reads.openComment htwin
    rwa [← crlf_cons hstar, ← crlf_cons hstar, ← crlf_cons hslash] at htwin
  | number hbegins =>
    have htwin := Reads.number ((beginsNumber_crlf c rest).trans hbegins)
    rwa [← crlf_cons hc, Scan.number_crlf] at htwin
  | mark hbegins hmark =>
    rw [crlfNext, Scan.crlfParts, halone hc]
    exact .mark (beginsNumber_crlf c rest ▸ hbegins) hmark
  | string hquote hbody =>
    have hinside : '\n' ∉ (Scan.quoted c rest).2.1 := by
      rw [hbody]
      exact fun hlf => hstring (.inl rfl) (List.mem_cons_of_mem c hlf)
    have htwin := Scan.quoted_crlf (hquoted hquote) hc hinside
    rw [hbody] at htwin
    have htwin := Reads.string hquote htwin
    rwa [← crlf_cons hc] at htwin
  | openString hquote hbody =>
    have hinside : '\n' ∉ (Scan.quoted c rest).2.1 := by
      rw [hbody]
      exact fun hlf => hstring (.inr rfl) (List.mem_cons_of_mem c hlf)
    have htwin := Scan.quoted_crlf (hquoted hquote) hc hinside
    rw [hbody] at htwin
    have htwin := Reads.openString hquote htwin
    rwa [← crlf_cons hc] at htwin
  | regex hline hblock hbody =>
    have htwin := Scan.regexBody_crlf false rest
    rw [hbody, Option.map_some] at htwin
    have htwin := Reads.regex (hhead (by decide) hslash hline) (hhead (by decide) hstar hblock) htwin
    rwa [takeWhile_crlf hword, dropWhile_crlf hword, List.cons_append, ← crlf_append,
      ← crlf_cons hslash] at htwin
  | slash hline hblock hbody =>
    have htwin := Scan.regexBody_crlf false rest
    rw [hbody, Option.map_none] at htwin
    rw [crlfNext, Scan.crlfParts, halone hslash]
    exact .slash (hhead (by decide) hslash hline) (hhead (by decide) hstar hblock) htwin
  | word _ hstart =>
    have hplain : crlf (rest.takeWhile Scan.isWordPart) = rest.takeWhile Scan.isWordPart :=
      crlf_of_notMem fun hlf => absurd (List.mem_takeWhile_imp hlf) (by decide)
    have htwin := Reads.word (crlf rest) hstart
    rw [takeWhile_crlf hword, dropWhile_crlf hword, hplain] at htwin
    rwa [crlfNext, Scan.crlfParts, crlf_cons hc, hplain]
  | stray hblank hc' hbegins hmark hquote hstart =>
    rw [crlfNext, Scan.crlfParts, halone hc]
    exact .stray hblank hc' (beginsNumber_crlf c rest ▸ hbegins) hmark hquote hstart

end Piece

-- A string, closed or not, that runs over the end of a line.
def Piece.runsOn (piece : Piece) : Bool :=
  (piece.kind = .token .string || piece.kind = .openString) && piece.chars.contains '\n'

-- A stretch of a text and the same stretch with the other line ends, and where
-- the two begin.
structure IsTwin (text : List Char) (start start' : Nat) (chars chars' : List Char) : Prop where
  chars_eq : chars' = crlf chars
  place : ∃ before after, text = before ++ (chars ++ after) ∧ start = byteSize before ∧
    start' = byteSize (crlf before)

namespace IsTwin

variable {text chars chars' : List Char} {start start' : Nat}
  (h : IsTwin text start start' chars chars')

include h

theorem range_eq (hcr : '\r' ∉ text) :
    (LineIndex.ofChars (crlf text)).range ⟨start', start' + byteSize chars'⟩ =
      (LineIndex.ofChars text).range ⟨start, start + byteSize chars⟩ := by
  obtain ⟨before, after, rfl, rfl, rfl⟩ := h.place
  have hstart := LineIndex.positionAt_crlf hcr
  rw [← List.append_assoc] at hcr
  have hstop := LineIndex.positionAt_crlf hcr
  rw [crlf_append before, byteSize_append, byteSize_append, List.append_assoc] at hstop
  rw [LineIndex.range, LineIndex.range, h.chars_eq, hstart, hstop]

theorem of_append {first rest : List Char} (hchars : chars = first ++ rest) :
    IsTwin text start start' first (crlf first) := by
  obtain ⟨before, after, htext, hstart, hstart'⟩ := h.place
  exact ⟨rfl, before, rest ++ after, by rw [htext, hchars, List.append_assoc], hstart, hstart'⟩

end IsTwin

namespace Piece

-- Only a part of a piece is reported, its opening.
theorem faultyChars?_isPrefix (c : Char) (rest : List Char) (start : Nat) :
    ∀ chars ∈ faultyChars? ⟨(next c rest).1, start, (next c rest).2.1⟩,
      chars <+: (next c rest).2.1 := by
  have hread := reads_next c rest
  generalize next c rest = piece at hread ⊢
  cases hread <;> simp [faultyChars?]

structure Twin (text : List Char) (piece piece' : Piece) : Prop where
  kind_eq : piece'.kind = piece.kind
  isTwin : IsTwin text piece.start piece'.start piece.chars piece'.chars
  faulty : ∀ chars ∈ piece.faultyChars?, chars <+: piece.chars

-- The first piece of a text, with either line ends.
theorem exists_next_crlf {c : Char} {rest : List Char} {start : Nat}
    (hstring : ¬ runsOn ⟨(next c rest).1, start, (next c rest).2.1⟩) :
    ∃ c' rest', crlf (c :: rest) = c' :: rest' ∧ next c' rest' = crlfNext (next c rest) := by
  by_cases hc : c = '\n'
  · subst hc
    refine ⟨'\r', '\n' :: crlf rest, crlf_lf, ?_⟩
    have hblank : isBlank '\n' = true := rfl
    have hcr : isBlank '\r' = true := rfl
    rw [next_of_isBlank hblank, next_of_isBlank hcr, List.takeWhile_cons_of_pos hblank,
      List.dropWhile_cons_of_pos hblank, takeWhile_crlf rfl, dropWhile_crlf rfl]
    rfl
  · refine ⟨c, crlf rest, crlf_cons hc, next_crlf hc fun hkind hlf => hstring ?_⟩
    simp [runsOn, hkind, hlf]

end Piece

-- Where no string runs on, the pieces are the same but for the line ends.
theorem piecesFrom_crlf {text rest : List Char} {start : Nat} (before : List Char)
    (hstart : start = byteSize before) (htext : text = before ++ rest)
    (hstrings : ∀ piece ∈ piecesFrom start rest, ¬ piece.runsOn) :
    List.Forall₂ (Piece.Twin text) (piecesFrom start rest)
      (piecesFrom (byteSize (crlf before)) (crlf rest)) := by
  fun_induction piecesFrom start rest generalizing before with
  | case1 start =>
    rw [crlf_nil, piecesFrom]
    exact .nil
  | case2 start c rest ih =>
    subst hstart
    obtain ⟨hstring, hmore⟩ := List.forall_mem_cons.mp hstrings
    obtain ⟨c', rest', hcrlf, hnext⟩ := Piece.exists_next_crlf hstring
    have htwin : IsTwin text (byteSize before) (byteSize (crlf before)) (Piece.next c rest).2.1
        (crlf (Piece.next c rest).2.1) :=
      ⟨rfl, before, (Piece.next c rest).2.2, by rw [htext, Piece.next_append], rfl, rfl⟩
    rw [hcrlf, piecesFrom, hnext]
    refine .cons ⟨rfl, htwin, Piece.faultyChars?_isPrefix c rest _⟩ ?_
    have htail := ih (before ++ (Piece.next c rest).2.1) (by rw [byteSize_append])
      (by rw [htext, List.append_assoc, Piece.next_append]) hmore
    rw [crlf_append, byteSize_append] at htail
    exact htail

def Token.Twin (text : List Char) (token token' : Token) : Prop :=
  token'.kind = token.kind ∧ IsTwin text token.start token'.start token.chars token'.chars

section Lexed

variable {text : List Char} (hstrings : ∀ piece ∈ piecesFrom 0 text, ¬ piece.runsOn)

theorem Token.atEnd_twin (text : List Char) :
    Token.Twin text (.atEnd (byteSize text)) (.atEnd (byteSize (crlf text))) :=
  ⟨rfl, rfl, text, [], by simp [Token.atEnd], rfl, rfl⟩

include hstrings

theorem lex_tokens_crlf :
    List.Forall₂ (Token.Twin text) (lex text).all (lex (crlf text)).all := by
  have hpieces := piecesFrom_crlf [] rfl rfl hstrings
  refine List.rel_append (List.rel_filterMap (fun piece piece' htwin => ?_) hpieces)
    (.cons (Token.atEnd_twin text) .nil)
  rw [Piece.token?, Piece.token?, htwin.kind_eq]
  split
  · exact .some ⟨rfl, htwin.isTwin⟩
  · exact .none

-- The characters that begin no token, in both texts.
theorem lex_reports_crlf :
    List.Forall₂ (fun report report' => ∃ start start' chars chars',
        report = ⟨⟨start, start + byteSize chars⟩, .unrecognized chars⟩ ∧
        report' = ⟨⟨start', start' + byteSize chars'⟩, .unrecognized chars'⟩ ∧
        IsTwin text start start' chars chars')
      (lex text).reports (lex (crlf text)).reports := by
  have hpieces := piecesFrom_crlf [] rfl rfl hstrings
  refine List.rel_filterMap (fun piece piece' htwin => ?_) hpieces
  have hfaulty : piece'.faultyChars? = piece.faultyChars?.map crlf := by
    rw [Piece.faultyChars?, Piece.faultyChars?, htwin.kind_eq, htwin.isTwin.chars_eq]
    split <;> rfl
  rw [Piece.report?, Piece.report?, hfaulty]
  cases hchars : piece.faultyChars? with
  | none => exact .none
  | some chars =>
    obtain ⟨rest, hrest⟩ := htwin.faulty chars hchars
    exact .some ⟨_, _, _, _, rfl, rfl, htwin.isTwin.of_append hrest.symm⟩

end Lexed

theorem infix_crlf {chars : List Char} (h : '\n' ∈ chars) : ['\r', '\n'] <:+: crlf chars := by
  obtain ⟨before, after, rfl⟩ := List.append_of_mem h
  exact ⟨crlf before, crlf after, by simp [crlf_append]⟩

-- No LF stands behind a CR in a string, closed or not, nor in a character that
-- begins no token.
theorem Piece.next_not_crlf {c : Char} {rest : List Char} (h : (next c rest).1 = .token .string ∨
    (next c rest).1 = .openString ∨ (next c rest).1 = .stray) :
    ¬ ['\r', '\n'] <:+: (next c rest).2.1 := by
  have hlength {d : Char} : ¬ ['\r', '\n'] <:+: [d] := fun h => absurd h.length_le (by simp)
  have hread := reads_next c rest
  generalize next c rest = piece at hread h ⊢
  have hquoted (hquote : c = '\'' ∨ c = '"') : c ≠ '\n' ∧ c ≠ '\r' := by
    rcases hquote with rfl | rfl <;> decide
  cases hread with
  | string hquote hbody | openString hquote hbody =>
    obtain ⟨hlf, hcr⟩ := hquoted hquote
    have hinside := Scan.quoted_not_crlf hlf rest
    rw [hbody] at hinside
    simp only [List.infix_cons_iff, List.cons_prefix_cons, not_or]
    exact ⟨fun h => hcr h.1.symm, hinside⟩
  | mark | slash | stray => exact hlength
  | word =>
    have hkind : wordKind (c :: rest.takeWhile Scan.isWordPart) ≠ .string := by
      fun_cases wordKind (c :: rest.takeWhile Scan.isWordPart) <;> simp
    simp [hkind] at h
  | _ => simp at h

section Apart

variable {text chars : List Char}

theorem not_crlf_of_mem_lex {token : Token} (h : token ∈ (lex text).tokens)
    (hkind : token.kind = .string) : ¬ ['\r', '\n'] <:+: token.chars := by
  obtain ⟨c, rest, hnext, hchars⟩ := exists_next_of_mem_lex h
  rw [hchars]
  exact Piece.next_not_crlf (.inl (hkind ▸ hnext))

theorem exists_unrecognized_of_mem_lex {report : SyntaxReport}
    (h : report ∈ (lex text).reports) : ∃ chars, report.fault = .unrecognized chars := by
  obtain ⟨piece, _, hreport⟩ := List.mem_filterMap.mp h
  obtain ⟨chars, _, rfl⟩ := Option.map_eq_some_iff.mp hreport
  exact ⟨chars, rfl⟩

theorem not_crlf_of_mem_reports {report : SyntaxReport} (h : report ∈ (lex text).reports)
    (hfault : report.fault = .unrecognized chars) : ¬ ['\r', '\n'] <:+: chars := by
  obtain ⟨piece, hpiece, hreport⟩ := List.mem_filterMap.mp h
  obtain ⟨c, rest, hkind, hchars⟩ := exists_next_of_mem_piecesFrom hpiece
  obtain ⟨faulty, hfaulty, rfl⟩ := Option.map_eq_some_iff.mp hreport
  obtain rfl := SyntaxFault.unrecognized.inj hfault
  unfold Piece.faultyChars? at hfaulty
  split at hfaulty
  · obtain rfl := Option.some.inj hfaulty
    simp [List.infix_cons_iff]
  · next hopen =>
    obtain rfl := Option.some.inj hfaulty
    rw [hchars]
    exact Piece.next_not_crlf (.inr (.inl (hkind ▸ hopen)))
  · next hstray =>
    obtain rfl := Option.some.inj hfaulty
    rw [hchars]
    exact Piece.next_not_crlf (.inr (.inr (hkind ▸ hstray)))
  · contradiction

end Apart

end QueryPad
