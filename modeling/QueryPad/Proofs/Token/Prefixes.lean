import QueryPad.Proofs.Token.Neighbours
import QueryPad.Proofs.Token.Tiling

-- A text that is cut off where one of its tokens begins: what stands before the
-- token is read as it was read in the whole text.
namespace QueryPad

open Text

namespace Scan

variable {taken rest behind : List Char}

theorem head?_of_longer {holds : Char → Prop} (h : ∀ c ∈ (rest ++ behind).head?, holds c) :
    ∀ c ∈ rest.head?, holds c := by
  intro c hc
  apply h
  rw [List.head?_append, Option.mem_def.mp hc]
  rfl

theorem takeWhile_cut {p : Char → Bool}
    (h : (taken ++ (rest ++ behind)).takeWhile p = taken) :
    (taken ++ rest).takeWhile p = taken ∧ (taken ++ rest).dropWhile p = rest := by
  have hall : ∀ c ∈ taken, p c := by
    intro c hc
    rw [← h] at hc
    exact List.mem_takeWhile_imp hc
  apply takeWhile_append_stop hall
  have hjoin := List.takeWhile_append_dropWhile (p := p) (l := taken ++ (rest ++ behind))
  rw [h] at hjoin
  apply @head?_of_longer _ behind
  intro c hc
  rw [← List.append_cancel_left hjoin] at hc
  exact not_of_mem_head?_dropWhile hc

theorem digits_cut (h : digits (taken ++ (rest ++ behind)) = (taken, rest ++ behind)) :
    digits (taken ++ rest) = (taken, rest) := by
  obtain ⟨htaken, hleft⟩ := takeWhile_cut (Prod.mk.inj h).1
  rw [digits, htaken, hleft]

theorem optionalChar_cut {accepts : Char → Bool}
    (h : optionalChar accepts (taken ++ (rest ++ behind)) = (taken, rest ++ behind)) :
    optionalChar accepts (taken ++ rest) = (taken, rest) := by
  have hread := @optionalChar_append_eq rest accepts (taken ++ (rest ++ behind))
  rw [h] at hread
  apply hread
  rintro rfl c hc haccepts
  obtain ⟨more, rfl⟩ := List.head?_eq_some_iff.mp hc
  rw [List.nil_append, List.cons_append, optionalChar, if_pos haccepts] at h
  simp at h

theorem digits_eq_nil {cs after : List Char} (h : digits cs = ([], after)) :
    digits cs = ([], cs) := by
  have hjoin := digits_append cs
  rw [h] at hjoin ⊢
  rw [← hjoin]
  rfl

-- Digits that are not there are not there in a shorter text either.
theorem digits_cut_nil {after : List Char} (h : digits (rest ++ behind) = ([], after)) :
    digits rest = ([], rest) := @digits_cut [] rest behind (digits_eq_nil h)

theorem fraction_cut (h : fraction (taken ++ (rest ++ behind)) = (taken, rest ++ behind)) :
    fraction (taken ++ rest) = (taken, rest) := by
  generalize hcs : taken ++ (rest ++ behind) = cs at h
  revert h hcs
  fun_cases fraction cs with
  | case1 inner after hdigits =>
    intro hcs h
    obtain ⟨rfl, -⟩ := Prod.mk.inj h
    cases rest with
    | nil => rfl
    | cons c rest =>
      obtain ⟨rfl, rfl⟩ := List.cons.inj hcs
      rw [List.nil_append, fraction, digits_cut_nil hdigits]
  | case2 inner ds after hne hdigits =>
    intro hcs h
    obtain ⟨rfl, rfl⟩ := Prod.mk.inj h
    obtain ⟨-, rfl⟩ := List.cons.inj hcs
    exact fraction_point (digits_cut hdigits) hne
  | case3 cs hpoint =>
    intro hcs h
    obtain ⟨rfl, -⟩ := Prod.mk.inj h
    apply fraction_of_not
    apply @head?_of_longer rest behind
    rintro c hc rfl
    obtain ⟨more, hmore⟩ := List.head?_eq_some_iff.mp hc
    exact hpoint more (by rw [← hcs, ← hmore]; rfl)

theorem optionalChar_shorter (accepts : Char → Bool) (rest behind : List Char) :
    rest = [] ∨
      (optionalChar accepts (rest ++ behind)).2 = (optionalChar accepts rest).2 ++ behind := by
  cases rest with
  | nil => exact .inl rfl
  | cons c rest =>
    right
    rw [List.cons_append, optionalChar, optionalChar]
    split <;> rfl

theorem exponent_cut (h : exponent (taken ++ (rest ++ behind)) = (taken, rest ++ behind)) :
    exponent (taken ++ rest) = (taken, rest) := by
  generalize hcs : taken ++ (rest ++ behind) = cs at h
  revert h hcs
  fun_cases exponent cs with
  | case1 =>
    intro hcs _
    obtain ⟨rfl, hrest⟩ := List.append_eq_nil_iff.mp hcs
    obtain ⟨rfl, -⟩ := List.append_eq_nil_iff.mp hrest
    rfl
  | case2 e inner he sign unsigned hsign left hnone =>
    intro hcs h
    obtain ⟨rfl, -⟩ := Prod.mk.inj h
    cases rest with
    | nil => rfl
    | cons c rest =>
      obtain ⟨rfl, hinner⟩ := List.cons.inj hcs
      have hinner : rest ++ behind = inner := hinner
      subst hinner
      apply exponent_eq_nil
      rcases optionalChar_shorter (fun c => c = '+' || c = '-') rest behind with rfl | hunsigned
      · rfl
      · rw [hsign] at hunsigned
        dsimp only at hunsigned
        rw [hunsigned] at hnone
        rw [digits_cut_nil hnone]
  | case3 e inner he sign unsigned hsign ds left hne hsome =>
    intro hcs h
    obtain ⟨rfl, rfl⟩ := Prod.mk.inj h
    have hunsigned := digits_append unsigned
    have hinner := optionalChar_append (fun c => c = '+' || c = '-') inner
    rw [hsome] at hunsigned
    rw [hsign] at hinner
    dsimp only at hunsigned hinner
    subst hunsigned hinner
    have hsigned := @optionalChar_cut sign (ds ++ rest) behind (fun c => c = '+' || c = '-')
      (by simpa only [List.append_assoc] using hsign)
    rw [List.append_assoc]
    exact exponent_eq he hsigned (digits_cut hsome) hne
  | case4 e inner he =>
    intro hcs h
    obtain ⟨rfl, -⟩ := Prod.mk.inj h
    cases rest with
    | nil => rfl
    | cons c rest =>
      obtain ⟨rfl, -⟩ := List.cons.inj hcs
      rw [List.nil_append, exponent, if_neg he]

theorem number_cut (h : number (taken ++ (rest ++ behind)) = (taken, rest ++ behind)) :
    number (taken ++ rest) = (taken, rest) := by
  generalize hcs : taken ++ (rest ++ behind) = cs at h
  have hjoin₁ := optionalChar_append (· = '-') cs
  cases hsign : optionalChar (· = '-') cs with
  | mk sign cs₁ =>
  have hjoin₂ := digits_append cs₁
  cases hwhole : digits cs₁ with
  | mk whole cs₂ =>
  have hjoin₃ := fraction_append cs₂
  cases hfrac : fraction cs₂ with
  | mk frac cs₃ =>
  have hjoin₄ := exponent_append cs₃
  cases hexp : exponent cs₃ with
  | mk exp cs₄ =>
  rw [hsign] at hjoin₁
  rw [hwhole] at hjoin₂
  rw [hfrac] at hjoin₃
  rw [hexp] at hjoin₄
  simp only [number, hsign, hwhole, hfrac, hexp] at h
  obtain ⟨rfl, rfl⟩ := Prod.mk.inj h
  dsimp only at hjoin₁ hjoin₂ hjoin₃ hjoin₄
  subst hjoin₄ hjoin₃ hjoin₂ hjoin₁
  have hsigned := @optionalChar_cut sign (whole ++ (frac ++ (exp ++ rest))) behind (· = '-')
    (by simpa only [List.append_assoc] using hsign)
  have hdigits := @digits_cut whole (frac ++ (exp ++ rest)) behind
    (by simpa only [List.append_assoc] using hwhole)
  have hpoint := @fraction_cut frac (exp ++ rest) behind
    (by simpa only [List.append_assoc] using hfrac)
  have hpower := @exponent_cut exp rest behind (by simpa only [List.append_assoc] using hexp)
  simp only [List.append_assoc, number, hsigned, hdigits, hpoint, hpower]

theorem commentBody_append_eq {cs after : List Char} (h : commentBody cs = (true, taken, after))
    (rest : List Char) : commentBody (taken ++ rest) = (true, taken, rest) := by
  fun_induction commentBody cs generalizing taken after with
  | case1 => simp at h
  | case2 tail =>
    obtain ⟨rfl, -⟩ : ['*', '/'] = taken ∧ tail = after := by simpa using h
    rfl
  | case3 c tail hopen closed inner after' hinner ih =>
    obtain ⟨rfl, rfl, rfl⟩ : closed = true ∧ c :: inner = taken ∧ after' = after := by
      simpa using h
    have hjoin := commentBody_append tail
    rw [hinner] at hjoin
    rw [List.cons_append, commentBody, ih hinner]
    rintro more rfl hmore
    -- the mark would have closed the comment in the longer text as well
    cases inner with
    | nil =>
      obtain ⟨body, -, htaken⟩ := commentBody_holds tail
      rw [hinner] at htaken
      simp at htaken
    | cons d inner =>
      obtain ⟨rfl, -⟩ := List.cons.inj hmore
      exact hopen (inner ++ after') rfl hjoin.symm

end Scan

-- What the reader of tokens has nothing to say against.
def PieceKind.IsRead (kind : PieceKind) : Prop :=
  kind ≠ .openComment ∧ kind ≠ .openString ∧ kind ≠ .stray

namespace Piece

variable {c : Char} {more rest behind : List Char} {kind : TokenKind}

theorem isRead_of_report? {piece : Piece} (h : piece.report? = none) : piece.kind.IsRead := by
  refine ⟨?_, ?_, ?_⟩ <;>
  · intro hkind
    simp [report?, faultyChars?, hkind] at h

-- Only a number may stop before a character that numbers are made of.
theorem ends_of_next (h : (next c rest).1 = .token kind) (hnumber : kind ≠ .number) :
    kind.Ends (next c rest).2.2 := by
  have hread := reads_next c rest
  generalize next c rest = piece at hread h ⊢
  cases hread with
  | blank | lineComment | blockComment | openComment | openString | slash | stray => contradiction
  | number => exact absurd (PieceKind.token.inj h).symm hnumber
  | @mark _ _ mark hbegins hmark =>
    obtain rfl := PieceKind.token.inj h
    intro d hd
    cases mark with
    | dot =>
      have hpoint : c = '.' := by
        unfold markKind at hmark
        split at hmark <;> simp at hmark
        rfl
      obtain ⟨after, rfl⟩ := List.head?_eq_some_iff.mp hd
      intro hdigit
      exact hbegins (by simpa [beginsNumber, hpoint, TokenKind.takes] using hdigit)
    | openParen | closeParen | openBrace | closeBrace | openBracket | closeBracket | comma
    | colon | semicolon => simp [TokenKind.takes]
    | _ => exact absurd (of_markKind hmark).1 (by decide)
  | string =>
    obtain rfl := PieceKind.token.inj h
    simp [TokenKind.Ends, TokenKind.takes]
  | regex =>
    obtain rfl := PieceKind.token.inj h
    exact fun d hd => not_of_mem_head?_dropWhile hd
  | word =>
    obtain rfl := PieceKind.token.inj h
    rw [TokenKind.Ends, takes_wordKind]
    exact fun d hd => not_of_mem_head?_dropWhile hd

theorem beginsNumber_of_next (h : (next c rest).1 = .token .number) : beginsNumber c rest := by
  generalize hkind : TokenKind.number = kind at h
  cases begins_of_next h with
  | number hnumber => exact hnumber
  | mark hmark => exact absurd (of_markKind hmark).1 (by simp [← hkind, TokenKind.isMark])
  | word _ chars => exact absurd hkind.symm (of_wordKind chars).2
  | _ => contradiction

-- Only a sign alone is a number for what stands behind it.
theorem next_number_cut (hsign : more = [] → c = '-' → rest ≠ [])
    (h : next c (more ++ (rest ++ behind)) = (.token .number, c :: more, rest ++ behind)) :
    next c (more ++ rest) = (.token .number, c :: more, rest) := by
  have hbegins := beginsNumber_of_next (congrArg Prod.fst h)
  rw [next_of_beginsNumber hbegins] at h
  have hnumber : Scan.number (c :: more ++ (rest ++ behind)) = (c :: more, rest ++ behind) :=
    (Prod.mk.inj h).2
  have hpoint : more = [] → c ≠ '.' := by
    rintro rfl rfl
    have halone := @Scan.number_cut ['.'] [] (rest ++ behind) hnumber
    contradiction
  have hshorter : beginsNumber c (more ++ rest) := by
    cases more with
    | cons d more => exact hbegins
    | nil =>
      cases rest with
      | cons d rest => exact hbegins
      | nil =>
        simp only [beginsNumber, Bool.or_eq_true, Bool.and_eq_true, decide_eq_true_eq] at hbegins
        rcases hbegins with (hdigit | ⟨heq, -⟩) | ⟨hminus, -⟩
        · simp [beginsNumber, hdigit]
        · exact absurd heq (hpoint rfl)
        · exact absurd rfl (hsign rfl hminus)
  rw [next_of_beginsNumber hshorter]
  exact congrArg _ (Scan.number_cut hnumber)

theorem next_token_cut (hsign : more = [] → c = '-' → rest ≠ [])
    (h : next c (more ++ (rest ++ behind)) = (.token kind, c :: more, rest ++ behind)) :
    next c (more ++ rest) = (.token kind, c :: more, rest) := by
  by_cases hnumber : kind = .number
  · obtain rfl := hnumber
    exact next_number_cut hsign h
  · have hkind := congrArg Prod.fst h
    have hends := ends_of_next hkind hnumber
    have hword : (next c (more ++ (rest ++ behind))).2.1 ≠ ['-'] := by
      intro hchars
      rw [h] at hchars
      obtain ⟨rfl, -⟩ := List.cons.inj hchars
      exact hnumber (begins_sign hkind).1
    have hword := isWord_of_next hkind hword
    rw [h] at hends hword
    obtain ⟨d, tail, heq, hnext⟩ := hword rest (Scan.head?_of_longer hends)
    obtain ⟨rfl, rfl⟩ := List.cons.inj heq
    exact hnext

theorem next_skipped_cut {kind : PieceKind} (hread : kind.IsRead) (hkind : ∀ k, kind ≠ .token k)
    (h : next c (more ++ (rest ++ behind)) = (kind, c :: more, rest ++ behind)) :
    next c (more ++ rest) = (kind, c :: more, rest) := by
  have hreads := reads_next c (more ++ (rest ++ behind))
  rw [h] at hreads
  generalize hcs : more ++ (rest ++ behind) = cs at hreads
  generalize hpiece : (kind, c :: more, rest ++ behind) = piece at hreads
  apply Reads.next_eq
  cases hreads with
  | blank _ hblank =>
    obtain ⟨rfl, htaken, -⟩ : kind = .blank ∧ more = cs.takeWhile isBlank ∧ _ := by
      simpa using hpiece
    rw [← hcs] at htaken
    obtain ⟨htaken, hleft⟩ := Scan.takeWhile_cut htaken.symm
    have hshorter := Reads.blank (more ++ rest) hblank
    rwa [htaken, hleft] at hshorter
  | lineComment line =>
    obtain ⟨rfl, rfl, -⟩ : kind = .lineComment ∧
        more = '/' :: line.takeWhile (!isLineTerminator ·) ∧ _ := by simpa using hpiece
    obtain ⟨htaken, hleft⟩ := @Scan.takeWhile_cut _ rest behind (!isLineTerminator ·)
      (congrArg (List.takeWhile _) (List.cons.inj hcs).2)
    have hshorter := Reads.lineComment (line.takeWhile (!isLineTerminator ·) ++ rest)
    rwa [htaken, hleft] at hshorter
  | @blockComment _ taken after hbody =>
    obtain ⟨rfl, rfl, -⟩ : kind = .blockComment ∧ more = '*' :: taken ∧ _ := by
      simpa using hpiece
    exact .blockComment (Scan.commentBody_append_eq hbody rest)
  | openComment =>
    obtain ⟨rfl, -⟩ := Prod.mk.inj hpiece
    exact absurd rfl hread.1
  | openString =>
    obtain ⟨rfl, -⟩ := Prod.mk.inj hpiece
    exact absurd rfl hread.2.1
  | slash | stray =>
    obtain ⟨rfl, -⟩ := Prod.mk.inj hpiece
    exact absurd rfl hread.2.2
  | number | mark | string | regex | word =>
    obtain ⟨rfl, -⟩ := Prod.mk.inj hpiece
    exact absurd rfl (hkind _)

-- A piece that is no mistake ends where it ended, also if less stands behind it.
theorem next_cut {kind : PieceKind} (hread : kind.IsRead)
    (hsign : more = [] → c = '-' → rest ≠ [])
    (h : next c (more ++ (rest ++ behind)) = (kind, c :: more, rest ++ behind)) :
    next c (more ++ rest) = (kind, c :: more, rest) := by
  cases kind with
  | token kind => exact next_token_cut hsign h
  | _ => exact next_skipped_cut hread (fun _ => by simp) h

theorem kind_of_sign (h : (next '-' rest).1 ≠ .stray) :
    (next '-' rest).1 = .token .number := by
  by_cases hbegins : beginsNumber '-' rest
  · rw [next_of_beginsNumber hbegins]
  · have hplain : isBlank '-' = false ∧ Scan.isWordStart '-' = false := by decide +kernel
    simp [next, hplain, hbegins, markKind] at h

theorem lineTerminator_of_lineComment (h : (next c rest).1 = .lineComment) :
    ∀ d ∈ (next c rest).2.2.head?, isLineTerminator d := by
  have hread := reads_next c rest
  generalize next c rest = piece at hread h ⊢
  cases hread with
  | lineComment line =>
    intro d hd
    simpa using not_of_mem_head?_dropWhile hd
  | _ => contradiction

-- What is passed over between tokens ends with a blank or closes a comment.
theorem getLast?_of_next {c : Char} {rest : List Char}
    (h : (next c rest).1 = .blank ∨ (next c rest).1 = .blockComment) :
    ∀ d ∈ (next c rest).2.1.getLast?, isBlank d ∨ d = '/' := by
  have hread := reads_next c rest
  generalize next c rest = piece at hread h ⊢
  cases hread with
  | blank _ hblank =>
    intro d hd
    left
    rcases List.mem_cons.mp (List.mem_of_getLast? hd) with rfl | hmem
    · exact hblank
    · exact List.mem_takeWhile_imp hmem
  | @blockComment inner taken after hbody =>
    intro d hd
    obtain ⟨body, -, htaken⟩ := Scan.commentBody_holds inner
    rw [hbody] at htaken
    dsimp only at htaken hd
    have hjoin : '/' :: '*' :: taken = ('/' :: '*' :: body) ++ ['*'] ++ ['/'] := by
      rw [htaken]
      simp
    rw [hjoin, List.getLast?_concat] at hd
    exact .inr (Option.some.inj hd).symm
  | _ => simp at h

end Piece

section Pieces

variable {start : Nat} {text : List Char} {pieces later : List Piece}

theorem exists_piecesFrom_cons {piece : Piece} (h : piecesFrom start text = piece :: later) :
    ∃ c more rest, text = c :: (more ++ rest) ∧
      Piece.next c (more ++ rest) = (piece.kind, c :: more, rest) ∧
      piece = ⟨piece.kind, start, c :: more⟩ ∧
      piecesFrom (start + byteSize (c :: more)) rest = later := by
  cases text with
  | nil => rw [piecesFrom] at h; contradiction
  | cons c cs =>
    rw [piecesFrom] at h
    obtain ⟨rfl, rfl⟩ := List.cons.inj h
    have hjoin := Piece.next_append c cs
    obtain ⟨d, more, htaken⟩ := List.exists_cons_of_ne_nil (Piece.next_taken_ne_nil c cs)
    rw [htaken] at hjoin
    obtain ⟨rfl, hcs⟩ := List.cons.inj hjoin
    refine ⟨d, more, (Piece.next d cs).2.2, congrArg _ hcs.symm, ?_, ?_, ?_⟩
    · rw [← List.append_eq, hcs, ← htaken]
    · rw [← htaken]
    · rw [← htaken]

-- The pieces behind some pieces are those of the text that is left.
theorem piecesFrom_behind (h : piecesFrom start text = pieces ++ later) :
    ∃ behind, text = pieces.flatMap Piece.chars ++ behind ∧
      piecesFrom (start + byteSize (pieces.flatMap Piece.chars)) behind = later := by
  induction pieces generalizing start text with
  | nil => exact ⟨text, rfl, h⟩
  | cons piece pieces ih =>
    obtain ⟨c, more, rest, rfl, -, hpiece, hrest⟩ := exists_piecesFrom_cons h
    obtain ⟨behind, rfl, hbehind⟩ := ih hrest
    rw [List.flatMap_cons, hpiece]
    refine ⟨behind, by simp only [List.append_assoc, List.cons_append], ?_⟩
    rw [byteSize_append, ← Nat.add_assoc]
    exact hbehind

theorem piecesFrom_cut (h : piecesFrom start text = pieces ++ later)
    (hread : ∀ piece ∈ pieces, piece.kind.IsRead)
    (hsign : ∀ piece ∈ pieces.getLast?, piece.chars ≠ ['-']) :
    piecesFrom start (pieces.flatMap Piece.chars) = pieces := by
  induction pieces generalizing start text with
  | nil => rw [List.flatMap_nil, piecesFrom]
  | cons piece pieces ih =>
    obtain ⟨hhere, hmore⟩ := List.forall_mem_cons.mp hread
    obtain ⟨c, more, rest, rfl, hnext, hpiece, hrest⟩ := exists_piecesFrom_cons h
    obtain ⟨behind, rfl, -⟩ := piecesFrom_behind hrest
    have hlater : ∀ piece ∈ pieces.getLast?, piece.chars ≠ ['-'] := by
      intro last hlast
      apply hsign last
      rw [List.getLast?_cons, Option.mem_def.mp hlast]
      rfl
    have hchars : piece.chars = c :: more := by rw [hpiece]
    have halone : more = [] → c = '-' → pieces.flatMap Piece.chars ≠ [] := by
      rintro rfl rfl hnone
      cases pieces with
      | nil => exact hsign piece rfl hchars
      | cons next pieces =>
        obtain ⟨d, tail, -, -, -, hnext, -⟩ := exists_piecesFrom_cons hrest
        rw [List.flatMap_cons, hnext] at hnone
        contradiction
    rw [List.flatMap_cons, hchars, List.cons_append, piecesFrom,
      Piece.next_cut hhere halone hnext, ih hrest hmore hlater, ← hpiece]

end Pieces

-- A text of which all is read, and which goes on outside of comments.
structure IsOver (text : List Char) : Prop where
  reports : (lex text).reports = []
  commented : ∀ piece ∈ (piecesFrom 0 text).getLast?, piece.kind ≠ .lineComment

section Tokens

variable {text : List Char} {token : Token} {first later : List Token}

theorem isRead_of_reports (h : (lex text).reports = []) :
    ∀ piece ∈ piecesFrom 0 text, piece.kind.IsRead := by
  intro piece hpiece
  exact Piece.isRead_of_report? (List.filterMap_eq_nil_iff.mp h piece hpiece)

-- A text that is over ends with what is passed over, or with its last token.
theorem IsOver.last_piece {piece : Piece} (h : IsOver text)
    (hlast : piece ∈ (piecesFrom 0 text).getLast?) :
    (piece.kind = .blank ∨ piece.kind = .blockComment) ∨
      ∃ token, piece.token? = some token ∧ (lex text).tokens.getLast? = some token := by
  obtain ⟨pieces, hpieces⟩ := List.getLast?_eq_some_iff.mp hlast
  have hread := isRead_of_reports h.reports piece (List.mem_of_getLast? hlast)
  cases hkind : piece.kind with
  | blank => exact .inl (.inl rfl)
  | blockComment => exact .inl (.inr rfl)
  | lineComment => exact absurd hkind (h.commented piece hlast)
  | openComment => exact absurd hkind hread.1
  | openString => exact absurd hkind hread.2.1
  | stray => exact absurd hkind hread.2.2
  | token kind =>
    have htoken : piece.token? = some ⟨kind, piece.start, piece.chars⟩ := by
      rw [Piece.token?, hkind]
    refine .inr ⟨_, htoken, ?_⟩
    rw [lex, hpieces, List.filterMap_append, List.filterMap_cons_some htoken,
      List.filterMap_nil, List.getLast?_concat]

-- Before a token that is no point stands neither a sign alone nor a comment
-- that goes on.
theorem of_piece_before {start : Nat} {piece next : Piece} {pieces rest : List Piece}
    (h : piecesFrom start text = pieces ++ piece :: next :: rest) (hread : piece.kind.IsRead)
    (htoken : next.token? = some token) (hdot : token.kind ≠ .dot) :
    piece.chars ≠ ['-'] ∧ piece.kind ≠ .lineComment := by
  obtain ⟨behind, -, hbehind⟩ := piecesFrom_behind h
  obtain ⟨c, more, left, -, hnext, hpiece, hleft⟩ := exists_piecesFrom_cons hbehind
  obtain ⟨d, tail, after, rfl, hnext', hpiece', -⟩ := exists_piecesFrom_cons hleft
  have hkind := congrArg Piece.kind (Piece.eq_of_token? htoken)
  refine ⟨fun hchars => ?_, fun hline => ?_⟩
  · rw [hpiece] at hchars
    obtain ⟨rfl, rfl⟩ := List.cons.inj hchars
    have hnumber : (Piece.next '-' (d :: (tail ++ after))).1 = .token .number := by
      apply Piece.kind_of_sign
      rw [← List.nil_append (d :: (tail ++ after)), hnext]
      exact hread.2.2
    have hsign : (Piece.next '-' (d :: (tail ++ after))).2.1 = ['-'] := congrArg (·.2.1) hnext
    obtain ⟨-, behind', hleft', hpoint⟩ := Piece.next_sign hnumber hsign
    have heq : d :: (tail ++ after) = '.' :: behind' :=
      (congrArg (·.2.2) hnext).symm.trans hleft'
    obtain ⟨rfl, rfl⟩ := List.cons.inj heq
    rw [hnext', hkind] at hpoint
    exact hdot (PieceKind.token.inj hpoint)
  · have hends := Piece.lineTerminator_of_lineComment
      ((congrArg Prod.fst hnext).trans hline)
    rw [hnext] at hends
    have hblank := isBlank_of_isLineTerminator (hends d rfl)
    rw [Piece.next_of_isBlank hblank] at hnext'
    rw [← (Prod.mk.inj hnext').1] at hkind
    contradiction

-- What stands before a token is read without what follows.
theorem lex_cut (hread : (lex text).reports = [])
    (htokens : (lex text).tokens = first ++ token :: later) (hdot : token.kind ≠ .dot) :
    ∃ front behind, text = front ++ (token.chars ++ behind) ∧ token.start = byteSize front ∧
      (lex front).tokens = first ∧ IsOver front := by
  obtain ⟨pieces, rest, hpieces, rfl, hrest⟩ := List.filterMap_eq_append_iff.mp htokens
  obtain ⟨skipped, piece, rest', rfl, hskipped, hpiece, rfl⟩ := List.filterMap_eq_cons_iff.mp hrest
  rw [← List.append_assoc] at hpieces
  have hclean := isRead_of_reports hread
  rw [hpieces] at hclean
  have hbefore := (List.forall_mem_append.mp hclean).1
  have hlast : ∀ last ∈ (pieces ++ skipped).getLast?,
      last.chars ≠ ['-'] ∧ last.kind ≠ .lineComment := by
    intro last hlast
    obtain ⟨init, hinit⟩ := List.getLast?_eq_some_iff.mp hlast
    rw [hinit, List.append_assoc] at hpieces
    exact of_piece_before hpieces (hbefore last (List.mem_of_getLast? hlast)) hpiece hdot
  have hcut := piecesFrom_cut hpieces hbefore fun last h => (hlast last h).1
  obtain ⟨left, rfl, hleft⟩ := piecesFrom_behind hpieces
  obtain ⟨c, more, behind, rfl, -, hself, -⟩ := exists_piecesFrom_cons hleft
  rw [Piece.eq_of_token? hpiece] at hself
  obtain ⟨-, hstart, htaken⟩ := Piece.mk.inj hself
  refine ⟨(pieces ++ skipped).flatMap Piece.chars, behind, ?_, ?_, ?_, ?_, ?_⟩
  · rw [htaken, List.cons_append]
  · rw [hstart, Nat.zero_add]
  · rw [lex, hcut]
    dsimp only
    rw [List.filterMap_append, List.filterMap_eq_nil_iff.mpr hskipped, List.append_nil]
  · rw [lex, hcut]
    apply List.filterMap_eq_nil_iff.mpr
    intro other hother
    apply List.filterMap_eq_nil_iff.mp hread other
    rw [hpieces]
    exact List.mem_append_left _ hother
  · rw [hcut]
    exact fun last h => (hlast last h).2

theorem isOver_of_token {front behind : List Char} (hread : (lex (front ++ behind)).reports = [])
    (htoken : token ∈ (lex (front ++ behind)).tokens) (hstart : token.start = byteSize front)
    (hdot : token.kind ≠ .dot) : IsOver front := by
  obtain ⟨first, later, htokens⟩ := List.append_of_mem htoken
  obtain ⟨front', behind', htext, hstart', -, hover⟩ := lex_cut hread htokens hdot
  have hsize : byteSize front = byteSize front' := hstart.symm.trans hstart'
  obtain ⟨rest, rfl, -⟩ := LineIndex.exists_append_of_byteSize_le htext.symm (by omega)
  rw [byteSize_append] at hsize
  obtain rfl : rest = [] := eq_nil_of_byteSize (by omega)
  rwa [List.append_nil]

end Tokens

end QueryPad
