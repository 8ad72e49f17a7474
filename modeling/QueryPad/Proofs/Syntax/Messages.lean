import QueryPad.Proofs.Syntax.LineEnds
import QueryPad.Proofs.Text.Lines
import QueryPad.Proofs.Token.Numerals

-- What a pad reports of its syntax: as long as no string runs over the end of a
-- line, every token is on one line, and so is what quotes it.
namespace QueryPad

open Text

namespace Scan

theorem notMem_of_isDigit {ds : List Char} (h : ∀ c ∈ ds, c.isDigit) : '\n' ∉ ds :=
  fun hmem => absurd (h _ hmem) (by decide)

theorem notMem_of_isPower {power : List Char} (h : IsPower power) : '\n' ∉ power := by
  cases h with
  | none => exact List.not_mem_nil
  | some he hsign hds =>
    have hdigits := notMem_of_isDigit hds.2
    rcases he with rfl | rfl <;> rcases hsign with rfl | rfl | rfl <;> simpa using hdigits

theorem notMem_number (cs : List Char) : '\n' ∉ (number cs).1 := by
  have hsign : '\n' ∉ (optionalChar (· = '-') cs).1 := by
    fun_cases optionalChar (· = '-') cs <;> simp_all
  have hmagnitude (cs : List Char) : '\n' ∉ (magnitude cs).1 := by
    have hwhole := notMem_of_isDigit (isDigit_digits cs)
    rcases fraction_taken (digits cs).2 with hnone | ⟨fs, hsome, hfs⟩
    · simpa [magnitude, hnone] using hwhole
    · simp [magnitude, hsome, hwhole, notMem_of_isDigit hfs.2]
  rw [number_eq, List.mem_append, List.mem_append, not_or, not_or]
  exact ⟨hsign, hmagnitude _, notMem_of_isPower (isPower_exponent _)⟩

theorem notMem_regexBody {inClass : Bool} {cs taken after : List Char}
    (h : regexBody inClass cs = some (taken, after)) : '\n' ∉ taken := by
  have hne {c : Char} (hc : ¬ isLineTerminator c) : '\n' ≠ c := by
    rintro rfl
    exact hc rfl
  fun_induction regexBody inClass cs generalizing taken after with
  | case5 inClass escaped rest hescaped hback ih =>
    obtain ⟨⟨inner, after'⟩, hinner, heq⟩ := Option.map_eq_some_iff.mp h
    obtain ⟨rfl, rfl⟩ := Prod.mk.inj heq
    simp [hne hescaped, ih hinner]
  | case6 inClass c rest hc =>
    obtain ⟨rfl, rfl⟩ := Prod.mk.inj (Option.some.inj h)
    simpa using hne hc
  | case7 inClass c rest hc _ _ ih =>
    obtain ⟨⟨inner, after'⟩, hinner, heq⟩ := Option.map_eq_some_iff.mp h
    obtain ⟨rfl, rfl⟩ := Prod.mk.inj heq
    simp [hne hc, ih hinner]
  | _ => cases h

end Scan

namespace Piece

variable {c : Char} {rest : List Char}

-- A line break is passed over, or it stands in a string.
theorem next_of_mem (h : '\n' ∈ (next c rest).2.1) :
    (next c rest).1 ∈ [.blank, .blockComment, .openComment, .token .string, .openString] := by
  by_cases hc : c = '\n'
  · rw [hc, next_of_isBlank rfl]
    simp
  have hword (cs : List Char) : '\n' ∉ cs.takeWhile Scan.isWordPart := fun hmem =>
    absurd (List.mem_takeWhile_imp hmem) (by decide)
  have hread := reads_next c rest
  generalize next c rest = piece at hread h ⊢
  cases hread with
  | lineComment =>
    have hmem := (List.mem_cons.mp ((List.mem_cons.mp h).resolve_left (by decide))).resolve_left
      (by decide)
    exact absurd (List.mem_takeWhile_imp hmem) (by decide)
  | number => exact absurd h (Scan.notMem_number (c :: rest))
  | regex _ _ hbody =>
    have hnone := Scan.notMem_regexBody hbody
    simp [hnone, hword] at h
  | word => simp [Ne.symm hc, hword] at h
  | mark | slash | stray => exact absurd (List.mem_singleton.mp h).symm hc
  | _ => simp

end Piece

section Lexed

variable {text : List Char} (hstrings : ∀ piece ∈ piecesFrom 0 text, ¬ piece.runsOn)

include hstrings

-- Pieces that are more than blanks and comments.
theorem notMem_of_mem_piecesFrom {piece : Piece} (hpiece : piece ∈ piecesFrom 0 text)
    (hkind : piece.kind ∉ [.blank, .blockComment, .openComment]) : '\n' ∉ piece.chars := by
  intro hmem
  obtain ⟨_, c, rest, _, rfl⟩ := exists_read_of_mem_piecesFrom hpiece
  have hnext := Piece.next_of_mem hmem
  refine hstrings _ hpiece ?_
  simp_all [Piece.runsOn]

theorem notMem_of_mem_lex {token : Token} (h : token ∈ (lex text).tokens) :
    '\n' ∉ token.chars := by
  obtain ⟨piece, hpiece, htoken⟩ := List.mem_filterMap.mp h
  rw [Piece.eq_of_token? htoken] at hpiece
  exact notMem_of_mem_piecesFrom hstrings hpiece (by simp)

theorem isOneLine_of_mem_reports {report : SyntaxReport} (h : report ∈ (lex text).reports) :
    IsOneLine report.message := by
  obtain ⟨piece, hpiece, hreport⟩ := List.mem_filterMap.mp h
  obtain ⟨chars, hchars, rfl⟩ := Option.map_eq_some_iff.mp hreport
  have hnone : '\n' ∉ chars := by
    unfold Piece.faultyChars? at hchars
    split at hchars
    · obtain rfl := Option.some.inj hchars
      decide
    · next hkind =>
      obtain rfl := Option.some.inj hchars
      exact notMem_of_mem_piecesFrom hstrings hpiece (by simp [hkind])
    · next hkind =>
      obtain rfl := Option.some.inj hchars
      exact notMem_of_mem_piecesFrom hstrings hpiece (by simp [hkind])
    · contradiction
  rw [SyntaxReport.message, SyntaxFault.message_unrecognized]
  simp +decide [hnone]

end Lexed

section Parsed

theorem isOneLine_displayText {token : Token} (h : '\n' ∉ token.chars) :
    IsOneLine token.displayText := by
  rw [Token.displayText]
  split
  · decide
  · simp +decide [Token.text, h]

theorem Syntax.PairedReport.isOneLine {Partner : Token → Token → Prop}
    (hpartner : ∀ token token', Partner token token' → '\n' ∉ token.chars)
    {report report' : SyntaxReport} (h : PairedReport Partner report report') :
    IsOneLine report.message := by
  cases h with
  | mismatched htoken expected =>
    have hkinds : IsOneLine (expectedKinds expected) := notMem_expectedKinds expected
    rw [SyntaxReport.message, SyntaxFault.message_mismatched]
    simp +decide [isOneLine_displayText (hpartner _ _ htoken), hkinds]
  | missing htoken kind =>
    have hname : IsOneLine kind.displayName := notMem_displayName kind
    rw [SyntaxReport.message, SyntaxFault.message_missing]
    simp +decide [isOneLine_displayText (hpartner _ _ htoken), hname]

-- A text pairs with itself, so its reports show its own tokens.
theorem isOneLine_of_mem_parse {tokens : List Token} (h : ∀ token ∈ tokens, '\n' ∉ token.chars)
    {report : SyntaxReport} (hreport : report ∈ (parseTokens tokens).reports) :
    IsOneLine report.message := by
  have hkind (token token' : Token) (hsame : token = token' ∧ '\n' ∉ token.chars) :
      token.kind = token'.kind := congrArg Token.kind hsame.1
  have hpaired := Syntax.parseTokens_paired hkind ⟨rfl, List.not_mem_nil⟩
    (List.forall₂_same.mpr fun token htoken => ⟨rfl, h token htoken⟩)
  exact (List.forall₂_same.mp hpaired report hreport).isOneLine fun _ _ hsame => hsame.2

end Parsed

namespace Pad

theorem isOneLine_of_mem_syntax {text : String}
    (hstrings : ∀ piece ∈ piecesFrom 0 text.toList, ¬ piece.runsOn) {error : Diagnostic}
    (herror : error ∈ (ofText text).lexicalDiagnostics ++ (ofText text).grammarDiagnostics) :
    IsOneLine error.message := by
  rcases List.mem_append.mp herror with hlexical | hgrammar
  · obtain ⟨report, hreport, rfl⟩ := List.mem_map.mp hlexical
    exact isOneLine_of_mem_reports hstrings hreport
  · obtain ⟨report, hreport, rfl⟩ := List.mem_map.mp hgrammar
    refine isOneLine_of_mem_parse (fun token htoken => ?_) hreport
    rcases List.mem_append.mp htoken with htoken | hlast
    · exact notMem_of_mem_lex hstrings htoken
    · rw [List.mem_singleton.mp hlast]
      exact List.not_mem_nil

end Pad

end QueryPad
