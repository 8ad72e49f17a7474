import QueryPad.Proofs.Syntax.Pairing
import QueryPad.Proofs.Token.LineEnds
import QueryPad.Pad

-- A pad says the same of a text whichever line ends it has, as long as no string
-- runs over one of them.
namespace QueryPad

open Text

section Messages

namespace SyntaxFault

theorem message_unrecognized (chars : List Char) : (unrecognized chars).message =
    "token recognition error at: '" ++ String.ofList chars ++ "'" := rfl

theorem message_unrecognized_inj {chars chars' : List Char}
    (h : (unrecognized chars).message = (unrecognized chars').message) : chars = chars' := by
  rw [message_unrecognized, message_unrecognized, String.append_left_inj,
    String.append_right_inj, String.ofList_inj] at h
  exact h

theorem message_mismatched (found : Token) (expected : List TokenKind) :
    (mismatched found expected).message =
      "mismatched input " ++ found.displayText ++ " expecting " ++ expectedKinds expected := rfl

theorem message_missing (kind : TokenKind) (found : Token) : (missing kind found).message =
    "missing " ++ kind.displayName ++ " at " ++ found.displayText := rfl

end SyntaxFault

theorem notMem_displayName (kind : TokenKind) : '\n' ∉ kind.displayName.toList := by
  cases kind <;> decide

theorem notMem_intercalate {separator : String} (hseparator : '\n' ∉ separator.toList)
    {parts : List String} (hparts : ∀ part ∈ parts, '\n' ∉ part.toList) :
    '\n' ∉ (separator.intercalate parts).toList := by
  rw [String.toList_intercalate]
  induction parts with
  | nil => simp
  | cons part parts ih =>
    obtain ⟨hpart, hmore⟩ := List.forall_mem_cons.mp hparts
    cases parts with
    | nil => simpa using hpart
    | cons next parts =>
      rw [List.map_cons, List.map_cons, List.intercalate_cons_cons]
      simpa [hpart, hseparator] using ih hmore

theorem notMem_expectedKinds (kinds : List TokenKind) :
    '\n' ∉ (expectedKinds kinds).toList := by
  fun_cases expectedKinds kinds with
  | case1 kind => exact notMem_displayName kind
  | case2 =>
    have hnames := @notMem_intercalate ", " (by decide) (kinds.map TokenKind.displayName)
      (List.forall_mem_map.mpr fun kind _ => notMem_displayName kind)
    simpa using hnames

theorem crlfText_expectedKinds (kinds : List TokenKind) :
    crlfText (expectedKinds kinds) = expectedKinds kinds :=
  crlfText_of_notMem (notMem_expectedKinds kinds)

theorem crlfText_ofList (chars : List Char) : crlfText (.ofList chars) = .ofList (crlf chars) := by
  rw [crlfText, String.toList_ofList]

variable {text : List Char}

theorem displayText_crlf {token token' : Token} (h : Token.Twin text token token') :
    token'.displayText = crlfText token.displayText := by
  have hquote : crlfText "'" = "'" := crlfText_of_notMem (by decide)
  rw [Token.displayText, Token.displayText, h.1]
  split
  · exact (crlfText_of_notMem (by decide)).symm
  · rw [crlfText_append, crlfText_append, hquote, Token.text, Token.text, crlfText_ofList,
      h.2.chars_eq]

theorem message_unrecognized_crlf (chars : List Char) :
    (SyntaxFault.unrecognized (crlf chars)).message =
      crlfText (SyntaxFault.unrecognized chars).message := by
  have hquote : crlfText "'" = "'" := crlfText_of_notMem (by decide)
  have hbegin : crlfText "token recognition error at: '" = "token recognition error at: '" :=
    crlfText_of_notMem (by decide +kernel)
  rw [SyntaxFault.message_unrecognized, SyntaxFault.message_unrecognized, crlfText_append,
    crlfText_append, hquote, hbegin, crlfText_ofList]

variable {report report' : SyntaxReport}
  (h : Syntax.PairedReport (Token.Twin text) report report')

include h

theorem message_crlf : report'.message = crlfText report.message := by
  cases h with
  | mismatched h expected =>
    have hbegin : crlfText "mismatched input " = "mismatched input " :=
      crlfText_of_notMem (by decide +kernel)
    have hmiddle : crlfText " expecting " = " expecting " := crlfText_of_notMem (by decide +kernel)
    rw [SyntaxReport.message, SyntaxReport.message, SyntaxFault.message_mismatched,
      SyntaxFault.message_mismatched, crlfText_append, crlfText_append, crlfText_append, hbegin,
      hmiddle, displayText_crlf h, crlfText_expectedKinds]
  | missing h kind =>
    have hbegin : crlfText "missing " = "missing " := crlfText_of_notMem (by decide +kernel)
    have hmiddle : crlfText " at " = " at " := crlfText_of_notMem (by decide +kernel)
    rw [SyntaxReport.message, SyntaxReport.message, SyntaxFault.message_missing,
      SyntaxFault.message_missing, crlfText_append, crlfText_append, crlfText_append, hbegin,
      hmiddle, displayText_crlf h, crlfText_of_notMem (notMem_displayName kind)]

theorem range_crlf (hcr : '\r' ∉ text) :
    (LineIndex.ofChars (crlf text)).range report'.span =
      (LineIndex.ofChars text).range report.span := by
  cases h with
  | mismatched h => exact h.2.range_eq hcr
  | missing h => exact h.2.range_eq hcr

end Messages

namespace Pad

-- The tokens but for their offsets.
def words (pad : Pad) : List (TokenKind × String) :=
  pad.lexed.all.map fun token => (token.kind, token.text)

-- What is reported, with the places of both ends.
def described (pad : Pad) (reports : List SyntaxReport) : List (String × Range) :=
  reports.map fun report => (report.message, pad.index.range report.span)

-- What one pad says is what the other says, the line ends in it apart.
structure IsCrlfOf (other pad : Pad) : Prop where
  words_eq : other.words = pad.words.map fun (kind, chars) => (kind, crlfText chars)
  lexical_eq : other.described other.lexed.reports =
    (pad.described pad.lexed.reports).map fun (message, range) => (crlfText message, range)
  grammar_eq : other.described other.parse.reports =
    (pad.described pad.parse.reports).map fun (message, range) => (crlfText message, range)

theorem map_eq_of_forall₂ {α β γ : Type} {R : α → β → Prop} {f : α → γ} {g : β → γ}
    {as : List α} {bs : List β} (h : List.Forall₂ R as bs) (hfg : ∀ a b, R a b → g b = f a) :
    bs.map g = as.map f := by
  induction h with
  | nil => rfl
  | @cons a b as bs hfirst _ ih => rw [List.map_cons, List.map_cons, hfg a b hfirst, ih]

section Same

variable {text : String} (hcr : '\r' ∉ text.toList)
  (hstrings : ∀ piece ∈ piecesFrom 0 text.toList, ¬ piece.runsOn)

theorem ofText_crlf (text : String) : ofText (crlfText text) = ofChars (crlf text.toList) := by
  rw [ofText, toList_crlfText]

include hstrings

theorem words_crlf : (ofText (crlfText text)).words =
    (ofText text).words.map (fun (kind, chars) => (kind, crlfText chars)) := by
  rw [ofText_crlf, words, words, List.map_map]
  refine map_eq_of_forall₂ (lex_tokens_crlf hstrings) fun token token' htwin => ?_
  have htext : token'.text = crlfText token.text := by
    rw [Token.text, Token.text, crlfText_ofList, htwin.2.chars_eq]
  rw [htwin.1, htext]
  rfl

include hcr

theorem described_lexed_crlf :
    (ofText (crlfText text)).described (ofText (crlfText text)).lexed.reports =
      ((ofText text).described (ofText text).lexed.reports).map
        (fun (message, range) => (crlfText message, range)) := by
  rw [ofText_crlf, described, described, List.map_map]
  refine map_eq_of_forall₂ (lex_reports_crlf hstrings) ?_
  rintro _ _ ⟨start, start', chars, chars', rfl, rfl, htwin⟩
  have hrange := htwin.range_eq hcr
  obtain rfl := htwin.chars_eq
  exact Prod.ext (message_unrecognized_crlf chars) hrange

theorem described_parse_crlf :
    (ofText (crlfText text)).described (ofText (crlfText text)).parse.reports =
      ((ofText text).described (ofText text).parse.reports).map
        (fun (message, range) => (crlfText message, range)) := by
  have hkind (token token' : Token) (h : Token.Twin text.toList token token') :
      token.kind = token'.kind := h.1.symm
  have hend : Token.Twin text.toList (.atEnd 0) (.atEnd 0) :=
    ⟨rfl, rfl, [], text.toList, rfl, rfl, rfl⟩
  rw [ofText_crlf, described, described, List.map_map]
  refine map_eq_of_forall₂ (Syntax.parseTokens_paired hkind hend (lex_tokens_crlf hstrings)) ?_
  intro report report' hpaired
  exact Prod.ext (message_crlf hpaired) (range_crlf hpaired hcr)

end Same

section Apart

variable {text : String}

-- With a CR LF a string that runs on ends behind the CR.
theorem words_ne_of_runsOn {piece : Piece} (hpiece : piece ∈ piecesFrom 0 text.toList)
    (hkind : piece.kind = .token .string) (hlf : '\n' ∈ piece.chars) :
    (ofText (crlfText text)).words ≠
      (ofText text).words.map (fun (kind, chars) => (kind, crlfText chars)) := by
  intro hsame
  have htoken : (⟨.string, piece.start, piece.chars⟩ : Token) ∈ (lex text.toList).tokens :=
    List.mem_filterMap.mpr ⟨piece, hpiece, by rw [Piece.token?, hkind]⟩
  have hword : (.string, crlfText (.ofList piece.chars)) ∈ (ofText (crlfText text)).words :=
    hsame ▸ List.mem_map_of_mem (List.mem_map_of_mem (List.mem_append_left _ htoken))
  rw [ofText_crlf] at hword
  obtain ⟨token, hmem, heq⟩ := List.mem_map.mp hword
  obtain ⟨hstring, hchars⟩ := Prod.mk.inj heq
  rw [crlfText_ofList, Token.text, String.ofList_inj] at hchars
  rcases List.mem_append.mp hmem with hinside | hlast
  · exact not_crlf_of_mem_lex hinside hstring (hchars ▸ infix_crlf hlf)
  · rw [List.mem_singleton.mp hlast] at hstring
    contradiction

theorem described_ne_of_runsOn {piece : Piece} (hpiece : piece ∈ piecesFrom 0 text.toList)
    (hkind : piece.kind = .openString) (hlf : '\n' ∈ piece.chars) :
    (ofText (crlfText text)).described (ofText (crlfText text)).lexed.reports ≠
      ((ofText text).described (ofText text).lexed.reports).map
        (fun (message, range) => (crlfText message, range)) := by
  intro hsame
  have hreport : (⟨⟨piece.start, piece.start + byteSize piece.chars⟩,
      .unrecognized piece.chars⟩ : SyntaxReport) ∈ (lex text.toList).reports :=
    List.mem_filterMap.mpr ⟨piece, hpiece, by rw [Piece.report?, Piece.faultyChars?, hkind]; rfl⟩
  have hdescribed : (crlfText (SyntaxFault.unrecognized piece.chars).message, _) ∈
      (ofText (crlfText text)).described (ofText (crlfText text)).lexed.reports :=
    hsame ▸ List.mem_map_of_mem (List.mem_map_of_mem hreport)
  rw [ofText_crlf] at hdescribed
  obtain ⟨report, hmem, heq⟩ := List.mem_map.mp hdescribed
  obtain ⟨chars, hfault⟩ := exists_unrecognized_of_mem_lex hmem
  have hmessage : report.fault.message = _ := (Prod.mk.inj heq).1
  rw [hfault, ← message_unrecognized_crlf] at hmessage
  rw [SyntaxFault.message_unrecognized_inj hmessage] at hfault
  exact not_crlf_of_mem_reports hmem hfault (infix_crlf hlf)

end Apart

-- With the other line ends a pad says the same just if no string runs over the
-- end of a line: the escape that carries a string over an LF covers of a CR LF
-- the CR alone.
theorem ofText_crlf_iff (text : String) (hcr : '\r' ∉ text.toList) :
    (ofText (crlfText text)).IsCrlfOf (ofText text) ↔
      ∀ piece ∈ piecesFrom 0 text.toList, ¬ piece.runsOn := by
  constructor
  · intro hsame piece hpiece hrunsOn
    obtain ⟨hkind, hlf⟩ : (piece.kind = .token .string ∨ piece.kind = .openString) ∧
        '\n' ∈ piece.chars := by simpa [Piece.runsOn] using hrunsOn
    rcases hkind with hstring | hopen
    · exact words_ne_of_runsOn hpiece hstring hlf hsame.words_eq
    · exact described_ne_of_runsOn hpiece hopen hlf hsame.lexical_eq
  · intro hstrings
    exact ⟨words_crlf hstrings, described_lexed_crlf hcr hstrings,
      described_parse_crlf hcr hstrings⟩

theorem ofText_crlf_openCall : '\r' ∉ "db.c\n.f(@'a'\n".toList ∧
    (ofText (crlfText "db.c\n.f(@'a'\n")).IsCrlfOf (ofText "db.c\n.f(@'a'\n") :=
  ⟨by decide, (ofText_crlf_iff "db.c\n.f(@'a'\n" (by decide)).mpr (by decide +kernel)⟩

-- Of the string in this call nothing is left but an error up to the CR.
theorem ofText_crlf_escapedLineEnd : '\r' ∉ "db.c.f('a\\\nb')".toList ∧
    ¬ (ofText (crlfText "db.c.f('a\\\nb')")).IsCrlfOf (ofText "db.c.f('a\\\nb')") := by
  have hwords : (ofText (crlfText "db.c.f('a\\\nb')")).words ≠
      (ofText "db.c.f('a\\\nb')").words.map (fun (kind, chars) => (kind, crlfText chars)) := by
    decide +kernel
  exact ⟨by decide, fun hsame => hwords hsame.words_eq⟩

end Pad

end QueryPad
