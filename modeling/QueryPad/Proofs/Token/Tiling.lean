import Mathlib.Data.List.TakeWhile
import QueryPad.Proofs.Text.Lines
import QueryPad.Proofs.Token.Lexer

-- The tokens of a text and what is skipped between them make up the text.
namespace QueryPad

open Text

namespace Scan

variable {cs : List Char}

-- A comment is closed by the first mark that closes one.
theorem commentBody_holds (cs : List Char) : ∃ body, ¬ ['*', '/'] <:+: body ∧
    (commentBody cs).2.1 = if (commentBody cs).1 then body ++ ['*', '/'] else body := by
  fun_induction commentBody cs with
  | case1 => exact ⟨[], by simp, rfl⟩
  | case2 => exact ⟨[], by simp, rfl⟩
  | case3 c rest hopen closed taken after hbody ih =>
    have hjoin := commentBody_append rest
    rw [hbody] at ih hjoin
    obtain ⟨body, hnone, htaken⟩ := ih
    dsimp only at htaken hjoin
    refine ⟨c :: body, ?_, by cases closed <;> exact congrArg (List.cons c) htaken⟩
    rw [List.infix_cons_iff, not_or]
    refine ⟨fun hmark => ?_, hnone⟩
    -- the mark would stand at the front of the text already
    obtain ⟨rfl, tail, rfl⟩ := List.cons_prefix_cons.mp hmark
    cases closed <;> exact hopen _ rfl (by rw [← hjoin, htaken]; rfl)

theorem commentBody_open (h : (commentBody cs).1 = false) : (commentBody cs).2.2 = [] := by
  fun_induction commentBody cs with
  | case1 => rfl
  | case2 => contradiction
  | case3 c rest hopen closed taken after hbody ih =>
    rw [hbody] at ih
    exact ih h

-- A string that is not closed runs up to the end of a line.
theorem quoted_open {quote : Char} (h : (quoted quote cs).1 = false) :
    ∀ c ∈ (quoted quote cs).2.2.head?, isLineTerminator c := by
  fun_induction quoted quote cs with
  | case1 | case4 => simp
  | case2 => contradiction
  | case3 c rest hquote hline => simpa using hline
  | case5 escaped rest closed taken after hbody hquote hline ih =>
    rw [hbody] at ih
    exact ih h
  | case6 c rest hquote hline hescape closed taken after hbody ih =>
    rw [hbody] at ih
    exact ih h

end Scan

-- The report of characters that are no token, at their offset.
def SyntaxReport.unread (start : Nat) (chars : List Char) : SyntaxReport :=
  ⟨⟨start, start + byteSize chars⟩, .unrecognized chars⟩

-- A stretch that holds no token: its offset, its characters, those behind it
-- up to the end of the text, and what is reported of it.
inductive Stretch (start : Nat) : List Char → List Char → List SyntaxReport → Prop where
  | blanks {chars behind : List Char} (hblank : ∀ c ∈ chars, isBlank c) :
      Stretch start chars behind []
  | lineComment {body behind : List Char} (hbody : ∀ c ∈ body, ¬ isLineTerminator c)
      (hbehind : ∀ c ∈ behind.head?, isLineTerminator c) :
      Stretch start ('/' :: '/' :: body) behind []
  | blockComment {body behind : List Char} (hbody : ¬ ['*', '/'] <:+: body) :
      Stretch start ('/' :: '*' :: (body ++ ['*', '/'])) behind []
  | stray (c : Char) {behind : List Char} : Stretch start [c] behind [.unread start [c]]
  | openString {quote : Char} {body behind : List Char} (hquote : quote = '\'' ∨ quote = '"')
      (hbehind : ∀ c ∈ behind.head?, isLineTerminator c) :
      Stretch start (quote :: body) behind [.unread start (quote :: body)]
  -- Of a comment that is never closed nothing is left behind.
  | openComment {body : List Char} (hbody : ¬ ['*', '/'] <:+: body) :
      Stretch start ('/' :: '*' :: body) [] [.unread start ['/', '*']]

-- Stretches one behind the other, from an offset up to what stands behind them.
inductive Gap : Nat → List Char → List Char → List SyntaxReport → Prop where
  | none {start : Nat} {behind : List Char} : Gap start [] behind []
  | more {start : Nat} {chars gap behind : List Char} {reports reports' : List SyntaxReport}
      (stretch : Stretch start chars (gap ++ behind) reports)
      (tail : Gap (start + byteSize chars) gap behind reports') :
      Gap start (chars ++ gap) behind (reports ++ reports')

-- The text from an offset on, cut into gaps and tokens, with the end behind
-- the last gap, and the reports of the gaps.
inductive Tiled : Nat → List Char → List Token → List SyntaxReport → Prop where
  | finish {start stop : Nat} {gap : List Char} {reports : List SyntaxReport}
      (skipped : Gap start gap [] reports) (hstop : stop = start + byteSize gap) :
      Tiled start gap [.atEnd stop] reports
  | token {start : Nat} {gap rest : List Char} {token : Token} {tokens : List Token}
      {reports reports' : List SyntaxReport} (skipped : Gap start gap (token.chars ++ rest) reports)
      (hstart : token.start = start + byteSize gap) (hchars : token.chars ≠ [])
      (tail : Tiled token.stop rest tokens reports') :
      Tiled start (gap ++ (token.chars ++ rest)) (token :: tokens) (reports ++ reports')

section Tiled

variable {start : Nat} {chars gap behind text : List Char} {tokens : List Token}
  {reports reports' : List SyntaxReport}

theorem Tiled.skip (stretch : Stretch start chars text reports)
    (h : Tiled (start + byteSize chars) text tokens reports') :
    Tiled start (chars ++ text) tokens (reports ++ reports') := by
  cases h with
  | finish skipped hstop =>
    refine .finish (.more (by rwa [List.append_nil]) skipped) ?_
    rw [hstop, byteSize_append, Nat.add_assoc]
  | token skipped hstart hchars tail =>
    rw [← List.append_assoc chars, ← List.append_assoc reports]
    refine .token (.more stretch skipped) ?_ hchars tail
    rw [hstart, byteSize_append, Nat.add_assoc]

theorem Stretch.report_le (h : Stretch start chars behind reports) :
    ∀ report ∈ reports, start ≤ report.span.start ∧ report.span.stop ≤ start + byteSize chars := by
  cases h with
  | blanks | lineComment | blockComment => simp
  | stray | openString => simp [SyntaxReport.unread]
  | openComment =>
    simp only [List.mem_singleton, forall_eq, SyntaxReport.unread, byteSize_cons, byteSize_nil]
    omega

theorem Gap.report_le (h : Gap start gap behind reports) :
    ∀ report ∈ reports, start ≤ report.span.start ∧ report.span.stop ≤ start + byteSize gap := by
  induction h with
  | none => simp
  | more stretch _ ih =>
    intro report hreport
    rw [byteSize_append]
    rcases List.mem_append.mp hreport with hhere | htail
    · have := stretch.report_le report hhere
      omega
    · have := ih report htail
      omega

theorem Tiled.le (h : Tiled start text tokens reports) :
    (∀ token ∈ tokens, start ≤ token.start) ∧ ∀ report ∈ reports, start ≤ report.span.start := by
  induction h with
  | finish skipped hstop =>
    refine ⟨fun token htoken => ?_, fun report hreport => (skipped.report_le report hreport).1⟩
    obtain rfl := List.mem_singleton.mp htoken
    exact hstop ▸ Nat.le_add_right _ _
  | @token _ _ _ head _ _ _ skipped hstart _ _ ih =>
    have hstop : head.start ≤ head.stop := Nat.le_add_right _ _
    refine ⟨fun token htoken => ?_, fun report hreport => ?_⟩
    · rcases List.mem_cons.mp htoken with rfl | hmore
      · omega
      · have := ih.1 token hmore
        omega
    · rcases List.mem_append.mp hreport with hhere | hmore
      · exact (skipped.report_le report hhere).1
      · have := ih.2 report hmore
        omega

theorem Tiled.ordered (h : Tiled start text tokens reports) :
    tokens.Pairwise fun a b => a.start < b.start ∧ a.stop ≤ b.start := by
  induction h with
  | finish => exact List.pairwise_singleton _ _
  | @token _ _ _ head _ _ _ _ _ hchars tail ih =>
    refine .cons (fun token htoken => ?_) ih
    have hpos : byteSize head.chars ≠ 0 := fun hsize => hchars (eq_nil_of_byteSize hsize)
    have hstop : head.stop = head.start + byteSize head.chars := rfl
    have hle := tail.le.1 token htoken
    omega

-- What is reported lies in the gaps.
theorem Tiled.apart (h : Tiled start text tokens reports) :
    ∀ report ∈ reports, ∀ token ∈ tokens,
      report.span.stop ≤ token.start ∨ token.stop ≤ report.span.start := by
  induction h with
  | finish skipped hstop =>
    intro report hreport token htoken
    obtain rfl := List.mem_singleton.mp htoken
    exact .inl (hstop ▸ (skipped.report_le report hreport).2)
  | @token _ _ _ head _ _ _ skipped hstart _ tail ih =>
    intro report hreport token htoken
    have hstop : head.start ≤ head.stop := Nat.le_add_right _ _
    rcases List.mem_append.mp hreport with hhere | hmore
    · have hbefore := (skipped.report_le report hhere).2
      rcases List.mem_cons.mp htoken with rfl | htail
      · left
        omega
      · have := tail.le.1 token htail
        left
        omega
    · rcases List.mem_cons.mp htoken with rfl | htail
      · exact .inr (tail.le.2 report hmore)
      · exact ih report hmore token htail

end Tiled

namespace Piece

-- What is no token is a stretch between tokens.
theorem next_stretch (start : Nat) (c : Char) (rest : List Char)
    (h : ∀ kind, (next c rest).1 ≠ .token kind) :
    Stretch start (next c rest).2.1 (next c rest).2.2
      (report? ⟨(next c rest).1, start, (next c rest).2.1⟩).toList := by
  have hread := reads_next c rest
  generalize next c rest = piece at hread h ⊢
  cases hread with
  | blank _ hblank =>
    refine .blanks fun other hother => ?_
    rcases List.mem_cons.mp hother with rfl | hmore
    · exact hblank
    · exact List.mem_takeWhile_imp hmore
  | lineComment line =>
    refine .lineComment (fun other hother => by simpa using List.mem_takeWhile_imp hother) ?_
    intro other hother
    simpa using not_of_mem_head?_dropWhile hother
  | @blockComment inner taken _ hbody =>
    obtain ⟨body, hnone, htaken⟩ := Scan.commentBody_holds inner
    rw [hbody] at htaken
    dsimp only at htaken
    exact htaken ▸ .blockComment hnone
  | @openComment inner taken _ hbody =>
    obtain ⟨body, hnone, htaken⟩ := Scan.commentBody_holds inner
    have hopen := @Scan.commentBody_open inner
    rw [hbody] at htaken hopen
    dsimp only at htaken hopen
    rw [hopen rfl, htaken]
    exact .openComment hnone
  | openString hquote hbody =>
    have hopen := @Scan.quoted_open rest c
    rw [hbody] at hopen
    exact .openString hquote (hopen rfl)
  | slash | stray => exact .stray _
  | number | mark | string | regex | word => exact absurd rfl (h _)

end Piece

theorem piecesFrom_tiled (start : Nat) (text : List Char) :
    Tiled start text ((piecesFrom start text).filterMap Piece.token? ++
        [.atEnd (start + byteSize text)]) ((piecesFrom start text).filterMap Piece.report?) := by
  fun_induction piecesFrom start text with
  | case1 start => exact .finish .none rfl
  | case2 start c rest ih =>
    have hjoin := Piece.next_append c rest
    have hne := Piece.next_taken_ne_nil c rest
    have hstretch := Piece.next_stretch start c rest
    generalize Piece.next c rest = piece at *
    obtain ⟨kind, chars, behind⟩ := piece
    dsimp only at *
    rw [← hjoin, byteSize_append, ← Nat.add_assoc]
    cases kind with
    | token kind => exact @Tiled.token start [] behind ⟨kind, start, chars⟩ _ _ _ .none rfl hne ih
    | _ => exact ih.skip (hstretch fun _ => by simp)

theorem lex_tiled (text : List Char) : Tiled 0 text (lex text).all (lex text).reports := by
  have htiled := piecesFrom_tiled 0 text
  rwa [Nat.zero_add] at htiled

-- The tokens of a text are cut out of it, in order and one behind the other,
-- with one at the end that is empty. What is left between them is blank or a
-- comment or reported, and nothing else is reported.
theorem lex_partitions (text : List Char) :
    Tiled 0 text (lex text).all (lex text).reports ∧
      (lex text).all = (lex text).tokens ++ [⟨.endOfText, byteSize text, []⟩] ∧
      (∀ token ∈ (lex text).tokens, token.kind ≠ .endOfText ∧ token.start < token.stop ∧
        slice? text token.start token.stop = some token.chars) ∧
      (lex text).all.Pairwise (fun a b => a.start < b.start ∧ a.stop ≤ b.start) ∧
      ∀ report ∈ (lex text).reports, ∀ token ∈ (lex text).all,
        report.span.stop ≤ token.start ∨ token.stop ≤ report.span.start := by
  have htiled := lex_tiled text
  refine ⟨htiled, rfl, fun token htoken => ?_, htiled.ordered, htiled.apart⟩
  obtain ⟨before, after, htext, hstart⟩ := exists_split_of_mem_lex htoken
  refine ⟨kind_ne_endOfText_of_mem_lex htoken, start_lt_stop_of_mem_lex htoken, ?_⟩
  rw [slice?_eq_some_iff]
  exact ⟨before, after, htext, hstart, by rw [byteSize_append, Token.stop, hstart]⟩

theorem lex_reports_increasing (text : List Char) :
    (lex text).reports.Pairwise fun a b => a.span.start < b.span.start := by
  have hpieces : (piecesFrom 0 text).Pairwise fun a b => a.start < b.start := by
    refine (piecesFrom_ordered 0 text).imp_of_mem fun {a b} ha _ hordered => ?_
    obtain ⟨c, rest, _, hchars⟩ := exists_next_of_mem_piecesFrom ha
    have hne : byteSize a.chars ≠ 0 := fun hsize =>
      Piece.next_taken_ne_nil c rest (hchars ▸ eq_nil_of_byteSize hsize)
    omega
  refine hpieces.filterMap _ fun a b hordered report hreport report' hreport' => ?_
  obtain ⟨_, _, rfl⟩ := Option.map_eq_some_iff.mp hreport
  obtain ⟨_, _, rfl⟩ := Option.map_eq_some_iff.mp hreport'
  exact hordered

end QueryPad
