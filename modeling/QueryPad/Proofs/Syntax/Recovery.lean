import QueryPad.Proofs.Syntax.Leaves
import QueryPad.Proofs.Syntax.Lossless
import QueryPad.Proofs.Token.Tiling

-- Reading goes step by step: it complains, matches a token or skips one. After
-- a complaint it is quiet until a token is matched.
namespace QueryPad

open Text

namespace Syntax

variable {inp mid rest : Input}

-- One thing that is done while tokens are read.
inductive Act where
  | complained (report : SyntaxReport)
  | matched (token : Token)
  | skipped (token : Token)

namespace Act

def report? : Act → Option SyntaxReport
  | complained report => some report
  | _ => none

def leaf? : Act → Option Tree
  | complained _ => none
  | matched token => some (.terminal token)
  | skipped token => some (.error token)

end Act

-- A complaint is made of the token ahead, and only if the reader is not
-- recovering from another one.
inductive Step : Input → Act → Input → Prop where
  | complained (ahead : List Token) (fault : SyntaxFault) :
      Step ⟨ahead, false⟩ (.complained ⟨(Input.current ⟨ahead, false⟩).span, fault⟩) ⟨ahead, true⟩
  | matched (token : Token) (ahead : List Token) (recovering : Bool) :
      Step ⟨token :: ahead, recovering⟩ (.matched token) ⟨ahead, false⟩
  | skipped (token : Token) (ahead : List Token) (recovering : Bool) :
      Step ⟨token :: ahead, recovering⟩ (.skipped token) ⟨ahead, recovering⟩

inductive Run : Input → List Act → Input → Prop where
  | done (inp : Input) : Run inp [] inp
  | step {inp mid rest : Input} {act : Act} {acts : List Act} (first : Step inp act mid)
      (more : Run mid acts rest) : Run inp (act :: acts) rest

theorem Run.append {acts more : List Act} (h : Run inp acts mid) (hmore : Run mid more rest) :
    Run inp (acts ++ more) rest := by
  induction h with
  | done => exact hmore
  | step first _ ih => exact .step first (ih hmore)

namespace Run

variable {acts : List Act}

theorem ahead_ne_nil (h : Run inp acts rest) (hrest : rest.ahead ≠ []) : inp.ahead ≠ [] := by
  induction h with
  | done => exact hrest
  | step first _ ih =>
    cases first with
    | complained => exact ih hrest
    | matched | skipped => exact List.cons_ne_nil _ _

-- A reader that recovers has matched a token before it complains again.
theorem exists_matched_of_complained {between after : List Act} {report : SyntaxReport}
    (h : Run inp (between ++ .complained report :: after) rest) (hrecovering : inp.recovering) :
    ∃ token, .matched token ∈ between := by
  induction between generalizing inp with
  | nil =>
    cases h with
    | step first _ =>
      cases first with
      | complained => contradiction
  | cons act between ih =>
    cases h with
    | step first more =>
      cases first with
      | complained => contradiction
      | matched token ahead => exact ⟨token, List.mem_cons_self⟩
      | skipped token ahead =>
        obtain ⟨other, hother⟩ := ih more hrecovering
        exact ⟨other, List.mem_cons_of_mem _ hother⟩

theorem exists_matched_between {before between after : List Act} {a b : SyntaxReport}
    (h : Run inp (before ++ .complained a :: (between ++ .complained b :: after)) rest) :
    ∃ token, .matched token ∈ between := by
  induction before generalizing inp with
  | nil =>
    cases h with
    | step first more =>
      cases first with
      | complained => exact more.exists_matched_of_complained rfl
  | cons act before ih =>
    cases h with
    | step first more => exact ih more

end Run

-- Each complaint is made of a token ahead, and behind it a token is matched
-- before the next one.
structure Spaced (inp : Input) (acts : List Act) : Prop where
  place : ∀ report ∈ acts.filterMap Act.report?, ∃ token ∈ inp.ahead, report.span = token.span
  matched : inp.recovering → ∀ report ∈ acts.filterMap Act.report?,
    ∃ token, .matched token ∈ acts ∧ token ∈ inp.ahead ∧ token.stop ≤ report.span.start
  pairwise : (acts.filterMap Act.report?).Pairwise fun a b =>
    ∃ token, .matched token ∈ acts ∧ a.span.start ≤ token.start ∧ token.stop ≤ b.span.start

section Spaced

variable {acts : List Act} {act : Act}

theorem Step.spaced (first : Step inp act mid) (hne : mid.ahead ≠ [])
    (hordered : inp.ahead.Pairwise fun a b => a.start < b.start ∧ a.stop ≤ b.start)
    (more : Spaced mid acts) : Spaced inp (act :: acts) := by
  have hpairwise : (acts.filterMap Act.report?).Pairwise fun a b => ∃ token,
      .matched token ∈ act :: acts ∧ a.span.start ≤ token.start ∧ token.stop ≤ b.span.start :=
    more.pairwise.imp fun ⟨token, htoken, hspan⟩ => ⟨token, List.mem_cons_of_mem act htoken, hspan⟩
  cases first with
  | complained ahead fault =>
    obtain ⟨next, behind, rfl⟩ := List.exists_cons_of_ne_nil hne
    have hbehind := (List.pairwise_cons.mp hordered).1
    refine ⟨List.forall_mem_cons.mpr ⟨⟨next, by simp, rfl⟩, more.place⟩, fun h => by contradiction,
      .cons (fun report hreport => ?_) hpairwise⟩
    obtain ⟨token, hmatched, htoken, hstop⟩ := more.matched rfl report hreport
    refine ⟨token, List.mem_cons_of_mem _ hmatched, ?_, hstop⟩
    show next.start ≤ token.start
    rcases List.mem_cons.mp htoken with rfl | hmem
    · exact Nat.le_refl _
    · exact Nat.le_of_lt (hbehind token hmem).1
  | matched token ahead =>
    have hbehind := (List.pairwise_cons.mp hordered).1
    refine ⟨fun report hreport => ?_, fun _ report hreport => ?_, hpairwise⟩
    · obtain ⟨other, hother, hspan⟩ := more.place report hreport
      exact ⟨other, List.mem_cons_of_mem _ hother, hspan⟩
    · -- the token just matched stands before every later complaint
      obtain ⟨other, hother, hspan⟩ := more.place report hreport
      exact ⟨token, List.mem_cons_self, List.mem_cons_self, hspan ▸ (hbehind other hother).2⟩
  | skipped token ahead =>
    refine ⟨fun report hreport => ?_, fun hrecovering report hreport => ?_, hpairwise⟩
    · obtain ⟨other, hother, hspan⟩ := more.place report hreport
      exact ⟨other, List.mem_cons_of_mem _ hother, hspan⟩
    · obtain ⟨other, hmatched, hother, hstop⟩ := more.matched hrecovering report hreport
      exact ⟨other, List.mem_cons_of_mem _ hmatched, List.mem_cons_of_mem _ hother, hstop⟩

theorem Run.spaced (h : Run inp acts rest) (hrest : rest.ahead ≠ [])
    (hordered : inp.ahead.Pairwise fun a b => a.start < b.start ∧ a.stop ≤ b.start) :
    Spaced inp acts := by
  induction h with
  | done => exact ⟨by simp, by simp, .nil⟩
  | step first more ih =>
    refine first.spaced (more.ahead_ne_nil hrest) hordered (ih hrest ?_)
    cases first with
    | complained => exact hordered
    | matched | skipped => exact hordered.of_cons

end Spaced

-- A reading is what some steps come to, with what they report and what they take.
def Recorded (parsed : Parsed inp) : Prop :=
  ∃ acts, Run inp acts parsed.rest ∧ acts.filterMap Act.report? = parsed.reports ∧
    acts.filterMap Act.leaf? = Tree.leavesOf parsed.trees

namespace Recorded

variable {parsed : Parsed inp} {next : Parsed parsed.rest}

theorem nothing (inp : Input) : Recorded (Parsed.nothing inp) := ⟨[], .done inp, rfl, rfl⟩

theorem report (inp : Input) (fault : SyntaxFault) : Recorded (Parsed.report inp fault) := by
  obtain ⟨ahead, recovering⟩ := inp
  cases recovering with
  | false => exact ⟨[_], .step (.complained ahead fault) (.done _), rfl, rfl⟩
  | true => exact ⟨[], .done _, rfl, rfl⟩

theorem append (h : Recorded parsed) (hnext : Recorded next) : Recorded (parsed.append next) := by
  obtain ⟨acts, hrun, hreports, hleaves⟩ := h
  obtain ⟨more, hmore, hreports', hleaves'⟩ := hnext
  refine ⟨acts ++ more, hrun.append hmore, ?_, ?_⟩
  · rw [List.filterMap_append, hreports, hreports', Parsed.append_reports]
  · rw [List.filterMap_append, hleaves, hleaves', Parsed.append_trees, Tree.leavesOf_append]

theorem underNode (rule : Rule) (h : Recorded parsed) : Recorded (parsed.underNode rule) := by
  obtain ⟨acts, hrun, hreports, hleaves⟩ := h
  refine ⟨acts, hrun, hreports, ?_⟩
  rw [hleaves, Parsed.underNode_trees, Tree.leavesOf, Tree.leavesOf, Tree.leaves, List.append_nil]

theorem taken {taken : Taken inp} (h : Taken.next? inp = some taken) : Recorded taken.parsed := by
  obtain ⟨ahead, recovering⟩ := inp
  cases ahead with
  | nil => contradiction
  | cons token ahead =>
    obtain rfl := Option.some.inj h
    exact ⟨[_], .step (.matched token ahead recovering) (.done _), rfl, rfl⟩

theorem skipped (tokens ahead : List Token) (recovering : Bool) :
    Run ⟨tokens ++ ahead, recovering⟩ (tokens.map .skipped) ⟨ahead, recovering⟩ ∧
      (tokens.map Act.skipped).filterMap Act.report? = [] ∧
      (tokens.map Act.skipped).filterMap Act.leaf? = Tree.leavesOf (tokens.map .error) := by
  induction tokens with
  | nil => exact ⟨.done _, rfl, rfl⟩
  | cons token tokens ih =>
    obtain ⟨hrun, hreports, hleaves⟩ := ih
    refine ⟨.step (.skipped token _ recovering) hrun, hreports, ?_⟩
    exact congrArg (List.cons (Tree.error token)) hleaves

theorem skipUntil (inp : Input) (stops : TokenKind → Bool) :
    Recorded (Parsed.skipUntil inp stops) := by
  obtain ⟨ahead, recovering⟩ := inp
  have hskipped := skipped
    (ahead.takeWhile fun token => !(token.kind = .endOfText || stops token.kind))
    (ahead.dropWhile fun token => !(token.kind = .endOfText || stops token.kind)) recovering
  rw [List.takeWhile_append_dropWhile] at hskipped
  exact ⟨_, hskipped⟩

end Recorded

theorem recorded : Invariant Recorded where
  nothing := Recorded.nothing
  report := Recorded.report
  append := Recorded.append
  underNode rule _ body := body.underNode rule
  token h _ _ := .taken h
  skip inp _ := .skipUntil inp _

theorem recorded_optional (inp : Input) (kind : TokenKind) :
    Recorded (Parsed.optional inp kind) := by
  rw [Parsed.optional]
  split
  · next taken h => exact .taken (Taken.first?_eq_some_iff.mp h).1
  · exact .nothing inp

-- What begins no command is complained of and skipped with what follows it.
theorem noCommand_eq {token : Taken inp} (h : Taken.next? inp = some token)
    (hskip : token.token.kind ∉ commandStart) :
    noCommand token = (Parsed.report inp (.mismatched token.token commandStart)).append
      (.skipUntil _ commandStart.contains) := by
  obtain ⟨ahead, recovering⟩ := inp
  cases ahead with
  | nil => contradiction
  | cons first ahead =>
    obtain rfl := Option.some.inj h
    have hkind : first.kind ∉ commandStart := hskip
    have hend : first.kind ≠ .endOfText := by
      rintro heq
      exact hkind (heq ▸ List.mem_cons_self)
    simp [noCommand, Parsed.withReports, Parsed.append, Parsed.report, Parsed.skipUntil,
      Taken.andThen, Taken.spoiled, hkind, hend]

theorem commandItem_recorded {token : Taken inp} (h : Taken.next? inp = some token)
    (hend : token.token.kind ≠ .endOfText) : Recorded (commandItem token) := by
  rw [commandItem]
  split
  · rw [command, Taken.andThen_eq_append]
    exact ((Recorded.taken h).append ((recorded.commandBody_holds _).append
      (recorded_optional _ _))).underNode _
  · exact (Recorded.taken h).underNode _
  · next hdb hsemicolon =>
    have hskip : token.token.kind ∉ commandStart := by
      simpa [commandStart, hend] using ⟨hdb, hsemicolon⟩
    rw [noCommand_eq h hskip]
    exact (Recorded.report _ _).append (.skipUntil _ _)

theorem commandList_recorded (inp : Input) : Recorded (commandList inp) := by
  fun_induction commandList inp with
  | case1 inp | case2 inp => exact .nothing inp
  | case3 inp token h hend ih => exact (commandItem_recorded h hend).append ih

end Syntax

namespace Pad

-- The steps of reading a text, up to the token that marks its end.
theorem exists_run (text : String) : ∃ acts recovering,
    Syntax.Run ⟨(ofText text).lexed.all, false⟩ acts
        ⟨[.atEnd (ofText text).lexed.stop], recovering⟩ ∧
      acts.filterMap Syntax.Act.report? = (ofText text).parse.reports ∧
      acts.filterMap Syntax.Act.leaf? ++ [.terminal (.atEnd (ofText text).lexed.stop)] =
        (ofText text).tree.leaves ∧
      ∀ token, .matched token ∈ acts → token ∈ (ofText text).lexed.tokens := by
  obtain ⟨hread, hrest⟩ := Syntax.commandList_lex text.toList
  obtain ⟨acts, hrun, hreports, hleaves⟩ :=
    Syntax.commandList_recorded ⟨(lex text.toList).all, false⟩
  refine ⟨acts, (Syntax.commandList ⟨(lex text.toList).all, false⟩).rest.recovering, ?_, ?_, ?_,
    fun token hact => ?_⟩
  · show Syntax.Run _ acts ⟨[.atEnd (lex text.toList).stop], _⟩
    rw [← hrest]
    exact hrun
  · rw [hreports, ofText, parse_eq]
  · rw [hleaves, ofText, tree, parse_eq]
    simp [Syntax.padTree, Tree.leaves, Tree.leavesOf, ofChars]
  · have hleaf : .terminal token ∈ acts.filterMap Syntax.Act.leaf? :=
      List.mem_filterMap.mpr ⟨_, hact, rfl⟩
    rw [hleaves] at hleaf
    have htoken : token ∈ (lex text.toList).tokens := by
      rw [← hread, ← Tree.filterMap_leavesOf]
      exact List.mem_filterMap.mpr ⟨_, hleaf, rfl⟩
    exact htoken

-- Between two reports of the grammar a token is matched, so that no two are
-- made of one place. Neither does a text have two lexical ones at one place.
theorem reports_apart (text : String) :
    (∃ acts, Syntax.Run ⟨(ofText text).lexed.all, false⟩ acts ⟨[], false⟩ ∧
        acts.filterMap Syntax.Act.report? = (ofText text).parse.reports ∧
        acts.filterMap Syntax.Act.leaf? = (ofText text).tree.leaves ∧
        ∀ before a between b after,
          acts = before ++ .complained a :: (between ++ .complained b :: after) →
            ∃ token, .matched token ∈ between) ∧
      (∀ report ∈ (ofText text).parse.reports,
        ∃ token ∈ (ofText text).lexed.all, report.span = token.span) ∧
      (ofText text).parse.reports.Pairwise (fun a b => ∃ token ∈ (ofText text).lexed.tokens,
        .terminal token ∈ (ofText text).tree.leaves ∧
          a.span.start ≤ token.start ∧ token.stop ≤ b.span.start) ∧
      (ofText text).parse.reports.Pairwise (fun a b => a.span.start < b.span.start) ∧
      (ofText text).lexed.reports.Pairwise (fun a b => a.span.start < b.span.start) := by
  obtain ⟨acts, recovering, hrun, hreports, hleaves, htokens⟩ := exists_run text
  have hspaced := hrun.spaced (List.cons_ne_nil _ _) (lex_tiled text.toList).ordered
  have hall : Syntax.Run ⟨(ofText text).lexed.all, false⟩
      (acts ++ [.matched (.atEnd (ofText text).lexed.stop)]) ⟨[], false⟩ :=
    hrun.append (.step (.matched _ _ _) (.done _))
  have hmatched : (ofText text).parse.reports.Pairwise fun a b =>
      ∃ token ∈ (ofText text).lexed.tokens, .terminal token ∈ (ofText text).tree.leaves ∧
        a.span.start ≤ token.start ∧ token.stop ≤ b.span.start := by
    rw [← hreports]
    refine hspaced.pairwise.imp fun ⟨token, hact, hspan⟩ => ⟨token, htokens token hact, ?_, hspan⟩
    rw [← hleaves]
    exact List.mem_append_left _ (List.mem_filterMap.mpr ⟨_, hact, rfl⟩)
  refine ⟨⟨_, hall, ?_, ?_, ?_⟩, ?_, hmatched, hmatched.imp ?_, lex_reports_increasing _⟩
  · rw [List.filterMap_append, hreports]
    exact List.append_nil _
  · rw [List.filterMap_append, ← hleaves]
    rfl
  · rintro before a between b after hsplit
    exact (hsplit ▸ hall).exists_matched_between
  · rw [← hreports]
    exact hspaced.place
  · rintro a b ⟨token, htoken, -, hstart, hstop⟩
    have := start_lt_stop_of_mem_lex htoken
    omega

end Pad

end QueryPad
