import QueryPad.Proofs.Syntax.Alike
import QueryPad.Proofs.Syntax.Lossless

-- What is read up to a semicolon and what is read behind it together are what
-- is read of the whole.
namespace QueryPad.Syntax

variable {semicolon : Token} {after after' : List Token} {inp inp' : Input}

theorem optionalSemicolon_through (h : Alike semicolon after after' inp inp') :
    Through semicolon after after' (.optional inp .semicolon) (.optional inp' .semicolon) := by
  obtain ⟨hnext, hnext', htoken, _, hthrough, _⟩ := h.next
  rw [optional_eq hnext, optional_eq hnext', ← htoken]
  split
  · exact hthrough
  · exact (Same.nothing h).through

theorem command_through {db : Taken inp} {db' : Taken inp'}
    (h : Alike semicolon after after' inp inp')
    (hsame : Same semicolon after after' db.parsed db'.parsed) :
    Through semicolon after after' (command db) (command db') := by
  rw [command, command, Taken.andThen_eq_append, Taken.andThen_eq_append]
  have hbody := (Alike.simulation semicolon after after').commandBody_same hsame.rest
  exact .underNode h (.append hsame (.append hbody (optionalSemicolon_through hbody.rest)))

theorem noCommand_same {token : Taken inp} {token' : Taken inp'}
    (h : Alike semicolon after after' inp inp') (htoken : token.token = token'.token)
    (hsame : Same semicolon after after' token.parsed token'.parsed) :
    Same semicolon after after' (noCommand token) (noCommand token') := by
  have hspoiled : Same semicolon after after' token.spoiled.parsed token'.spoiled.parsed := by
    refine ⟨?_, rfl, hsame.rest.recover⟩
    simp [Taken.parsed, Taken.andThen, Taken.spoiled, Parsed.nothing, htoken]
  have hskipped : Same semicolon after after'
      (token.spoiled.andThen fun mid _ => .skipUntil mid commandStart.contains)
      (token'.spoiled.andThen fun mid _ => .skipUntil mid commandStart.contains) :=
    (Alike.simulation semicolon after after').takenThen hspoiled fun _ _ _ _ hmid =>
      hmid.skipUntil rfl
  refine ⟨hskipped.trees, ?_, hskipped.rest⟩
  rw [noCommand, noCommand, Parsed.withReports, Parsed.withReports, h.complaint_eq, htoken,
    hskipped.reports]

theorem commandItem_through {token : Taken inp} {token' : Taken inp'}
    (h : Alike semicolon after after' inp inp') (htoken : token.token = token'.token)
    (hthrough : Through semicolon after after' token.parsed token'.parsed)
    (hsame : token.token.kind ≠ .semicolon →
      Same semicolon after after' token.parsed token'.parsed) :
    Through semicolon after after' (commandItem token) (commandItem token') := by
  rw [commandItem, commandItem, ← htoken]
  split
  · next hkind => exact command_through h (hsame (by simp [hkind]))
  · exact .underNode h hthrough
  · next hkind => exact (noCommand_same h htoken (hsame hkind)).through

-- Commands read up to the semicolon, before those read of what stands behind.
structure Resumes (trees : List Tree) (reports : List SyntaxReport) (after : List Token)
    (inp : Input) : Prop where
  trees : (commandList inp).trees = trees ++ (commandList ⟨after, false⟩).trees
  reports : (commandList inp).reports = reports ++ (commandList ⟨after, false⟩).reports

theorem commandList_resumes {inp inp' : Input} (h : Alike semicolon after after' inp inp') :
    ∃ trees reports, Resumes trees reports after inp ∧ Resumes trees reports after' inp' := by
  obtain @⟨token, token', hnext, hnext', htoken, hend, hthrough, hsame⟩ := h.next
  have hitem := commandItem_through h htoken hthrough hsame
  have hread := commandList_of_next hnext hend
  have hread' := commandList_of_next hnext' (htoken ▸ hend)
  -- either the semicolon is still to come, or this item has taken it
  rcases hitem.rest with hrest | ⟨hrest, hrest'⟩
  · have := commandItem_size_lt token
    obtain ⟨trees, reports, hafter, hafter'⟩ := commandList_resumes hrest
    refine ⟨(commandItem token).trees ++ trees, (commandItem token).reports ++ reports,
      ⟨?_, ?_⟩, ⟨?_, ?_⟩⟩
    · rw [hread, Parsed.append_trees, hafter.trees, List.append_assoc]
    · rw [hread, Parsed.append_reports, hafter.reports, List.append_assoc]
    · rw [hread', Parsed.append_trees, hafter'.trees, hitem.trees, List.append_assoc]
    · rw [hread', Parsed.append_reports, hafter'.reports, hitem.reports, List.append_assoc]
  · refine ⟨(commandItem token).trees, (commandItem token).reports, ⟨?_, ?_⟩, ⟨?_, ?_⟩⟩
    · rw [hread, Parsed.append_trees, hrest]
    · rw [hread, Parsed.append_reports, hrest]
    · rw [hread', Parsed.append_trees, hrest', hitem.trees]
    · rw [hread', Parsed.append_reports, hrest', hitem.reports]
termination_by inp.size

-- No value, call or argument reaches over a semicolon.
theorem kinds_of_nodesOf_parseTokens {tokens : List Token} {finish : Token}
    (htokens : ∀ token ∈ tokens, token.kind ≠ .endOfText) (hfinish : finish.kind = .endOfText)
    (rule : Rule) (hrule : ¬ rule.isOuter) (node : Tree)
    (hnode : node ∈ (parseTokens (tokens ++ [finish])).tree.nodesOf rule) :
    ∀ token ∈ node.tokens, token.kind ≠ .semicolon := by
  rw [parseTokens_eq htokens hfinish] at hnode
  obtain ⟨item, hitem, hinside⟩ := exists_item_of_nodesOf_padTree
    (Rule.ne_of_isOuter rfl hrule) (Rule.ne_of_isOuter rfl hrule) hnode
  exact fun token htoken => (hitem.kinds_of_nodesOf hrule hinside token htoken).1

-- What stands before a semicolon is read without the text behind it.
theorem commandList_before {first : List Token} (hfirst : ∀ token ∈ first, token.kind ≠ .endOfText)
    (hsemicolon : semicolon.kind = .semicolon) {finish : Token} (hfinish : finish.kind = .endOfText)
    (after : List Token) :
    Resumes (commandList ⟨first ++ [semicolon, finish], false⟩).trees
      (commandList ⟨first ++ [semicolon, finish], false⟩).reports after
      ⟨first ++ semicolon :: after, false⟩ := by
  have halike : Alike semicolon after [finish] ⟨first ++ semicolon :: after, false⟩
      ⟨first ++ [semicolon, finish], false⟩ := .intro first false hsemicolon hfirst
  obtain ⟨trees, reports, hwhole, hhead⟩ := commandList_resumes halike
  have hstop : commandList ⟨[finish], false⟩ = .nothing _ := commandList_of_end hfinish
  rw [hhead.trees, hhead.reports, hstop]
  simpa [Parsed.nothing] using hwhole

-- Nothing before a semicolon changes how the text behind it is read.
theorem parseTokens_resumes {first second : List Token} {semicolon finish finish' : Token}
    (hfirst : ∀ token ∈ first, token.kind ≠ .endOfText)
    (hsecond : ∀ token ∈ second, token.kind ≠ .endOfText)
    (hsemicolon : semicolon.kind = .semicolon) (hfinish : finish.kind = .endOfText)
    (hfinish' : finish'.kind = .endOfText) :
    ∃ children children' reports reports',
      parseTokens (first ++ semicolon :: (second ++ [finish])) =
        ⟨padTree (first ++ semicolon :: (second ++ [finish])) (children ++ children') finish,
          reports ++ reports'⟩ ∧
      parseTokens (first ++ [semicolon, finish']) =
        ⟨padTree (first ++ [semicolon, finish']) children finish', reports⟩ ∧
      parseTokens (second ++ [finish]) =
        ⟨padTree (second ++ [finish]) children' finish, reports'⟩ ∧
      Tree.tokensOf children = first ++ [semicolon] ∧ Tree.tokensOf children' = second ∧
      ∀ rule, ¬ rule.isOuter →
        ∀ node ∈ (parseTokens (first ++ semicolon :: (second ++ [finish]))).tree.nodesOf rule,
          ∀ token ∈ node.tokens, token.kind ≠ .semicolon := by
  have hclosed : ∀ token ∈ first ++ [semicolon], token.kind ≠ .endOfText := by
    intro token htoken
    rcases List.mem_append.mp htoken with hbefore | hlast
    · exact hfirst token hbefore
    · simp [List.mem_singleton.mp hlast, hsemicolon]
  have hjoined : ∀ token ∈ first ++ semicolon :: second, token.kind ≠ .endOfText := by
    intro token htoken
    rw [List.append_cons, List.mem_append] at htoken
    exact htoken.elim (hclosed token) (hsecond token)
  have hwhole := parseTokens_eq hjoined hfinish
  have hinside := kinds_of_nodesOf_parseTokens hjoined hfinish
  rw [List.append_assoc, List.cons_append] at hwhole hinside
  have hhead := parseTokens_eq hclosed hfinish'
  have htokens := (@commandList_consumes _ [] _ hclosed hfinish' false).1
  rw [List.append_assoc, List.singleton_append] at hhead htokens
  have hbefore := commandList_before hfirst hsemicolon hfinish' (second ++ [finish])
  refine ⟨_, _, _, _, ?_, hhead, parseTokens_eq hsecond hfinish, htokens,
    (commandList_consumes hsecond hfinish false).1, hinside⟩
  rw [hwhole, hbefore.trees, hbefore.reports]

def openArray : List Token :=
  [⟨.db, 0, ['d', 'b']⟩, ⟨.dot, 2, ['.']⟩, ⟨.identifier, 3, ['f']⟩, ⟨.openParen, 4, ['(']⟩,
    ⟨.openBracket, 5, ['[']⟩]

def bareCall : List Token :=
  [⟨.db, 7, ['d', 'b']⟩, ⟨.dot, 9, ['.']⟩, ⟨.identifier, 10, ['g']⟩, ⟨.openParen, 11, ['(']⟩,
    ⟨.closeParen, 12, [')']⟩]

theorem parseTokens_openArray :
    ∃ children children' reports reports',
      parseTokens (openArray ++ ⟨.semicolon, 6, [';']⟩ :: (bareCall ++ [.atEnd 13])) =
        ⟨padTree (openArray ++ ⟨.semicolon, 6, [';']⟩ :: (bareCall ++ [.atEnd 13]))
          (children ++ children') (.atEnd 13), reports ++ reports'⟩ ∧
      parseTokens (openArray ++ [⟨.semicolon, 6, [';']⟩, .atEnd 7]) =
        ⟨padTree (openArray ++ [⟨.semicolon, 6, [';']⟩, .atEnd 7]) children (.atEnd 7),
          reports⟩ ∧
      parseTokens (bareCall ++ [.atEnd 13]) =
        ⟨padTree (bareCall ++ [.atEnd 13]) children' (.atEnd 13), reports'⟩ := by
  obtain ⟨children, children', reports, reports', hwhole, hhead, htail, _⟩ :=
    @parseTokens_resumes openArray bareCall ⟨.semicolon, 6, [';']⟩ (.atEnd 13) (.atEnd 7)
      (by decide) (by decide) rfl rfl rfl
  exact ⟨children, children', reports, reports', hwhole, hhead, htail⟩

end QueryPad.Syntax
