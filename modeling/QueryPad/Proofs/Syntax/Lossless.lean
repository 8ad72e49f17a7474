import QueryPad.Pad
import QueryPad.Proofs.Syntax.Builder
import QueryPad.Proofs.Syntax.Contents
import QueryPad.Proofs.Syntax.Production
import QueryPad.Proofs.Token.Lexer

-- The commands of a text are read up to its end, and the tree that is made of
-- them holds every token once.
namespace QueryPad

namespace Syntax

theorem CommandItem.kind_ne_endOfText {tree : Tree} (item : CommandItem tree) :
    ∀ token ∈ tree.tokens, token.kind ≠ .endOfText := by
  cases item with
  | @command start db body ending hdb hbody hending =>
    intro token htoken
    simp only [Tree.tokens, Tree.tokensOf, Tree.tokensOf_append, List.cons_append,
      List.nil_append, List.mem_cons, List.mem_append] at htoken
    rcases htoken with rfl | htoken | htoken
    · simp [hdb]
    · exact (hbody.tokens token htoken).2
    · rcases hending with rfl | ⟨semicolon, hkind, rfl⟩
      · simp [Tree.tokensOf] at htoken
      · obtain rfl : token = semicolon := by simpa [Tree.tokensOf, Tree.tokens] using htoken
        simp [hkind]
  | emptyCommand hkind => simp [Tree.tokens, Tree.tokensOf, hkind]
  | skipped hkind => simpa [Tree.tokens] using hkind

theorem commandList_kinds (inp : Input) :
    ∀ token ∈ Tree.tokensOf (commandList inp).trees, token.kind ≠ .endOfText := by
  intro token htoken
  rw [Tree.tokensOf_eq_flatMap, List.mem_flatMap] at htoken
  obtain ⟨tree, htree, htoken⟩ := htoken
  exact (commandList_items inp tree htree).kind_ne_endOfText token htoken

-- Whatever stands in the way is skipped, until nothing is left.
theorem commandList_stops (inp : Input) : (commandList inp).rest.peek = .endOfText := by
  fun_induction commandList inp with
  | case1 inp h => exact Taken.peek_of_none h
  | case2 inp token h hkind => exact (Taken.peek_eq h).trans hkind
  | case3 inp token h hend ih => exact ih

theorem takeWhile_eq_nil_of_peek {inp : Input} (h : inp.peek = .endOfText) :
    inp.ahead.takeWhile (·.kind ≠ .endOfText) = [] := by
  obtain ⟨ahead, recovering⟩ := inp
  cases ahead with
  | nil => rfl
  | cons token rest =>
    rw [Input.peek_cons] at h
    simp [h]

variable {tokens more : List Token} {finish : Token}

theorem commandList_consumes (htokens : ∀ token ∈ tokens, token.kind ≠ .endOfText)
    (hfinish : finish.kind = .endOfText) (recovering : Bool) :
    Tree.tokensOf (commandList ⟨tokens ++ finish :: more, recovering⟩).trees = tokens ∧
      (commandList ⟨tokens ++ finish :: more, recovering⟩).rest.ahead = finish :: more := by
  generalize hparsed : commandList ⟨tokens ++ finish :: more, recovering⟩ = parsed
  have hkinds := commandList_kinds ⟨tokens ++ finish :: more, recovering⟩
  have hstops := takeWhile_eq_nil_of_peek
    (commandList_stops ⟨tokens ++ finish :: more, recovering⟩)
  rw [hparsed] at hkinds hstops
  have hjoin : Tree.tokensOf parsed.trees ++ parsed.rest.ahead = tokens ++ finish :: more :=
    parsed.lossless
  -- both sides begin with the tokens before the first end of the text
  have hread := congrArg (List.takeWhile (·.kind ≠ .endOfText)) hjoin
  rw [List.takeWhile_append_of_pos (by simpa using hkinds), hstops,
    List.takeWhile_append_of_pos (by simpa using htokens), List.append_nil,
    List.takeWhile_cons_of_neg (by simp [hfinish]), List.append_nil] at hread
  refine ⟨hread, ?_⟩
  rw [hread] at hjoin
  exact List.append_cancel_left hjoin

-- The commands of a text take its tokens and leave the end.
theorem commandList_lex (text : List Char) :
    Tree.tokensOf (commandList ⟨(lex text).all, false⟩).trees = (lex text).tokens ∧
      (commandList ⟨(lex text).all, false⟩).rest.ahead = [.atEnd (lex text).stop] :=
  commandList_consumes (fun _ => kind_ne_endOfText_of_mem_lex) rfl false

-- The tree of a text: its commands, and behind them the end.
def padTree (tokens : List Token) (commands : List Tree) (finish : Token) : Tree :=
  .node .mongoCommands (startOf tokens)
    [.node .commands (startOf tokens) commands, .terminal finish]

-- Below the commands of a pad, nodes stand inside one command.
theorem exists_item_of_nodesOf_padTree {inp : Input} {rule : Rule} {node : Tree}
    (houter : Rule.mongoCommands ≠ rule) (hcommands : Rule.commands ≠ rule)
    (hnode : node ∈ (padTree tokens (commandList inp).trees finish).nodesOf rule) :
    ∃ item, CommandItem item ∧ node ∈ item.nodesOf rule := by
  simp only [padTree, Tree.nodesOf, Tree.nodesOfAll, hcommands, houter, if_false,
    List.append_nil] at hnode
  rw [Tree.nodesOfAll_eq_flatMap, List.mem_flatMap] at hnode
  obtain ⟨item, hitem, hnode⟩ := hnode
  exact ⟨item, commandList_items inp item hitem, hnode⟩

theorem parseTokens_eq (htokens : ∀ token ∈ tokens, token.kind ≠ .endOfText)
    (hfinish : finish.kind = .endOfText) :
    parseTokens (tokens ++ [finish]) =
      ⟨padTree (tokens ++ [finish]) (commandList ⟨tokens ++ [finish], false⟩).trees finish,
        (commandList ⟨tokens ++ [finish], false⟩).reports⟩ := by
  have hrest : (commandList ⟨tokens ++ [finish], false⟩).rest.ahead = [finish] :=
    (commandList_consumes htokens hfinish false).2
  have hlast : ∀ mid : Input, mid.ahead = [finish] →
      (padEnd mid).trees = [.terminal finish] ∧ (padEnd mid).reports = [] := by
    rintro ⟨ahead, recovering⟩ rfl
    exact ⟨rfl, rfl⟩
  obtain ⟨htrees, hreports⟩ := hlast _ hrest
  simp [parseTokens, padBody, padTree, startOf, Input.current, Parsed.andThen, Parsed.append,
    Parsed.underNode, htrees, hreports]

theorem tokens_parseTokens (htokens : ∀ token ∈ tokens, token.kind ≠ .endOfText)
    (hfinish : finish.kind = .endOfText) :
    (parseTokens (tokens ++ [finish])).tree.tokens = tokens ++ [finish] := by
  have hread : Tree.tokensOf (commandList ⟨tokens ++ [finish], false⟩).trees = tokens :=
    (commandList_consumes htokens hfinish false).1
  rw [parseTokens_eq htokens hfinish]
  simp [padTree, Tree.tokens, Tree.tokensOf, hread]

end Syntax

namespace Pad

theorem parse_eq (text : List Char) :
    (ofChars text).parse =
      ⟨Syntax.padTree (lex text).all (Syntax.commandList ⟨(lex text).all, false⟩).trees
          (.atEnd (lex text).stop),
        (Syntax.commandList ⟨(lex text).all, false⟩).reports⟩ :=
  Syntax.parseTokens_eq (fun _ => kind_ne_endOfText_of_mem_lex) rfl

-- However a text is written, its tree keeps all its tokens, and the table of
-- its nodes is in order.
theorem tree_lossless (text : String) :
    (ofText text).tree.tokens = (ofText text).lexed.all ∧
      (ofText text).tree.table.filterMap Row.token? =
        List.range (ofText text).lexed.all.length ∧
      (∃ last, (ofText text).tree.table.getLast? = some last ∧ last.kind = .terminal ∧
        last.parent = some 0 ∧ last.first = (ofText text).lexed.tokens.length) ∧
      (ofText text).tree.table = (ofText text).tree.arena.map Entry.row ∧
      IsPreorder (ofText text).tree.table := by
  have htokens : (ofText text).tree.tokens = (ofText text).lexed.all :=
    Syntax.tokens_parseTokens (fun _ => kind_ne_endOfText_of_mem_lex) rfl
  refine ⟨htokens, ?_, ?_, Tree.table_eq _, Tree.table_isPreorder _⟩
  · rw [Tree.table_tokens, htokens]
  · rw [Tree.table_eq, ofText, tree, parse_eq]
    simp only [Syntax.padTree, Tree.arena, Tree.entriesFrom, Tree.entriesOf, List.append_nil,
      ← List.cons_append, List.map_append, List.map_cons, List.map_nil]
    refine ⟨_, List.getLast?_concat, rfl, rfl, ?_⟩
    simp only [Entry.row, Tree.tokens, (Syntax.commandList_lex text.toList).1, Nat.zero_add]
    rfl

end Pad

end QueryPad
