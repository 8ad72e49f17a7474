import QueryPad.Proofs.Command.Unplaced
import QueryPad.Proofs.Syntax.Neighbours
import QueryPad.Proofs.Syntax.Spans

-- The text that a command keeps, without blanks and comments, is read as that
-- command again.
namespace QueryPad

open Text

namespace Syntax

variable {ahead rest : List Token} {trees : List Tree} {tree : Tree}

theorem DerivesItem.tokens (item : DerivesItem ahead tree rest) : tree.tokens ++ rest = ahead := by
  cases item with
  | command hdb body => exact body.tokens
  | emptyCommand => rfl

theorem DerivesItem.derives (item : DerivesItem ahead tree rest) (hcommand : tree.is .command) :
    Derives [.rule .command] ahead [tree] rest := by
  cases item with
  | command hdb body => exact .rule body (.done _)
  | emptyCommand => contradiction

-- Every command of a pad is derived from tokens in the middle of the pad's.
theorem exists_command_of_mem (h : Derives (production .commands) ahead trees rest)
    (htree : tree ∈ trees) (hcommand : tree.is .command) :
    ∃ before after, before ++ (tree.tokens ++ after) = ahead ∧
      Derives [.rule .command] (tree.tokens ++ after) [tree] after := by
  induction trees generalizing ahead with
  | nil => contradiction
  | cons first trees ih =>
    rcases commands_iff.mp h with ⟨hnil, _⟩ | ⟨_, _, mid, heq, item, tail⟩
    · contradiction
    · obtain ⟨rfl, rfl⟩ := List.cons.inj heq
      rcases List.mem_cons.mp htree with rfl | htail
      · exact ⟨[], mid, item.tokens, item.tokens ▸ item.derives hcommand⟩
      · obtain ⟨before, after, hmid, derived⟩ := ih tail htail
        refine ⟨first.tokens ++ before, after, ?_, derived⟩
        rw [List.append_assoc, hmid, item.tokens]

-- A command alone makes a pad.
theorem pad_of_command {tokens : List Token} {finish : Token} (hfinish : finish.kind = .endOfText)
    (h : Derives [.rule .command] (tokens ++ [finish]) [tree] [finish]) :
    Derives [.rule .mongoCommands] (tokens ++ [finish])
      [padTree (tokens ++ [finish]) [tree] finish] [] := by
  have hlist : Derives (production .commands) (tokens ++ [finish]) ([tree] ++ []) [finish] :=
    .again (.anyOf (by simp) (h.append (.stop (.done [finish]))))
  exact (pad_iff hfinish).mpr ⟨[tree], rfl, hlist⟩

end Syntax

namespace Pad

theorem nodesOf_padTree {text : String} {commands : List Tree}
    (h : (ofText text).tree =
      Syntax.padTree (lex text.toList).all commands (.atEnd (lex text.toList).stop)) :
    (ofText text).tree.nodesOf .command = commands.filter (·.is .command) := by
  have hread : (ofText text).tree = Syntax.padTree (lex text.toList).all
      (Syntax.commandList ⟨(lex text.toList).all, false⟩).trees
        (.atEnd (lex text.toList).stop) := congrArg Parse.tree (parse_eq text.toList)
  have hcommands : (Syntax.commandList ⟨(lex text.toList).all, false⟩).trees = commands := by
    simpa [Syntax.padTree] using hread.symm.trans h
  rw [nodesOf_command, hcommands]

-- A text that one command takes up has this command.
theorem nodesOf_of_derives {text : String} {node : Tree}
    (derived : Syntax.Derives [.rule .command] (lex text.toList).all [node]
      [.atEnd (lex text.toList).stop]) :
    (ofText text).parse.reports = [] ∧ (ofText text).tree.nodesOf .command = [node] := by
  have hparse : (ofText text).parse =
      ⟨Syntax.padTree (lex text.toList).all [node] (.atEnd (lex text.toList).stop), []⟩ :=
    Syntax.parseTokens_of_derives (fun _ => kind_ne_endOfText_of_mem_lex) rfl
      (Syntax.semicolonsTaken_padTree.mpr (.singleton node)) (Syntax.pad_of_command rfl derived)
  have hcommand : node.is .command := by
    obtain ⟨_, _, _, _, heq, _⟩ := Syntax.Derives.rule_iff.mp derived
    obtain ⟨rfl, _⟩ := List.cons.inj heq
    rfl
  refine ⟨by rw [hparse], ?_⟩
  rw [nodesOf_padTree (by rw [tree, hparse]), List.filter_singleton, hcommand]
  rfl

section Quiet

variable {text : String} (hlexed : (ofText text).lexed.reports = [])
  (hparse : (ofText text).parse.reports = [])

include hparse

theorem derives_of_quiet : Syntax.Derives [.rule .mongoCommands] (lex text.toList).all
    [(ofText text).tree] [] :=
  Syntax.derives_of_quiet (fun _ => kind_ne_endOfText_of_mem_lex) rfl hparse

include hlexed

theorem commands_of_quiet (occasion : Occasion) : (ofText text).commands occasion =
    ((ofText text).tree.nodesOf .command).map (Command.ofTree (ofText text).index occasion) := by
  have hnone : (ofText text).syntaxDiagnostics = [] := by
    simp [syntaxDiagnostics, lexicalDiagnostics, grammarDiagnostics, hlexed, hparse,
      Diagnostic.sortByStart]
  rw [commands, hnone]
  rfl

end Quiet

section Command

variable {text : String} {node : Tree} (hparse : (ofText text).parse.reports = [])
  (hnode : node ∈ (ofText text).tree.nodesOf .command)

include hparse hnode

theorem exists_derived_command : ∃ before after,
    before ++ (node.tokens ++ after) = (lex text.toList).all ∧
      Syntax.Derives [.rule .command] (node.tokens ++ after) [node] after := by
  obtain ⟨commands, htree, hcommands⟩ := (Syntax.pad_iff rfl).mp (derives_of_quiet hparse)
  rw [nodesOf_padTree htree] at hnode
  obtain ⟨hmem, hcommand⟩ := List.mem_filter.mp hnode
  exact Syntax.exists_command_of_mem hcommands hmem hcommand

theorem spells_command : Spells (node.tokens.map Token.word) node.chars := by
  have hapart := (derives_of_quiet hparse).apart
  obtain ⟨before, after, hall, _⟩ := exists_derived_command hparse hnode
  refine spells_of_apart (fun token htoken => ?_) ?_
  · exact isWord_of_mem_lex hapart token (((commandNodes text).2 node hnode).lexed token htoken)
  · rw [← hall] at hapart
    exact hapart.right_of_append.left_of_append

-- The text of a command is a pad of one command, which differs in its places.
theorem exists_reread_command : (ofText node.text).lexed.reports = [] ∧
    (ofText node.text).parse.reports = [] ∧
      ∃ node', (ofText node.text).tree.nodesOf .command = [node'] ∧
        node'.unplaced = node.unplaced := by
  have hchars : node.text.toList = node.chars := String.toList_ofList
  obtain ⟨hwords, hlexed⟩ := (spells_command hparse hnode).lex
  obtain ⟨_, _, _, derived⟩ := exists_derived_command hparse hnode
  have hleaves : (lex node.chars).tokens.map Token.word =
      (Tree.tokensOf [node]).map Token.word := by simpa [Tree.tokensOf] using hwords
  obtain ⟨trees, derived, hsame⟩ := derived.elsewhere hleaves [.atEnd (lex node.chars).stop]
  obtain ⟨node', rfl, hnode'⟩ := List.map_eq_singleton_iff.mp hsame
  rw [← hchars] at derived hlexed
  obtain ⟨hreports, hnodes⟩ := nodesOf_of_derives derived
  exact ⟨hlexed, hreports, node', hnodes, hnode'⟩

end Command

-- Read on its own, the text of a command of a text without mistakes is this one
-- command, with the same to report. Only places may differ, and the moments and
-- ids of calls without an argument.
theorem commands_reread (text : String) (occasion again : Occasion)
    (hlexed : (ofText text).lexed.reports = []) (hparse : (ofText text).parse.reports = []) :
    List.Forall₂ (fun node command =>
        command = Command.ofTree (ofText text).index occasion node ∧
          (node.HasSettledArguments →
            ((ofText command.text).commands again).map Command.unplaced = [command.unplaced]))
      ((ofText text).tree.nodesOf .command) ((ofText text).commands occasion) := by
  rw [commands_of_quiet hlexed hparse, List.forall₂_map_right_iff, List.forall₂_same]
  refine fun node hnode => ⟨rfl, fun hsettled => ?_⟩
  obtain ⟨hlexed', hparse', node', hnodes, hnode'⟩ := exists_reread_command hparse hnode
  have hsettled' : node'.HasSettledArguments :=
    Tree.hasSettledArguments_unplaced.mp (hnode' ▸ Tree.hasSettledArguments_unplaced.mpr hsettled)
  have hcommands : (ofText (Command.ofTree (ofText text).index occasion node).text).commands again =
      [Command.ofTree (ofText node.text).index again node'] := by
    have hread := commands_of_quiet hlexed' hparse' again
    rwa [hnodes] at hread
  rw [hcommands, List.map_singleton,
    ← Command.ofTree_unplaced (ofText node.text).index (ofText node.text).index again again
      hsettled',
    hnode', Command.ofTree_unplaced (ofText text).index (ofText node.text).index occasion again
      hsettled]

-- Blanks and a comment go, and the day is one that is named.
theorem commands_reread_namedDay :
    ∃ command, (ofText "db.c . find(\x7b at: ISODate('2024-02-29') \x7d) /* all */ ;").commands
        ⟨⟨0, 0⟩, ⟨0⟩⟩ = [command] ∧
      command.text = "db.c.find(\x7bat:ISODate('2024-02-29')\x7d);" ∧
      ((ofText command.text).commands ⟨⟨1, 0⟩, ⟨1⟩⟩).map Command.unplaced =
        [command.unplaced] := by
  have hread := commands_reread "db.c . find(\x7b at: ISODate('2024-02-29') \x7d) /* all */ ;"
    ⟨⟨0, 0⟩, ⟨0⟩⟩ ⟨⟨1, 0⟩, ⟨1⟩⟩ (by decide +kernel) (by decide +kernel)
  have hsettled : ∀ node ∈ (ofText
      "db.c . find(\x7b at: ISODate('2024-02-29') \x7d) /* all */ ;").tree.nodesOf .command,
        node.HasSettledArguments := by decide +kernel
  have htexts : ((ofText "db.c . find(\x7b at: ISODate('2024-02-29') \x7d) /* all */ ;").commands
      ⟨⟨0, 0⟩, ⟨0⟩⟩).map Command.text =
        ["db.c.find(\x7bat:ISODate('2024-02-29')\x7d);"] := by decide +kernel
  obtain ⟨command, hcommand, htext⟩ := List.map_eq_singleton_iff.mp htexts
  rw [hcommand] at hread
  obtain ⟨node, nodes, ⟨_, hsame⟩, _, hnodes⟩ := List.forall₂_cons_right_iff.mp hread
  exact ⟨command, hcommand, htext, hsame (hsettled node (by simp [hnodes]))⟩

end Pad

end QueryPad
