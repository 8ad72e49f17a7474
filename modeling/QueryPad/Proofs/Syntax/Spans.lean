import QueryPad.Proofs.Syntax.Lossless
import QueryPad.Proofs.Token.Lexer

-- Where the nodes of a tree begin and end in the text.
namespace QueryPad

namespace Tree

mutual

-- Each node begins with its first token, and a value that was read has one.
def Anchored : Tree → Prop
  | .node rule start children =>
    (∀ first ∈ (tokensOf children).head?, first.start = start) ∧
      (Syntax.isValueRule rule → ∀ child ∈ children, child.tokens ≠ []) ∧ AllAnchored children
  | _ => True

def AllAnchored : List Tree → Prop
  | [] => True
  | tree :: trees => tree.Anchored ∧ AllAnchored trees

end

theorem allAnchored_iff {trees : List Tree} :
    AllAnchored trees ↔ ∀ tree ∈ trees, tree.Anchored := by
  induction trees with
  | nil => simp [AllAnchored]
  | cons tree trees ih => simp [AllAnchored, ih]

theorem allAnchored_append {a b : List Tree} :
    AllAnchored (a ++ b) ↔ AllAnchored a ∧ AllAnchored b := by
  simp only [allAnchored_iff, List.mem_append, or_imp, forall_and]

theorem anchored_of_isLeaf {tree : Tree} (h : tree.isLeaf) : tree.Anchored := by
  cases tree with
  | node => simp [isLeaf] at h
  | _ => trivial

section Span

variable {tree : Tree}

theorem exists_first (h : tree.Anchored) (htokens : tree.tokens ≠ []) :
    ∃ first ∈ tree.tokens, tree.span.start = first.start := by
  cases tree with
  | terminal token => exact ⟨token, by simp [tokens], rfl⟩
  | error token => exact ⟨token, by simp [tokens], rfl⟩
  | node rule start children =>
    have hfirst := List.head?_eq_some_head htokens
    exact ⟨_, List.head_mem htokens, (h.1 _ hfirst).symm⟩

theorem exists_last (htokens : tree.tokens ≠ []) :
    ∃ last ∈ tree.tokens, tree.span.stop = last.stop := by
  have hlast := List.getLast?_eq_some_getLast htokens
  exact ⟨_, List.getLast_mem htokens, by simp [span, hlast]⟩

end Span

end Tree

namespace Syntax

open QueryPad.Tree

variable {inp : Input}

theorem start_of_head? {parsed : Parsed inp} :
    ∀ first ∈ (tokensOf parsed.trees).head?, first.start = inp.current.start := by
  intro first hfirst
  obtain ⟨rest, hrest⟩ := List.head?_eq_some_iff.mp hfirst
  have hahead : inp.ahead = first :: (rest ++ parsed.rest.ahead) := by
    rw [← parsed.lossless, hrest, List.cons_append]
  rw [Input.current, hahead, List.headD_cons]

theorem underNode_anchored {rule : Rule} {parsed : Parsed inp} (hrule : ¬ isValueRule rule)
    (body : AllAnchored parsed.trees) : AllAnchored (parsed.underNode rule).trees :=
  ⟨⟨start_of_head?, fun h => absurd h hrule, body⟩, trivial⟩

theorem skipUntil_anchored (inp : Input) (stops : TokenKind → Bool) :
    AllAnchored (Parsed.skipUntil inp stops).trees := by
  refine allAnchored_iff.mpr fun tree htree => anchored_of_isLeaf ?_
  exact isLeaf_of_mem_skipUntil htree

theorem taken_anchored {taken : Taken inp} (h : Taken.next? inp = some taken) :
    AllAnchored taken.parsed.trees :=
  ⟨anchored_of_isLeaf (by rw [Taken.tree_eq h]; rfl), trivial⟩

theorem tokens_ne_nil_of_mem_andThen {rule : Rule} {taken : Taken inp}
    {next : (mid : Input) → mid.size < inp.size → Parsed mid} :
    ∀ tree ∈ ((taken.andThen next).underNode rule).trees, tree.tokens ≠ [] := by
  intro tree htree
  obtain rfl := List.mem_singleton.mp htree
  simp [Taken.andThen, Tree.tokens, tokensOf, taken.tokens_tree]

-- What is read of a value is a node with tokens, or tokens that are none.
theorem tokens_ne_nil_of_mem_value (inp : Input) :
    ∀ tree ∈ (value inp).trees, tree.tokens ≠ [] := by
  have hnone : ∀ tree ∈ (noValue inp).trees, tree.tokens ≠ [] := by
    intro tree htree
    rw [noValue, Parsed.andThen, Parsed.append_trees] at htree
    rcases List.mem_append.mp htree with hreport | hskipped
    · simp [Parsed.report] at hreport
    · split at hskipped
      · simp [Parsed.nothing] at hskipped
      · obtain ⟨token, _, _, rfl⟩ := eq_error_of_mem_skipUntil hskipped
        simp [Tree.tokens]
  rw [value]
  split
  · exact hnone
  · split
    · rw [objectLiteral]
      exact tokens_ne_nil_of_mem_andThen
    · rw [arrayLiteral]
      exact tokens_ne_nil_of_mem_andThen
    · rw [functionCall]
      exact tokens_ne_nil_of_mem_andThen
    · split
      · exact tokens_ne_nil_of_mem_andThen
      · exact hnone

theorem anchored : Scheme fun _ _ _ _ parsed => AllAnchored parsed.trees where
  nothing _ _ := trivial
  noName _ _ := fun _ => trivial
  report _ _ _ := trivial
  append head tail := allAnchored_append.mpr ⟨head, tail⟩
  underNode _ _ hplaces body := underNode_anchored hplaces.notAlone body
  valueNode _ _ inp _ _ body :=
    ⟨⟨start_of_head?, fun _ => tokens_ne_nil_of_mem_value inp, body⟩, trivial⟩
  token h _ := taken_anchored h
  brace h _ := taken_anchored h
  comma h _ := taken_anchored h
  name h _ := by
    rw [Taken.parsed_underNode]
    exact underNode_anchored (by decide) (taken_anchored h)
  skip _ inp _ := skipUntil_anchored inp _

theorem command_anchored {db : Taken inp} (h : Taken.next? inp = some db) :
    AllAnchored (command db).trees := by
  have hending : AllAnchored (Parsed.optional (commandBody db.rest).rest .semicolon).trees := by
    refine allAnchored_iff.mpr fun tree htree => anchored_of_isLeaf ?_
    exact isLeaf_of_mem_optional htree
  refine underNode_anchored (by decide) ?_
  rw [Taken.andThen_eq_append]
  exact allAnchored_append.mpr ⟨taken_anchored h,
    allAnchored_append.mpr ⟨anchored.commandBody_holds db.rest, hending⟩⟩

theorem commandItem_anchored {token : Taken inp} (h : Taken.next? inp = some token) :
    AllAnchored (commandItem token).trees := by
  rw [commandItem]
  split
  · exact command_anchored h
  · exact underNode_anchored (by decide) (taken_anchored h)
  · exact ⟨trivial, skipUntil_anchored _ _⟩

theorem commandList_anchored (inp : Input) : AllAnchored (commandList inp).trees := by
  fun_induction commandList inp with
  | case1 | case2 => trivial
  | case3 inp token h hend ih => exact allAnchored_append.mpr ⟨commandItem_anchored h, ih⟩

-- The commands among the items of a text.
theorem CommandItem.nodesOf_command {tree : Tree} (item : CommandItem tree) :
    tree.nodesOf .command = if tree.is .command then [tree] else [] := by
  cases item with
  | @command start db body ending hdb hbody hending =>
    have hleaves := nodesOfAll_ending hending .command
    have hnone : nodesOfAll .command body = [] := hbody.nodes .command rfl
    simp [nodesOf, nodesOfAll, hleaves, hnone, Tree.is, Tree.rule?]
  | emptyCommand => simp [nodesOf, nodesOfAll, Tree.is, Tree.rule?]
  | skipped => simp [nodesOf, Tree.is, Tree.rule?]

theorem nodesOfAll_command {trees : List Tree} (items : ∀ tree ∈ trees, CommandItem tree) :
    nodesOfAll .command trees = trees.filter (·.is .command) := by
  induction trees with
  | nil => rfl
  | cons tree trees ih =>
    rw [nodesOfAll, (items tree (by simp)).nodesOf_command, ih fun t ht => items t (by simp [ht]),
      List.filter_cons]
    split <;> rfl

end Syntax

namespace Pad

-- A command of a text: it begins with the word that marks one, and its tokens
-- come in the order of the text.
structure IsCommandNode (text : String) (node : Tree) : Prop where
  anchored : node.Anchored
  ordered : node.tokens.Pairwise fun a b => a.stop ≤ b.start
  lexed : ∀ token ∈ node.tokens, token ∈ (lex text.toList).tokens
  command : ∃ start db children, db.kind = .db ∧
    node = .node .command start (.terminal db :: children)

namespace IsCommandNode

variable {text : String} {node : Tree} {token : Token}

theorem tokens_ne_nil (h : IsCommandNode text node) : node.tokens ≠ [] := by
  obtain ⟨start, db, children, _, rfl⟩ := h.command
  simp [Tree.tokens, Tree.tokensOf]

theorem stop_le (h : IsCommandNode text node) (htoken : token ∈ node.tokens) :
    token.stop ≤ node.span.stop := by
  have hlast := List.getLast?_eq_some_getLast h.tokens_ne_nil
  have hstop : node.span.stop = (node.tokens.getLast h.tokens_ne_nil).stop := by
    simp [Tree.span, hlast]
  have hordered := h.ordered
  rw [← List.dropLast_concat_getLast h.tokens_ne_nil, List.pairwise_append] at hordered
  rw [← List.dropLast_concat_getLast h.tokens_ne_nil, List.mem_append] at htoken
  rw [hstop]
  rcases htoken with hbefore | hself
  · have hlt := start_lt_stop_of_mem_lex (h.lexed _ (List.getLast_mem h.tokens_ne_nil))
    have := hordered.2.2 token hbefore _ (List.mem_singleton_self _)
    omega
  · rw [List.mem_singleton.mp hself]

-- The word that begins a command stands before all its calls.
theorem start_lt_of_mem_calls {call : Tree} (h : IsCommandNode text node)
    (hcall : call ∈ node.calls) (htoken : token ∈ call.tokens) : node.span.start < token.start := by
  obtain ⟨hanchored, hordered, hlexed, start, db, children, _, rfl⟩ := h
  have hstart : db.start = start := hanchored.1 db rfl
  have hcall : call ∈ children := by
    have hmem := List.mem_filter.mp hcall
    rcases List.mem_cons.mp hmem.1 with rfl | hmem
    · simp [Tree.is, Tree.rule?] at hmem
    · exact hmem
  have htoken : token ∈ Tree.tokensOf children := by
    rw [Tree.tokensOf_eq_flatMap]
    exact List.mem_flatMap.mpr ⟨call, hcall, htoken⟩
  have hlt := start_lt_stop_of_mem_lex (hlexed db (by simp [Tree.tokens, Tree.tokensOf]))
  have hle := (List.pairwise_cons.mp hordered).1 token htoken
  show start < token.start
  omega

theorem span_le (h : IsCommandNode text node) : node.span.start ≤ node.span.stop := by
  obtain ⟨first, hfirst, hstart⟩ := Tree.exists_first h.anchored h.tokens_ne_nil
  have hlt := start_lt_stop_of_mem_lex (h.lexed first hfirst)
  have hle := h.stop_le hfirst
  omega

end IsCommandNode

theorem nodesOf_command (text : String) : (ofText text).tree.nodesOf .command =
    (Syntax.commandList ⟨(lex text.toList).all, false⟩).trees.filter (·.is .command) := by
  rw [← Syntax.nodesOfAll_command (Syntax.commandList_items _), ofText, tree, parse_eq]
  simp [Syntax.padTree, Tree.nodesOf, Tree.nodesOfAll]

theorem commandNodes (text : String) :
    ((ofText text).tree.nodesOf .command).Pairwise (fun a b =>
        ∀ token ∈ a.tokens, ∀ token' ∈ b.tokens, token.stop ≤ token'.start) ∧
      ∀ node ∈ (ofText text).tree.nodesOf .command, IsCommandNode text node := by
  have hread := (Syntax.commandList_lex text.toList).1
  have hitems := Syntax.commandList_items ⟨(lex text.toList).all, false⟩
  have hanchored := Syntax.commandList_anchored ⟨(lex text.toList).all, false⟩
  have hordered := lex_ordered text.toList
  rw [← hread, Tree.tokensOf_eq_flatMap, List.pairwise_flatMap] at hordered
  rw [nodesOf_command]
  refine ⟨hordered.2.filter _, fun node hnode => ?_⟩
  obtain ⟨hnode, hrule⟩ := List.mem_filter.mp hnode
  refine ⟨Tree.allAnchored_iff.mp hanchored node hnode, hordered.1 node hnode, ?_, ?_⟩
  · intro token htoken
    rw [← hread, Tree.tokensOf_eq_flatMap]
    exact List.mem_flatMap.mpr ⟨node, hnode, htoken⟩
  · cases hitems node hnode with
    | @command start db body ending hdb => exact ⟨start, db, _, hdb, rfl⟩
    | emptyCommand => simp [Tree.is, Tree.rule?] at hrule
    | skipped => simp [Tree.is, Tree.rule?] at hrule

end Pad

end QueryPad
