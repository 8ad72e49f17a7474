import Mathlib.Data.List.TakeWhile
import QueryPad.Command.Extraction
import QueryPad.Proofs.Syntax.Scheme

-- What the trees of values, calls and commands hold: which tokens, and which
-- nodes. From it, where a reading of commands ends.
namespace QueryPad

namespace Tree

theorem nodesOfAll_eq_flatMap (rule : Rule) (trees : List Tree) :
    nodesOfAll rule trees = trees.flatMap (nodesOf rule) := by
  induction trees with
  | nil => rfl
  | cons tree trees ih => rw [nodesOfAll, ih, List.flatMap_cons]

@[simp] theorem nodesOfAll_append (rule : Rule) (a b : List Tree) :
    nodesOfAll rule (a ++ b) = nodesOfAll rule a ++ nodesOfAll rule b := by
  simp only [nodesOfAll_eq_flatMap, List.flatMap_append]

theorem nodesOfAll_eq_nil_of_leaves {rule : Rule} {trees : List Tree}
    (h : ∀ tree ∈ trees, tree.isLeaf) : nodesOfAll rule trees = [] := by
  induction trees with
  | nil => rfl
  | cons tree trees ih =>
    have hleaf := h tree (by simp)
    rw [nodesOfAll, ih fun t ht => h t (by simp [ht])]
    cases tree <;> simp [nodesOf, isLeaf] at hleaf ⊢

mutual

-- A node inside a tree holds tokens of the tree.
theorem mem_tokens_of_nodesOf {rule : Rule} {tree node : Tree} {token : Token}
    (hnode : node ∈ tree.nodesOf rule) (htoken : token ∈ node.tokens) : token ∈ tree.tokens := by
  cases tree with
  | terminal => simp [nodesOf] at hnode
  | error => simp [nodesOf] at hnode
  | node other start children =>
    rw [nodesOf] at hnode
    split at hnode
    · rcases List.mem_cons.mp hnode with rfl | hinside
      · exact htoken
      · exact mem_tokensOf_of_nodesOfAll hinside htoken
    · exact mem_tokensOf_of_nodesOfAll hnode htoken

theorem mem_tokensOf_of_nodesOfAll {rule : Rule} {trees : List Tree} {node : Tree} {token : Token}
    (hnode : node ∈ nodesOfAll rule trees) (htoken : token ∈ node.tokens) :
    token ∈ tokensOf trees := by
  cases trees with
  | nil => simp [nodesOfAll] at hnode
  | cons tree trees =>
    rw [tokensOf, List.mem_append]
    rcases List.mem_append.mp hnode with hhead | htail
    · exact .inl (mem_tokens_of_nodesOf hhead htoken)
    · exact .inr (mem_tokensOf_of_nodesOfAll htail htoken)

end

end Tree

namespace Syntax

variable {inp : Input}

-- Skipping stops before the end of the text.
theorem eq_error_of_mem_skipUntil {stops : TokenKind → Bool} {tree : Tree}
    (h : tree ∈ (Parsed.skipUntil inp stops).trees) :
    ∃ token : Token, token.kind ≠ .endOfText ∧ stops token.kind = false ∧ tree = .error token := by
  obtain ⟨token, hmem, rfl⟩ := List.mem_map.mp h
  obtain ⟨hend, hstop⟩ := by simpa using List.mem_takeWhile_imp hmem
  exact ⟨token, hend, hstop, rfl⟩

theorem isLeaf_of_mem_skipUntil {stops : TokenKind → Bool} {tree : Tree}
    (h : tree ∈ (Parsed.skipUntil inp stops).trees) : tree.isLeaf := by
  obtain ⟨token, -, -, rfl⟩ := eq_error_of_mem_skipUntil h
  rfl

-- Values and members hold no token that ends a command or the text.
theorem innerTokens : Invariant fun parsed =>
    ∀ token ∈ Tree.tokensOf parsed.trees, token.kind ≠ .semicolon ∧ token.kind ≠ .endOfText where
  nothing _ := by simp [Parsed.nothing, Tree.tokensOf]
  report _ _ := by simp [Parsed.report, Tree.tokensOf]
  append head tail := by
    intro token htoken
    rw [Parsed.append, Tree.tokensOf_append, List.mem_append] at htoken
    rcases htoken with hhead | htail
    · exact head token hhead
    · exact tail token htail
  underNode rule _ body := by simpa [Parsed.underNode, Tree.tokensOf, Tree.tokens] using body
  token := by
    intro inp taken _ hsemicolon hend
    simpa [Taken.parsed, Taken.andThen, Parsed.nothing, Tree.tokensOf, taken.tokens_tree] using
      ⟨hsemicolon, hend⟩
  skip inp kinds := by
    intro token htoken
    rw [Tree.tokensOf_eq_flatMap, List.mem_flatMap] at htoken
    obtain ⟨tree, htree, htoken⟩ := htoken
    obtain ⟨skipped, hend, hstop, rfl⟩ := eq_error_of_mem_skipUntil htree
    obtain rfl := List.mem_singleton.mp htoken
    refine ⟨fun hkind => ?_, hend⟩
    simp [hkind, sync] at hstop

theorem nodesOfAll_taken {taken : Taken inp} (h : Taken.next? inp = some taken) (rule : Rule) :
    Tree.nodesOfAll rule taken.parsed.trees = [] := by
  apply Tree.nodesOfAll_eq_nil_of_leaves
  simp [Taken.parsed, Taken.andThen, Parsed.nothing, Taken.tree_eq h, Tree.isLeaf]

theorem nodesOfAll_skipTo (inp : Input) (kinds : List TokenKind) (rule : Rule) :
    Tree.nodesOfAll rule (skipTo inp kinds).trees = [] := by
  apply Tree.nodesOfAll_eq_nil_of_leaves
  simp [skipTo, Parsed.skipUntil, Tree.isLeaf]

-- Values and members hold no command.
theorem innerNodes {rule : Rule} (hrule : rule.isOuter) : Invariant fun parsed =>
    Tree.nodesOfAll rule parsed.trees = [] where
  nothing _ := rfl
  report _ _ := rfl
  append head tail := by rw [Parsed.append, Tree.nodesOfAll_append, head, tail, List.append_nil]
  underNode := by
    intro inp parsed other hother body
    have hne : other ≠ rule := (Rule.ne_of_isOuter hrule hother).symm
    simp [Parsed.underNode, Tree.nodesOfAll, Tree.nodesOf, hne, body]
  token h _ _ := nodesOfAll_taken h rule
  skip inp kinds := nodesOfAll_skipTo inp kinds rule

structure IsInner (trees : List Tree) : Prop where
  tokens : ∀ token ∈ Tree.tokensOf trees, token.kind ≠ .semicolon ∧ token.kind ≠ .endOfText
  nodes (rule : Rule) : rule.isOuter → Tree.nodesOfAll rule trees = []

theorem commandBody_inner (inp : Input) : IsInner (commandBody inp).trees :=
  ⟨innerTokens.commandBody_holds inp, fun _ hrule => (innerNodes hrule).commandBody_holds inp⟩

-- What a list of commands is made of: commands, single semicolons, and tokens
-- that begin no command.
inductive CommandItem : Tree → Prop where
  | command {start : Nat} {db : Token} {body ending : List Tree} (hdb : db.kind = .db)
      (hbody : IsInner body)
      (hending : ending = [] ∨ ∃ token, token.kind = .semicolon ∧ ending = [.terminal token]) :
      CommandItem (.node .command start (.terminal db :: (body ++ ending)))
  | emptyCommand {start : Nat} {token : Token} (hkind : token.kind = .semicolon) :
      CommandItem (.node .emptyCommand start [.terminal token])
  | skipped {token : Token} (hkind : token.kind ≠ .endOfText) : CommandItem (.error token)

theorem nodesOfAll_ending {ending : List Tree}
    (h : ending = [] ∨ ∃ token : Token, token.kind = .semicolon ∧ ending = [.terminal token])
    (rule : Rule) : Tree.nodesOfAll rule ending = [] := by
  apply Tree.nodesOfAll_eq_nil_of_leaves
  rcases h with rfl | ⟨semicolon, _, rfl⟩
  · simp
  · simp [Tree.isLeaf]

-- Whatever stands inside a command holds no token that ends one.
theorem CommandItem.kinds_of_nodesOf {tree node : Tree} {rule : Rule} (item : CommandItem tree)
    (hrule : ¬ rule.isOuter) (hnode : node ∈ tree.nodesOf rule) :
    ∀ token ∈ node.tokens, token.kind ≠ .semicolon ∧ token.kind ≠ .endOfText := by
  cases item with
  | @command start db body ending hdb hbody hending =>
    have hleaves := nodesOfAll_ending hending rule
    have hne : Rule.command ≠ rule := Rule.ne_of_isOuter rfl hrule
    have hinside : node ∈ Tree.nodesOfAll rule body := by
      simpa [Tree.nodesOf, Tree.nodesOfAll, hne, hleaves] using hnode
    exact fun token htoken => hbody.tokens token (Tree.mem_tokensOf_of_nodesOfAll hinside htoken)
  | emptyCommand =>
    have hne : Rule.emptyCommand ≠ rule := Rule.ne_of_isOuter rfl hrule
    simp [Tree.nodesOf, Tree.nodesOfAll, hne] at hnode
  | skipped => simp [Tree.nodesOf] at hnode

theorem optional_trees (inp : Input) (kind : TokenKind) :
    (Parsed.optional inp kind).trees = [] ∨
      ∃ token, token.kind = kind ∧ (Parsed.optional inp kind).trees = [.terminal token] := by
  rw [Parsed.optional]
  split
  · next taken h =>
    obtain ⟨hnext, hkind⟩ := Taken.first?_eq_some_iff.mp h
    refine .inr ⟨taken.token, of_decide_eq_true hkind, ?_⟩
    simp [Taken.parsed, Taken.andThen, Parsed.nothing, Taken.tree_eq hnext]
  · exact .inl rfl

theorem isLeaf_of_mem_optional {kind : TokenKind} {tree : Tree}
    (h : tree ∈ (Parsed.optional inp kind).trees) : tree.isLeaf := by
  rcases optional_trees inp kind with hnone | ⟨token, -, hsome⟩
  · simp [hnone] at h
  · rw [hsome] at h
    obtain rfl := List.mem_singleton.mp h
    rfl

theorem command_trees {db : Taken inp} (h : Taken.next? inp = some db) :
    (command db).trees = [.node .command inp.current.start (.terminal db.token ::
      ((commandBody db.rest).trees ++
        (Parsed.optional (commandBody db.rest).rest .semicolon).trees))] := by
  rw [← Taken.tree_eq h]
  rfl

theorem emptyCommand_trees {semicolon : Taken inp} (h : Taken.next? inp = some semicolon) :
    (emptyCommand semicolon).trees =
      [.node .emptyCommand inp.current.start [.terminal semicolon.token]] := by
  rw [← Taken.tree_eq h]
  rfl

theorem commandItem_items {token : Taken inp} (h : Taken.next? inp = some token)
    (hend : token.token.kind ≠ .endOfText) :
    ∀ tree ∈ (commandItem token).trees, CommandItem tree := by
  intro tree htree
  rw [commandItem] at htree
  split at htree
  · next hkind =>
    rw [command_trees h] at htree
    obtain rfl := List.mem_singleton.mp htree
    exact .command hkind (commandBody_inner _) (optional_trees _ _)
  · next hkind =>
    rw [emptyCommand_trees h] at htree
    obtain rfl := List.mem_singleton.mp htree
    exact .emptyCommand hkind
  · rcases List.mem_cons.mp htree with rfl | hskipped
    · exact .skipped hend
    · obtain ⟨skipped, hkind, _, rfl⟩ := eq_error_of_mem_skipUntil hskipped
      exact .skipped hkind

theorem commandList_items (inp : Input) : ∀ tree ∈ (commandList inp).trees, CommandItem tree := by
  fun_induction commandList inp with
  | case1 | case2 => simp [Parsed.nothing]
  | case3 inp token h hend ih => exact List.forall_mem_append.mpr ⟨commandItem_items h hend, ih⟩

end Syntax

end QueryPad

-- The literals of a text begin with the bracket that opens them.
namespace QueryPad.Syntax

open QueryPad.Tree

variable {inp : Input}

-- What stands in the commands of a text was read for one of them.
theorem exists_body_of_nodesOf_item {token : Taken inp} {rule : Rule} {node : Tree}
    (h : Taken.next? inp = some token) (hrule : ¬ rule.isOuter)
    (hnode : node ∈ nodesOfAll rule (commandItem token).trees) :
    ∃ mid, node ∈ nodesOfAll rule (commandBody mid).trees := by
  rw [commandItem] at hnode
  split at hnode
  · have hne : Rule.command ≠ rule := Rule.ne_of_isOuter rfl hrule
    have hending := nodesOfAll_ending
      (optional_trees (commandBody token.rest).rest .semicolon) rule
    rw [command_trees h] at hnode
    simp only [nodesOfAll, nodesOf, hne, if_false, nodesOfAll_append, hending, List.append_nil,
      List.nil_append] at hnode
    exact ⟨token.rest, hnode⟩
  · have hne : Rule.emptyCommand ≠ rule := Rule.ne_of_isOuter rfl hrule
    rw [emptyCommand_trees h] at hnode
    simp [nodesOfAll, nodesOf, hne] at hnode
  · have hleaves : ∀ tree ∈ (noCommand token).trees, tree.isLeaf := by
      exact List.forall_mem_cons.mpr ⟨rfl, fun _ => isLeaf_of_mem_skipUntil⟩
    rw [nodesOfAll_eq_nil_of_leaves hleaves] at hnode
    simp at hnode

theorem exists_body_of_nodesOf {rule : Rule} {node : Tree} (inp : Input) (hrule : ¬ rule.isOuter)
    (hnode : node ∈ nodesOfAll rule (commandList inp).trees) :
    ∃ mid, node ∈ nodesOfAll rule (commandBody mid).trees := by
  fun_induction commandList inp with
  | case1 | case2 => simp [Parsed.nothing, nodesOfAll] at hnode
  | case3 inp token h hend ih =>
    rw [Parsed.append_trees, nodesOfAll_append] at hnode
    rcases List.mem_append.mp hnode with hhead | htail
    · exact exists_body_of_nodesOf_item h hrule hhead
    · exact ih htail

-- Whether the literals among some trees begin as they should.
def AreOpened (trees : List Tree) : Prop :=
  ∀ rule kind, rule.opening? = some kind → ∀ node ∈ nodesOfAll rule trees,
    ∀ first ∈ node.tokens.head?, first.kind = kind

theorem AreOpened.of_none {trees : List Tree} (h : ∀ rule, nodesOfAll rule trees = []) :
    AreOpened trees := by
  intro rule kind _ node hnode
  simp [h rule] at hnode

theorem AreOpened.underNode {rule : Rule} {parsed : Parsed inp} (body : AreOpened parsed.trees)
    (hopening : ∀ kind, rule.opening? = some kind → inp.peek = kind) :
    AreOpened (parsed.underNode rule).trees := by
  intro other kind hkind node hnode
  rw [Parsed.underNode_trees, nodesOfAll, nodesOfAll, List.append_nil, nodesOf] at hnode
  split at hnode
  · next hself =>
    subst hself
    rcases List.mem_cons.mp hnode with rfl | hinside
    · intro first hfirst
      obtain ⟨rest, hrest⟩ := List.head?_eq_some_iff.mp hfirst
      have hahead : inp.ahead = first :: (rest ++ parsed.rest.ahead) := by
        rw [← parsed.lossless, show tokensOf parsed.trees = _ from hrest, List.cons_append]
      have hpeek : inp.peek = first.kind := by simp [Input.peek, Input.nth, hahead]
      exact hpeek.symm.trans (hopening kind hkind)
    · exact body _ kind hkind node hinside
  · exact body other kind hkind node hnode

theorem opened : Scheme fun _ _ _ _ parsed => AreOpened parsed.trees where
  nothing _ _ := .of_none fun _ => rfl
  noName _ _ _ := .of_none fun _ => rfl
  report _ _ _ := .of_none fun _ => rfl
  append head tail := by
    intro rule kind hkind node hnode
    rw [Parsed.append_trees, nodesOfAll_append, List.mem_append] at hnode
    exact hnode.elim (head rule kind hkind node) (tail rule kind hkind node)
  underNode _ _ hplaces body := body.underNode hplaces.opening
  valueNode _ inner _ _ hinner body := by
    refine body.underNode fun kind hkind => ?_
    cases inner <;> simp [isValueRule, Rule.opening?] at hinner hkind
  token h _ := .of_none (nodesOfAll_taken h)
  brace h _ := .of_none (nodesOfAll_taken h)
  comma h _ := .of_none (nodesOfAll_taken h)
  name h _ := by
    rw [Taken.parsed_underNode]
    exact AreOpened.underNode (.of_none (nodesOfAll_taken h)) (by simp [Rule.opening?])
  skip _ inp kinds := .of_none (nodesOfAll_skipTo inp kinds)

theorem commandList_opened (inp : Input) : AreOpened (commandList inp).trees := by
  intro rule kind hkind node hnode
  have hrule : ¬ rule.isOuter := by cases rule <;> simp [Rule.opening?] at hkind <;> decide
  obtain ⟨mid, hmid⟩ := exists_body_of_nodesOf inp hrule hnode
  exact opened.commandBody_holds mid rule kind hkind node hmid

end QueryPad.Syntax
