import QueryPad.Proofs.Checked.Nodes
import QueryPad.Proofs.Completion.Context
import QueryPad.Proofs.Syntax.Numbers
import QueryPad.Proofs.Syntax.Starts

-- What the table of a text says of a node by its number is what the tree says
-- of the place: no number and no cut is out of range.
namespace QueryPad

open Text

namespace Tree

theorem isLeaf_nodeKind (tree : Tree) : tree.nodeKind.isLeaf = tree.token?.isSome := by
  cases tree <;> rfl

end Tree

namespace Pad

variable (text : String)

theorem allTokens_eq : (lex text.toList).all =
    (lex text.toList).tokens ++ [.atEnd (byteSize text.toList)] := rfl

theorem nodes_tokens : (ofText text).nodes.tokens = (lex text.toList).all := rfl

theorem tokens_tree : (ofText text).tree.tokens = (lex text.toList).all :=
  Syntax.tokens_parseTokens (fun _ => kind_ne_endOfText_of_mem_lex) rfl

-- A token of a text lies between two cuts of it.
theorem exists_split_of_mem_all {token : Token} (h : token ∈ (lex text.toList).all) :
    ∃ before after, text.toList = before ++ (token.chars ++ after) ∧
      token.start = byteSize before := by
  rcases List.mem_append.mp h with hinside | hend
  · exact exists_split_of_mem_lex hinside
  · obtain rfl := List.mem_singleton.mp hend
    exact ⟨text.toList, [], by simp [Token.atEnd], rfl⟩

theorem all_ordered : (lex text.toList).all.Pairwise fun a b => a.stop ≤ b.start := by
  rw [allTokens_eq, List.pairwise_append]
  refine ⟨lex_ordered _, List.pairwise_singleton _ _, fun token htoken last hlast => ?_⟩
  obtain rfl := List.mem_singleton.mp hlast
  obtain ⟨before, after, htext, hstart⟩ := exists_split_of_mem_lex htoken
  have hsize := congrArg byteSize htext
  rw [byteSize_append, byteSize_append] at hsize
  show token.start + byteSize token.chars ≤ byteSize text.toList
  omega

theorem length_rows :
    (ofText text).nodes.rows.length = (ofText text).tree.count := by
  show (ofText text).tree.table.length = _
  rw [Tree.table_eq, List.length_map, Tree.arena, Tree.length_entriesFrom]

-- Every row of the table is that of a place.
theorem exists_place (id : Fin (ofText text).nodes.rows.length) :
    ∃ focus : Focus, Focus.Under (.root (ofText text).tree) focus ∧ focus.number = id := by
  apply Focus.exists_place
  rw [Tree.arena, Tree.length_entriesFrom, ← length_rows]
  exact id.isLt

variable {text} {focus : Focus} (h : Focus.Under (.root (ofText text).tree) focus)

include h

theorem tokens_leading :
    focus.tree.tokens <+: (lex text.toList).all.drop focus.tokensBefore := by
  apply h.tokens_leading
  exact tokens_tree text ▸ List.prefix_refl _

theorem placed : focus.tree.Placed ((lex text.toList).all.drop focus.tokensBefore) := by
  apply h.placed
  show (ofText text).tree.Placed (lex text.toList).all
  rw [tree_eq]
  exact ⟨rfl, ⟨rfl, Syntax.commandList_placed ⟨(lex text.toList).all, false⟩⟩, trivial, trivial⟩

-- Some token stands where a node begins, if only the end of the text.
theorem tokensBefore_lt : focus.tokensBefore < (lex text.toList).all.length := by
  have hlength : (lex text.toList).all.length = (lex text.toList).tokens.length + 1 := by
    rw [allTokens_eq, List.length_append]
    rfl
  have hcommands := congrArg List.length (tokens_commandsFocus text)
  rw [tree_eq] at h
  rcases h.descend with rfl | ⟨index, child, hchild, hbelow⟩
  · show 0 < _
    omega
  · match index, hchild with
    | 0, hchild =>
      obtain rfl := Option.some.inj hchild
      have hle := hbelow.tokensBefore_le
      change focus.tokensBefore + _ ≤ 0 + (commandsFocus text).tree.tokens.length at hle
      omega
    | 1, hchild =>
      -- the end of the text is behind all commands
      obtain rfl := Option.some.inj hchild
      have hbefore : focus.tokensBefore ≤ (commandsFocus text).tree.tokens.length := by
        rcases hbelow.descend with rfl | ⟨index, child, hnone, _⟩
        · show (Tree.tokensOf [(commandsFocus text).tree]).length + 0 ≤ _
          rw [Tree.tokensOf, Tree.tokensOf, List.append_nil]
          exact Nat.le_refl _
        · simp [Tree.children] at hnone
      omega

theorem exists_firstToken : ∃ token, (lex text.toList).all[focus.tokensBefore]? = some token ∧
    token.start = focus.tree.start := by
  have hlt := tokensBefore_lt h
  have hdrop := List.drop_eq_getElem_cons hlt
  refine ⟨_, List.getElem?_eq_getElem hlt, ?_⟩
  cases htree : focus.tree with
  | terminal token | error token =>
    have hlead := tokens_leading h
    rw [htree, hdrop, Tree.tokens, List.cons_prefix_cons] at hlead
    rw [← hlead.1]
    rfl
  | node rule start children =>
    have hplaced := placed h
    rw [htree, hdrop] at hplaced
    exact hplaced.1.symm

-- There are nodes enough for every way down from a place and up from it.
theorem fits_rows : focus.tree.count ≤ (ofText text).nodes.rows.length ∧
    focus.above.length < (ofText text).nodes.rows.length := by
  have hfits := h.fits
  have hpos := focus.tree.count_pos
  rw [length_rows]
  omega

section Family

theorem nodes_row : (ofText text).nodes.row focus.number =
    .ok ⟨focus.tree.nodeKind, focus.parent?.map Focus.number, focus.children.map Focus.number,
      focus.tokensBefore, lastFrom focus.tokensBefore focus.tree.tokens.length⟩ :=
  Checked.item_eq (Tree.getElem?_table h.entry)

theorem nodes_kind : (ofText text).nodes.kind focus.number = .ok focus.tree.nodeKind := by
  rw [NodeTable.kind, nodes_row h]
  rfl

theorem nodes_isRule (rule : Rule) :
    (ofText text).nodes.isRule rule focus.number = .ok (focus.tree.is rule) := by
  rw [NodeTable.isRule, nodes_kind h]
  cases focus.tree <;> simp [Tree.nodeKind, Tree.is, Tree.rule?]

theorem nodes_parent? : (ofText text).nodes.parent? focus.number =
    .ok (focus.parent?.map Focus.number) := by
  rw [NodeTable.parent?, nodes_row h]
  rfl

theorem nodes_parentOf? (rule : Rule) : (ofText text).nodes.parentOf? rule focus.number =
    .ok ((focus.parent?.filter (·.tree.is rule)).map Focus.number) := by
  rw [NodeTable.parentOf?, nodes_parent? h]
  cases hparent : focus.parent? with
  | none => rfl
  | some parent =>
    have habove := (h.parent? hparent).1
    rw [Option.map_some, Checked.ok_bind]
    dsimp only
    rw [nodes_isRule habove, Checked.ok_bind, Option.filter_some]
    cases parent.tree.is rule <;> rfl

theorem nodes_children : (ofText text).nodes.children focus.number =
    .ok (focus.children.map Focus.number) := by
  rw [NodeTable.children, nodes_row h]
  rfl

theorem nodes_child? (index : Nat) : (ofText text).nodes.child? focus.number index =
    .ok (focus.children[index]?.map Focus.number) := by
  rw [NodeTable.child?, nodes_children h, Checked.ok_bind, List.getElem?_map]
  rfl

theorem nodes_childOf? (rule : Rule) : (ofText text).nodes.childOf? rule focus.number =
    .ok ((focus.childOf? rule).map Focus.number) := by
  rw [NodeTable.childOf?, nodes_children h, Checked.ok_bind]
  exact Checked.findM?_map fun child hchild => nodes_isRule (h.mem_children hchild) rule

theorem nodes_childrenOf (rule : Rule) : (ofText text).nodes.childrenOf rule focus.number =
    .ok ((focus.childrenOf rule).map Focus.number) := by
  rw [NodeTable.childrenOf, nodes_children h, Checked.ok_bind]
  exact Checked.filterM_map fun child hchild => nodes_isRule (h.mem_children hchild) rule

theorem nodes_previousSibling? : (ofText text).nodes.previousSibling? focus.number =
    .ok (focus.previousSibling?.map Focus.number) := by
  rw [NodeTable.previousSibling?, nodes_parent? h, Checked.ok_bind]
  obtain ⟨tree, above⟩ := focus
  cases above with
  | nil => rfl
  | cons head above =>
    obtain ⟨outer, index⟩ := head
    obtain ⟨habove, hmem⟩ := h.parent? rfl
    obtain ⟨_, hchild⟩ := h.climb.resolve_left (by simp [Focus.root])
    have hnumber (other : Nat) : (((⟨outer, above⟩ : Focus).children.map Focus.number)[other]?) =
        outer.children[other]?.map fun sibling =>
          Focus.number ⟨sibling, (outer, other) :: above⟩ := by
      rw [List.getElem?_map, Focus.children, List.getElem?_mapIdx, Option.map_map]
      rfl
    have hself := (hnumber index).trans (by rw [hchild, Option.map_some])
    dsimp only [Focus.parent?, Option.map_some]
    rw [nodes_children habove, Checked.ok_bind,
      Checked.itemBefore?_eq (Focus.number_children_increasing _) hself]
    cases index with
    | zero => rfl
    | succ index =>
      rw [if_neg (Nat.succ_ne_zero _), Nat.add_sub_cancel, hnumber, Focus.previousSibling?,
        Option.map_map]
      rfl

theorem nodes_ancestors (depth : Nat) (hdepth : focus.above.length < depth) :
    (ofText text).nodes.ancestors depth focus.number =
      .ok (focus.ancestors.map Focus.number) := by
  induction depth generalizing focus with
  | zero => omega
  | succ depth ih =>
    rw [NodeTable.ancestors, nodes_parent? h, Checked.ok_bind]
    obtain ⟨tree, above⟩ := focus
    cases above with
    | nil => rfl
    | cons head above =>
      obtain ⟨outer, index⟩ := head
      have habove := (h.parent? rfl).1
      dsimp only [Focus.parent?, Option.map_some]
      rw [ih habove (by simpa using hdepth)]
      rfl

end Family

section Contents

theorem nodes_token? : (ofText text).nodes.token? focus.number = .ok focus.tree.token? := by
  rw [NodeTable.token?, nodes_row h, Checked.ok_bind]
  cases htree : focus.tree with
  | node rule start children => rfl
  | terminal token | error token =>
    have hlead := tokens_leading h
    rw [htree, Tree.tokens, List.drop_eq_getElem_cons (tokensBefore_lt h),
      List.cons_prefix_cons] at hlead
    rw [hlead.1]
    exact congrArg Except.ok (List.getElem?_eq_getElem (tokensBefore_lt h))

theorem nodes_isTerminal (kind : TokenKind) :
    (ofText text).nodes.isTerminal kind focus.number = .ok (focus.tree.isTerminal kind) := by
  rw [NodeTable.isTerminal, nodes_token? h, Checked.ok_bind, nodes_kind h, Checked.ok_bind]
  cases focus.tree <;> simp [Tree.nodeKind, Tree.token?, Tree.isTerminal]

theorem nodes_isConsumed :
    (ofText text).nodes.isConsumed focus.number = .ok focus.tree.isConsumed := by
  rw [NodeTable.isConsumed, nodes_row h, Checked.ok_bind, Tree.isConsumed, lastFrom]
  cases focus.tree.tokens <;> rfl

theorem nodes_lastToken? :
    (ofText text).nodes.lastToken? focus.number = .ok focus.tree.tokens.getLast? := by
  obtain ⟨after, hafter⟩ := tokens_leading h
  rw [NodeTable.lastToken?, nodes_row h, Checked.ok_bind, lastFrom]
  cases htokens : focus.tree.tokens with
  | nil => rfl
  | cons first rest =>
    have hlast : (lex text.toList).all[focus.tokensBefore + rest.length]? =
        (first :: rest).getLast? := by
      rw [← List.getElem?_drop, ← hafter, htokens, List.getElem?_append_left (by simp),
        List.getLast?_eq_getElem?]
      rfl
    rw [List.getLast?_eq_some_getLast (List.cons_ne_nil _ _)] at hlast ⊢
    rw [if_neg (by simp), List.length_cons, ← Nat.add_assoc, Nat.add_sub_cancel]
    dsimp only
    rw [nodes_tokens, Checked.item_eq hlast]
    rfl

theorem nodes_firstToken : ∃ first,
    (ofText text).nodes.firstToken focus.number = .ok first ∧
      first.start = focus.tree.start ∧ first ∈ (lex text.toList).all ∧
      ∀ token ∈ focus.tree.tokens.head?, token = first := by
  obtain ⟨first, hfirst, hstart⟩ := exists_firstToken h
  have hlt := tokensBefore_lt h
  have hne : (lex text.toList).all ≠ [] := by simp [allTokens_eq]
  have hself : (lex text.toList).all[focus.tokensBefore] = first :=
    Option.some.inj ((List.getElem?_eq_getElem hlt).symm.trans hfirst)
  refine ⟨first, ?_, hstart, List.mem_of_getElem? hfirst, fun token htoken => ?_⟩
  · rw [NodeTable.firstToken, nodes_row h, Checked.ok_bind,
      nodes_tokens, Checked.current_eq hne,
      List.drop_eq_getElem_cons hlt, List.headD_cons, hself]
  · obtain ⟨rest, hrest⟩ := List.head?_eq_some_iff.mp htoken
    have hlead := tokens_leading h
    rw [hrest, List.drop_eq_getElem_cons hlt, hself, List.cons_prefix_cons] at hlead
    exact hlead.1

theorem tokens_ordered : focus.tree.tokens.Pairwise fun a b => a.stop ≤ b.start := by
  have hlead := (tokens_leading h).sublist
  exact (all_ordered text).sublist (hlead.trans (List.drop_sublist _ _))

-- A node ends where its last token does, and that is not in front of its start.
theorem start_le_last {last : Token} (hlast : focus.tree.tokens.getLast? = some last) :
    focus.tree.start ≤ last.stop := by
  obtain ⟨first, -, hstart, -, hhead⟩ := nodes_firstToken h
  have hordered := tokens_ordered h
  cases htokens : focus.tree.tokens with
  | nil => simp [htokens] at hlast
  | cons token rest =>
    rw [htokens] at hlast hordered hhead
    obtain rfl := hhead token rfl
    rw [← hstart]
    have hself : token.start ≤ token.stop := Nat.le_add_right _ _
    rcases List.mem_cons.mp (List.mem_of_getLast? hlast) with rfl | hmem
    · exact hself
    · have hbehind := (List.pairwise_cons.mp hordered).1 last hmem
      have hlast : last.start ≤ last.stop := Nat.le_add_right _ _
      omega

theorem nodes_span : (ofText text).nodes.span focus.number = .ok focus.tree.span := by
  obtain ⟨first, hfirst, hstart, -, -⟩ := nodes_firstToken h
  rw [NodeTable.span, hfirst, Checked.ok_bind, nodes_lastToken? h, Checked.ok_bind, Tree.span]
  cases hlast : focus.tree.tokens.getLast? with
  | none => rw [hstart]; rfl
  | some last =>
    have hle := start_le_last h hlast
    dsimp only
    rw [hstart, Nat.max_eq_left hle]
    rfl

theorem nodes_range : (ofText text).nodes.range focus.number =
    .ok ((ofText text).index.range focus.tree.span) := by
  rw [NodeTable.range, nodes_span h, Checked.ok_bind]
  exact LineIndex.table_range _ _

theorem nodes_chars : (ofText text).nodes.chars focus.number = .ok focus.tree.chars := by
  obtain ⟨after, hafter⟩ := tokens_leading h
  rw [NodeTable.chars, nodes_row h, Checked.ok_bind, Tree.chars, lastFrom]
  cases htokens : focus.tree.tokens with
  | nil => rfl
  | cons first rest =>
    have hlength := congrArg List.length hafter
    rw [htokens, List.length_append, List.length_cons, List.length_drop] at hlength
    rw [if_neg (by simp), List.length_cons, ← Nat.add_assoc, Nat.add_sub_cancel]
    dsimp only
    have hcount : focus.tokensBefore + rest.length + 1 - focus.tokensBefore =
        (first :: rest).length := by
      rw [List.length_cons]
      omega
    rw [nodes_tokens, Checked.part_eq (by omega) (by omega), Checked.ok_bind, List.drop_take,
      ← hafter, htokens, hcount, List.take_left]
    rfl

theorem nodes_text : (ofText text).nodes.text focus.number = .ok focus.tree.text := by
  rw [NodeTable.text, nodes_chars h]
  rfl

omit h in
theorem isCut_of_mem_all {token : Token} (htoken : token ∈ (lex text.toList).all) :
    IsCut text.toList token.start ∧ IsCut text.toList token.stop := by
  obtain ⟨before, after, htext, hstart⟩ := exists_split_of_mem_all text htoken
  refine ⟨⟨before, _, htext, hstart⟩, before ++ token.chars, after, ?_, ?_⟩
  · rw [htext, List.append_assoc]
  · rw [byteSize_append, ← hstart]
    rfl

-- The span of a node is one of the text.
theorem span_isCut : IsCut text.toList focus.tree.span.start ∧
    IsCut text.toList focus.tree.span.stop ∧ focus.tree.span.start ≤ focus.tree.span.stop := by
  obtain ⟨first, -, hstart, hmem, -⟩ := nodes_firstToken h
  have hcut : IsCut text.toList focus.tree.start := hstart ▸ (isCut_of_mem_all hmem).1
  rw [Tree.span]
  cases hlast : focus.tree.tokens.getLast? with
  | none => exact ⟨hcut, hcut, Nat.le_refl _⟩
  | some last =>
    have hinside := ((tokens_leading h).sublist.trans (List.drop_sublist _ _)).subset
      (List.mem_of_getLast? hlast)
    exact ⟨hcut, (isCut_of_mem_all hinside).2, start_le_last h hlast⟩

theorem nodes_source : ∃ source, (ofText text).nodes.source focus.number = .ok source ∧
    (ofText text).source? focus.tree.span = some source := by
  obtain ⟨hstart, hstop, hle⟩ := span_isCut h
  obtain ⟨inside, hinside⟩ := hstart.exists_slice? hstop hle
  refine ⟨.ofList inside, ?_, ?_⟩
  · rw [NodeTable.source, nodes_span h, Checked.ok_bind,
      show (ofText text).nodes.lines.text = text.toList from rfl, Checked.cut_eq hinside]
    rfl
  · rw [source?, show (ofText text).index.text = text.toList from rfl, hinside]
    rfl

end Contents

end Pad

end QueryPad
