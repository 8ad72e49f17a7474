import Mathlib.Data.List.Pairwise
import QueryPad.Proofs.Checked.Context
import QueryPad.Proofs.Completion.Deciding
import QueryPad.Proofs.Syntax.Leaves

-- What the leaves of a text say of the nodes above them: a node with leaves
-- reaches from the first of them to the last, and the last one before an offset
-- is found by the walk over all nodes as well as by the search from the right.
namespace QueryPad

open Text

namespace NodeTable

variable (nodes : NodeTable)

-- The leaves below a node from left to right, or the node itself if it is one.
def leaves : Nat → Nat → Checked (List Nat)
  | 0, _ => .error .depth
  | depth + 1, id => do
    if (← nodes.kind id).isLeaf then return [id]
    else return (← (← nodes.children id).mapM (leaves depth)).flatten

-- The span of a node is the hull of its leaves. A node is consumed if it has
-- leaves, and then it reaches from the token of the first to that of the last.
structure IsHull (id : Nat) : Prop where
  reaches : ∃ (leaves : List Nat) (tokens : List Token),
    nodes.leaves nodes.rows.length id = .ok leaves ∧
    leaves.mapM nodes.token? = .ok (tokens.map some) ∧
    nodes.isConsumed id = .ok (!leaves.isEmpty) ∧
    ∀ first ∈ tokens.head?, ∀ last ∈ tokens.getLast?,
      nodes.span id = .ok ⟨first.start, last.stop⟩
  -- It lies inside every node above it.
  inside : nodes.isConsumed id = .ok true → ∃ (span : Span) (ancestors : List Nat),
    nodes.span id = .ok span ∧
    nodes.ancestors nodes.rows.length id = .ok ancestors ∧ ∀ outer ∈ ancestors,
      ∃ around, nodes.span outer = .ok around ∧
        around.start ≤ span.start ∧ span.stop ≤ around.stop
  -- Those of its children that are consumed stand one behind the other.
  apart : ∃ (children consumed : List Nat) (spans : List Span), nodes.children id = .ok children ∧
    children.filterM nodes.isConsumed = .ok consumed ∧ consumed.mapM nodes.span = .ok spans ∧
    spans.Pairwise fun a b => a.stop ≤ b.start

end NodeTable

namespace Pad

section Searches

variable (text : String) (offset : Nat)

-- From the root, the search finds the leaf of the last token that ends early enough.
theorem map_token?_lastLeaf :
    ((Focus.root (ofText text).tree).lastLeafBefore? offset).map (·.tree.token?) =
      ((lex text.toList).all.filter fun token =>
        token.kind ≠ .endOfText ∧ token.stop ≤ offset).getLast?.map some := by
  have hends : (fun token : Token => decide (token.kind ≠ .endOfText ∧ token.stop ≤ offset)) =
      (Focus.endsBy · offset) := by
    funext token
    rw [Focus.endsBy, Bool.decide_and]
  rw [Focus.map_token?_lastLeafBefore?, hends, ← tokens_tree]
  rfl

-- Both searches for what stands before the cursor find the same leaf, in the
-- tree and by the numbers of the nodes.
theorem searches_agree :
    ∃ commands found,
      (Focus.root (ofText text).tree).childOf? .commands = some commands ∧
      (Walk.nodeBefore offset).run commands = found ∧
      (Focus.root (ofText text).tree).lastLeafBefore? offset = found ∧
      (∀ leaf ∈ found, Focus.Under (.root (ofText text).tree) leaf) ∧
      found.map (·.tree.token?) = ((lex text.toList).all.filter fun token =>
        token.kind ≠ .endOfText ∧ token.stop ≤ offset).getLast?.map some ∧
      (ofText text).nodes.childOf? .commands 0 = .ok (some commands.number) ∧
      (ofText text).nodes.nodeBefore offset (ofText text).nodes.rows.length commands.number =
        .ok (found.map Focus.number) ∧
      (ofText text).nodes.lastLeafBefore? offset (ofText text).nodes.rows.length 0 =
        .ok (found.map Focus.number) := by
  have hcommands : Focus.Under (.root (ofText text).tree) (commandsFocus text) :=
    Focus.Under.refl.mem_children (List.mem_of_find?_eq_some (childOf?_commands text))
  have hwalk : (Walk.nodeBefore offset).run (commandsFocus text) =
      (Focus.root (ofText text).tree).lastLeafBefore? offset := by
    rw [lastLeafBefore?_root]
    exact Walk.run_nodeBefore offset (commandsFocus_anchored text) (commandsFocus_spread text)
  have hnumbers := (@nodes_nodeBefore text _ offset hcommands _ (fits_rows hcommands).1).1
  rw [hwalk] at hnumbers
  have hchild := @nodes_childOf? text _ .refl .commands
  rw [childOf?_commands] at hchild
  exact ⟨commandsFocus text, _, childOf?_commands text, hwalk, rfl,
    fun _ hleaf => (Focus.lastLeafIn?_under hleaf).1, map_token?_lastLeaf text offset,
    hchild, hnumbers, @nodes_lastLeafBefore? text _ offset .refl _ (fits_rows .refl).1⟩

end Searches

section Hulls

variable {text : String} {focus outer : Focus} {token first last : Token}

variable (h : Focus.Under (.root (ofText text).tree) focus)

include h

theorem nodes_leaves (depth : Nat) (hdepth : focus.tree.count ≤ depth) :
    (ofText text).nodes.leaves depth focus.number = .ok (focus.leaves.map Focus.number) := by
  induction depth generalizing focus with
  | zero =>
    have := focus.tree.count_pos
    omega
  | succ depth ih =>
    rw [NodeTable.leaves, nodes_kind h, Checked.ok_bind, Tree.isLeaf_nodeKind, ← Tree.isLeaf_eq]
    by_cases hleaf : focus.tree.isLeaf
    · rw [if_pos hleaf, Focus.leaves_of_isLeaf hleaf]
      rfl
    · have hchildren : (focus.children.map Focus.number).mapM
          ((ofText text).nodes.leaves depth) =
            .ok (focus.children.map fun child => child.leaves.map Focus.number) := by
        refine Checked.mapM_map fun child hchild => ?_
        have hlt := Focus.count_lt_of_mem_children hchild
        exact ih (h.mem_children hchild) (by omega)
      rw [if_neg hleaf, nodes_children h, Checked.ok_bind, hchildren,
        Focus.leaves_eq_flatMap hleaf, List.map_flatMap, List.flatMap_def]
      rfl

theorem mapM_leaves : (focus.leaves.map Focus.number).mapM (ofText text).nodes.token? =
    .ok (focus.tree.tokens.map some) := by
  rw [← Focus.map_token?_leaves]
  exact Checked.mapM_map fun leaf hleaf => nodes_token? (h.trans (Focus.under_of_mem_leaves hleaf))

-- A node with tokens reaches from the first of them to the last.
theorem span_of_tokens (hfirst : focus.tree.tokens.head? = some first)
    (hlast : focus.tree.tokens.getLast? = some last) :
    focus.tree.span = ⟨first.start, last.stop⟩ := by
  obtain ⟨begin, -, hbegin, -, hhead⟩ := nodes_firstToken h
  rw [Tree.span, hlast, ← hbegin, hhead first hfirst]
  rfl

theorem exists_span (hconsumed : focus.tree.isConsumed) : ∃ first ∈ focus.tree.tokens,
    ∃ last ∈ focus.tree.tokens, focus.tree.span = ⟨first.start, last.stop⟩ := by
  have hne : focus.tree.tokens ≠ [] := by simpa [Tree.isConsumed] using hconsumed
  exact ⟨_, List.head_mem hne, _, List.getLast_mem hne,
    span_of_tokens h (List.head?_eq_some_head hne) (List.getLast?_eq_some_getLast hne)⟩

theorem span_around (htoken : token ∈ focus.tree.tokens) :
    focus.tree.span.start ≤ token.start ∧ token.stop ≤ focus.tree.span.stop := by
  have hne := List.ne_nil_of_mem htoken
  have hself (token : Token) : token.start ≤ token.stop := Nat.le_add_right _ _
  have hstarts : focus.tree.tokens.Pairwise fun a b => a.start ≤ b.start :=
    (tokens_ordered h).imp fun hle => Nat.le_trans (hself _) hle
  have hstops : focus.tree.tokens.Pairwise fun a b => a.stop ≤ b.stop :=
    (tokens_ordered h).imp fun hle => Nat.le_trans hle (hself _)
  rw [span_of_tokens h (List.head?_eq_some_head hne) (List.getLast?_eq_some_getLast hne)]
  exact ⟨hstarts.rel_head_of_rel_head_head htoken (Nat.le_refl _),
    hstops.rel_getLast_of_rel_getLast_getLast htoken (Nat.le_refl _)⟩

-- A consumed node lies inside every node above it.
theorem span_inside (hconsumed : focus.tree.isConsumed) (houter : outer ∈ focus.ancestors) :
    outer.tree.span.start ≤ focus.tree.span.start ∧
      focus.tree.span.stop ≤ outer.tree.span.stop := by
  obtain ⟨habove, hunder⟩ := h.of_mem_ancestors houter
  obtain ⟨first, hfirst, last, hlast, hspan⟩ := exists_span h hconsumed
  rw [hspan]
  exact ⟨(span_around habove (hunder.tokens_sublist.subset hfirst)).1,
    (span_around habove (hunder.tokens_sublist.subset hlast)).2⟩

-- What one child holds stands before what a later one holds.
theorem children_ordered : focus.tree.children.Pairwise fun a b =>
    ∀ token ∈ a.tokens, ∀ later ∈ b.tokens, token.stop ≤ later.start := by
  have hordered := tokens_ordered h
  cases htree : focus.tree with
  | terminal | error => exact List.Pairwise.nil
  | node rule start children =>
    rw [htree, Tree.tokens, Tree.tokensOf_eq_flatMap, List.pairwise_flatMap] at hordered
    exact hordered.2

theorem spans_apart : ((focus.children.filter (·.tree.isConsumed)).map (·.tree.span)).Pairwise
    fun a b => a.stop ≤ b.start := by
  have hordered := children_ordered h
  rw [← Focus.map_tree_children, List.pairwise_map] at hordered
  rw [List.pairwise_map]
  refine (hordered.filter _).imp_of_mem fun ha hb hapart => ?_
  obtain ⟨hmem, hconsumed⟩ := List.mem_filter.mp ha
  obtain ⟨hmem', hconsumed'⟩ := List.mem_filter.mp hb
  obtain ⟨_, _, last, hlast, hspan⟩ := exists_span (h.mem_children hmem) hconsumed
  obtain ⟨first, hfirst, _, _, hspan'⟩ := exists_span (h.mem_children hmem') hconsumed'
  rw [hspan, hspan']
  exact hapart last hlast first hfirst

theorem nodes_isHull : (ofText text).nodes.IsHull focus.number where
  reaches := by
    refine ⟨_, _, nodes_leaves h _ (fits_rows h).1, mapM_leaves h, ?_,
      fun first hfirst last hlast => ?_⟩
    · rw [nodes_isConsumed h, Focus.isConsumed_eq, List.isEmpty_map]
    · rw [nodes_span h, span_of_tokens h hfirst hlast]
  inside hconsumed := by
    rw [nodes_isConsumed h] at hconsumed
    refine ⟨_, _, nodes_span h, nodes_ancestors h _ (fits_rows h).2, fun outer houter => ?_⟩
    obtain ⟨above, habove, rfl⟩ := List.mem_map.mp houter
    exact ⟨_, nodes_span (h.of_mem_ancestors habove).1,
      span_inside h (Except.ok.inj hconsumed) habove⟩
  apart := ⟨_, _, _, nodes_children h,
    Checked.filterM_map fun child hchild => nodes_isConsumed (h.mem_children hchild),
    Checked.mapM_map fun child hchild =>
      nodes_span (h.mem_children (List.mem_of_mem_filter hchild)), spans_apart h⟩

end Hulls

-- Every node of every text is the hull of its leaves.
theorem spans_are_hulls (text : String) :
    NodeTable.ofChars text.toList = .ok (ofText text).nodes ∧
      ∀ id : Fin (ofText text).nodes.rows.length, (ofText text).nodes.IsHull id := by
  refine ⟨ofChars_nodes text.toList, fun id => ?_⟩
  obtain ⟨focus, hfocus, hid⟩ := exists_place text id
  exact hid ▸ nodes_isHull hfocus

end Pad

end QueryPad
