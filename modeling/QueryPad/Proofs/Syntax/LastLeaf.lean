import QueryPad.Proofs.Syntax.Spans
import QueryPad.Syntax.Walk

-- The last leaf before an offset, and that the walk which looks for a node
-- before an offset finds this leaf.
namespace QueryPad

open Text

-- Tokens that stand one behind the other, none of them empty, and none of them
-- the end of the text.
structure AreSpread (tokens : List Token) : Prop where
  ordered : tokens.Pairwise fun a b => a.stop ≤ b.start
  filled : ∀ token ∈ tokens, token.start < token.stop
  inside : ∀ token ∈ tokens, token.kind ≠ .endOfText

theorem AreSpread.sublist {tokens others : List Token} (h : AreSpread tokens)
    (hsub : others.Sublist tokens) : AreSpread others where
  ordered := h.ordered.sublist hsub
  filled token htoken := h.filled token (hsub.subset htoken)
  inside token htoken := h.inside token (hsub.subset htoken)

theorem AreSpread.first_le {tokens : List Token} {first token : Token} (h : AreSpread tokens)
    (hfirst : tokens.head? = some first) (htoken : token ∈ tokens) :
    first.start ≤ token.start ∧ first.stop ≤ token.stop := by
  obtain ⟨rest, rfl⟩ := List.head?_eq_some_iff.mp hfirst
  rcases List.mem_cons.mp htoken with rfl | hrest
  · exact ⟨Nat.le_refl _, Nat.le_refl _⟩
  · have hfilled := h.filled first (by simp)
    have hfilled' := h.filled token htoken
    have hordered := (List.pairwise_cons.mp h.ordered).1 token hrest
    omega

theorem AreSpread.le_last {tokens : List Token} {last token : Token} (h : AreSpread tokens)
    (hlast : tokens.getLast? = some last) (htoken : token ∈ tokens) : token.stop ≤ last.stop := by
  obtain ⟨before, rfl⟩ := List.getLast?_eq_some_iff.mp hlast
  rcases List.mem_append.mp htoken with hbefore | hself
  · have hfilled := h.filled last (by simp)
    have hordered := (List.pairwise_append.mp h.ordered).2.2 token hbefore last (by simp)
    omega
  · rw [List.mem_singleton.mp hself]

theorem Tree.start_of_head? {tree : Tree} {first : Token} (hanchored : tree.Anchored)
    (hfirst : tree.tokens.head? = some first) : tree.span.start = first.start := by
  cases tree with
  | terminal token | error token =>
    obtain rfl := Option.some.inj hfirst
    rfl
  | node rule start children => exact (hanchored.1 _ hfirst).symm

-- A tree reaches around its tokens.
theorem Tree.span_holds {tree : Tree} {token : Token} (hanchored : tree.Anchored)
    (htokens : AreSpread tree.tokens) (htoken : token ∈ tree.tokens) :
    tree.span.start ≤ token.start ∧ token.stop ≤ tree.span.stop := by
  have hne : tree.tokens ≠ [] := List.ne_nil_of_mem htoken
  have hlast := List.getLast?_eq_some_getLast hne
  constructor
  · have hfirst := List.head?_eq_some_head hne
    rw [Tree.start_of_head? hanchored hfirst]
    exact (htokens.first_le hfirst htoken).1
  · have hstop : tree.span.stop = (tree.tokens.getLast hne).stop := by simp [span, hlast]
    rw [hstop]
    exact htokens.le_last hlast htoken

theorem Tree.span_le {tree : Tree} (hanchored : tree.Anchored) (htokens : AreSpread tree.tokens) :
    tree.span.start ≤ tree.span.stop := by
  cases htree : tree.tokens with
  | nil => simp [span, htree]
  | cons token rest =>
    have hmem : token ∈ tree.tokens := by simp [htree]
    have hholds := Tree.span_holds hanchored htokens hmem
    have hfilled := htokens.filled token hmem
    omega

theorem areSpread_lex (text : List Char) : AreSpread (lex text).tokens where
  ordered := lex_ordered text
  filled _ := start_lt_stop_of_mem_lex
  inside _ := kind_ne_endOfText_of_mem_lex

namespace Tree

theorem span_of_token? {tree : Tree} {token : Token} (h : tree.token? = some token) :
    tree.span = ⟨token.start, token.stop⟩ := by
  cases tree with
  | terminal other | error other =>
    obtain rfl := Option.some.inj h
    simp [span, start, tokens]
  | node => simp [token?] at h

theorem mem_tokens_of_token? {tree : Tree} {token : Token} (h : tree.token? = some token) :
    token ∈ tree.tokens := by
  cases tree with
  | terminal other | error other =>
    obtain rfl := Option.some.inj h
    simp [tokens]
  | node => simp [token?] at h

-- Only nodes have children.
theorem exists_node_of_child {tree child : Tree} {index : Nat}
    (h : tree.children[index]? = some child) :
    ∃ rule start children, tree = .node rule start children ∧ children[index]? = some child := by
  cases tree with
  | terminal | error => simp [Tree.children] at h
  | node rule start children => exact ⟨rule, start, children, rfl, h⟩

end Tree

namespace Focus

variable {offset : Nat} {parent : Tree} {above : List (Tree × Nat)}

-- A place that is reached from another one by going from nodes to their children.
inductive Under (outer : Focus) : Focus → Prop where
  | refl : Under outer outer
  | child {focus : Focus} {index : Nat} {tree : Tree} (h : Under outer focus)
      (hchild : focus.tree.children[index]? = some tree) :
      Under outer ⟨tree, (focus.tree, index) :: focus.above⟩

theorem Under.trans {outer focus inner : Focus} (h : Under outer focus)
    (hinner : Under focus inner) : Under outer inner := by
  induction hinner with
  | refl => exact h
  | child _ hchild ih => exact ih.child hchild

-- Above a place there are the places that it was reached through.
theorem Under.climb {outer : Focus} {tree : Tree} {index : Nat}
    (h : Under outer ⟨tree, (parent, index) :: above⟩) :
    outer = ⟨tree, (parent, index) :: above⟩ ∨
      Under outer ⟨parent, above⟩ ∧ parent.children[index]? = some tree := by
  cases h with
  | refl => exact .inl rfl
  | child h hchild => exact .inr ⟨h, hchild⟩

theorem tokens_sublist_of_children {tree child : Tree} {index : Nat}
    (h : tree.children[index]? = some child) : child.tokens.Sublist tree.tokens := by
  obtain ⟨rule, start, children, rfl, hchild⟩ := Tree.exists_node_of_child h
  obtain ⟨before, after, rfl⟩ := List.append_of_mem (List.mem_of_getElem? hchild)
  rw [Tree.tokens, Tree.tokensOf_append]
  exact (List.sublist_append_left _ _).trans (List.sublist_append_right _ _)

theorem Under.tokens_sublist {outer focus : Focus} (h : Under outer focus) :
    focus.tree.tokens.Sublist outer.tree.tokens := by
  induction h with
  | refl => exact List.Sublist.refl _
  | child _ hchild ih => exact (tokens_sublist_of_children hchild).trans ih

theorem Under.anchored {outer focus : Focus} (h : Under outer focus)
    (hanchored : outer.tree.Anchored) : focus.tree.Anchored := by
  induction h with
  | refl => exact hanchored
  | @child focus index tree _ hchild ih =>
    obtain ⟨rule, start, children, hfocus, hchild⟩ := Tree.exists_node_of_child hchild
    rw [hfocus]
    rw [hfocus] at ih
    exact Tree.allAnchored_iff.mp ih.2.2 tree (List.mem_of_getElem? hchild)

theorem Under.mem_nodesOf {outer focus : Focus} {rule : Rule} (h : Under outer focus)
    (hrule : focus.tree.is rule) : focus.tree ∈ outer.tree.nodesOf rule := by
  suffices hinside : ∀ node ∈ focus.tree.nodesOf rule, node ∈ outer.tree.nodesOf rule by
    apply hinside
    cases hfocus : focus.tree with
    | terminal | error => simp [hfocus, Tree.is, Tree.rule?] at hrule
    | node other start children =>
      obtain rfl : other = rule := by simpa [hfocus, Tree.is, Tree.rule?] using hrule
      simp [Tree.nodesOf]
  clear hrule
  induction h with
  | refl => exact fun node hnode => hnode
  | @child focus index tree _ hchild ih =>
    intro node hnode
    apply ih
    obtain ⟨other, start, children, hfocus, hchild⟩ := Tree.exists_node_of_child hchild
    rw [hfocus]
    have hmem : node ∈ Tree.nodesOfAll rule children := by
      rw [Tree.nodesOfAll_eq_flatMap]
      exact List.mem_flatMap.mpr ⟨tree, List.mem_of_getElem? hchild, hnode⟩
    rw [Tree.nodesOf]
    split
    · exact List.mem_cons_of_mem _ hmem
    · exact hmem

theorem endsBy_iff {token : Token} (hkind : token.kind ≠ .endOfText) :
    endsBy token offset ↔ token.stop ≤ offset := by simp [endsBy, hkind]

mutual

theorem lastLeafIn?_eq_none_iff (tree : Tree) (above : List (Tree × Nat)) :
    lastLeafIn? offset above tree = none ↔ ∀ token ∈ tree.tokens, ¬ endsBy token offset := by
  cases tree with
  | terminal | error => simp [lastLeafIn?, Tree.tokens]
  | node rule start children =>
    rw [lastLeafIn?, lastLeafOf?_eq_none_iff children]
    rfl

theorem lastLeafOf?_eq_none_iff (trees : List Tree) (parent : Tree) (above : List (Tree × Nat))
    (index : Nat) : lastLeafOf? offset parent above index trees = none ↔
      ∀ token ∈ Tree.tokensOf trees, ¬ endsBy token offset := by
  cases trees with
  | nil => simp [lastLeafOf?, Tree.tokensOf]
  | cons tree trees =>
    rw [lastLeafOf?, Option.or_eq_none_iff, lastLeafOf?_eq_none_iff trees,
      lastLeafIn?_eq_none_iff tree, Tree.tokensOf, List.forall_mem_append]
    exact And.comm

end

mutual

-- What is found is a leaf of the tree that ends early enough.
theorem lastLeafIn?_under {tree : Tree} {above : List (Tree × Nat)} {found : Focus}
    (h : lastLeafIn? offset above tree = some found) :
    Under ⟨tree, above⟩ found ∧ ∃ token, found.tree.token? = some token ∧ endsBy token offset := by
  cases tree with
  | terminal token | error token =>
    obtain ⟨hends, hfound⟩ := Option.ite_none_right_eq_some.mp h
    obtain rfl := Option.some.inj hfound
    exact ⟨.refl, token, rfl, hends⟩
  | node rule start children =>
    obtain ⟨index, child, hchild, hunder, hends⟩ := lastLeafOf?_under h
    have hstep : Under ⟨.node rule start children, above⟩
        ⟨child, (.node rule start children, 0 + index) :: above⟩ :=
      Under.refl.child (by rwa [Nat.zero_add])
    exact ⟨hstep.trans hunder, hends⟩

theorem lastLeafOf?_under {trees : List Tree} {parent : Tree} {above : List (Tree × Nat)}
    {first : Nat} {found : Focus}
    (h : lastLeafOf? offset parent above first trees = some found) :
    ∃ index child, trees[index]? = some child ∧
      Under ⟨child, (parent, first + index) :: above⟩ found ∧
      ∃ token, found.tree.token? = some token ∧ endsBy token offset := by
  cases trees with
  | nil => simp [lastLeafOf?] at h
  | cons tree trees =>
    rcases Option.or_eq_some_iff.mp h with hlater | ⟨_, hhere⟩
    · obtain ⟨index, child, hchild, hunder, hends⟩ := lastLeafOf?_under hlater
      exact ⟨index + 1, child, hchild, by rwa [Nat.add_comm index, ← Nat.add_assoc], hends⟩
    · obtain ⟨hunder, hends⟩ := lastLeafIn?_under hhere
      exact ⟨0, tree, rfl, hunder, hends⟩

end

theorem lastLeafOf?_append (a b : List Tree) (first : Nat) :
    lastLeafOf? offset parent above first (a ++ b) =
      (lastLeafOf? offset parent above (first + a.length) b).or
        (lastLeafOf? offset parent above first a) := by
  induction a generalizing first with
  | nil => simp [lastLeafOf?]
  | cons tree trees ih =>
    rw [List.cons_append, lastLeafOf?, lastLeafOf?, ih, Option.or_assoc, List.length_cons,
      Nat.add_assoc, Nat.add_comm 1]

theorem previousSibling?_eq_some {tree child sibling : Tree} {index : Nat}
    (h : tree.children[index]? = some sibling) :
    previousSibling? ⟨child, (tree, index + 1) :: above⟩ =
      some ⟨sibling, (tree, index) :: above⟩ := by
  simp [previousSibling?, h]

-- The last leaf of a node is that of the last child in which one ends early enough.
theorem lastLeafIn?_of_child {rule : Rule} {start : Nat} {child : Tree} {before after : List Tree}
    {found : Focus} (hafter : ∀ token ∈ Tree.tokensOf after, ¬ endsBy token offset)
    (hchild : lastLeafIn? offset
      ((.node rule start (before ++ child :: after), before.length) :: above) child = some found) :
    lastLeafIn? offset above (.node rule start (before ++ child :: after)) = some found := by
  have hnone := (lastLeafOf?_eq_none_iff after (.node rule start (before ++ child :: after)) above
    (before.length + 1)).mpr hafter
  rw [lastLeafIn?, lastLeafOf?_append, Nat.zero_add, lastLeafOf?, hnone, Option.none_or, hchild,
    Option.some_or]

end Focus

namespace Walk

variable {offset : Nat}

-- A span is not wider than one that begins before it, or around it.
theorem not_properlyContains {outer inner : Span} (hstart : inner.start ≤ outer.start)
    (hstop : inner.start < outer.start ∨ outer.stop ≤ inner.stop) :
    ¬ properlyContains outer inner := by
  obtain ⟨start, stop⟩ := outer
  obtain ⟨start', stop'⟩ := inner
  simp only [properlyContains, Bool.and_eq_true, decide_eq_true_eq, ne_eq, Span.mk.injEq, not_and]
  dsimp only at hstart hstop
  omega

-- Where the answers are leaves, each of them replaces the one before.
theorem join_nodeBefore {soFar next : Option Focus}
    (h : ∀ focus ∈ soFar, ∀ leaf ∈ next, ¬ properlyContains leaf.tree.span focus.tree.span) :
    (nodeBefore offset).join soFar next = next.or soFar := by
  cases soFar with
  | none => cases next <;> rfl
  | some focus =>
    cases next with
    | none => rfl
    | some leaf =>
      have hnot := h focus rfl leaf rfl
      simp [nodeBefore, hnot]

mutual

theorem visit_nodeBefore (tree : Tree) (hanchored : tree.Anchored) (htokens : AreSpread tree.tokens)
    (above : List (Tree × Nat)) :
    ((nodeBefore offset).visit above tree).1 = Focus.lastLeafIn? offset above tree := by
  cases tree with
  | terminal token | error token =>
    have hkind := htokens.inside token (by simp [Tree.tokens])
    by_cases hstop : token.stop ≤ offset <;>
      simp [visit, nodeBefore, Focus.lastLeafIn?, Focus.endsBy, hkind, hstop, Tree.isConsumed,
        Tree.tokens, Tree.span]
  | node rule start children =>
    have hseed : ∀ focus ∈ (nodeBefore offset).seed ⟨.node rule start children, above⟩,
        focus.tree = .node rule start children ∧
          ∃ token ∈ Tree.tokensOf children, Focus.endsBy token offset := by
      intro focus hfocus
      obtain ⟨hends, hself⟩ := Option.ite_none_right_eq_some.mp hfocus
      rw [Bool.and_eq_true, decide_eq_true_eq] at hends
      have hne : (Tree.node rule start children).tokens ≠ [] := by
        simpa [Tree.isConsumed] using hends.1
      obtain ⟨last, hlast, hstop⟩ := Tree.exists_last hne
      refine ⟨Option.some.inj hself ▸ rfl, last, hlast, ?_⟩
      rw [Focus.endsBy_iff (htokens.inside last hlast), ← hstop]
      exact hends.2
    have hwalk := visitAll_nodeBefore children hanchored.2.2 htokens
      ⟨.node rule start children, above⟩ 0 _ fun focus hfocus token htoken => by
        have hholds := Tree.span_holds hanchored htokens htoken
        rw [(hseed focus hfocus).1]
        exact not_properlyContains hholds.1 (.inr hholds.2)
    have hanswer : (nodeBefore offset).answer ⟨.node rule start children, above⟩ = none := rfl
    rw [visit, hanswer, hwalk, Focus.lastLeafIn?]
    cases hfound : Focus.lastLeafOf? offset (.node rule start children) above 0 children with
    | some found => rfl
    | none =>
      cases hnode : (nodeBefore offset).seed ⟨.node rule start children, above⟩ with
      | none => rfl
      | some focus =>
        obtain ⟨_, token, htoken, hends⟩ := hseed focus hnode
        exact absurd hends ((Focus.lastLeafOf?_eq_none_iff _ _ _ _).mp hfound token htoken)

theorem visitAll_nodeBefore (trees : List Tree) (hanchored : Tree.AllAnchored trees)
    (htokens : AreSpread (Tree.tokensOf trees)) (parent : Focus) (index : Nat)
    (soFar : Option Focus) (hsoFar : ∀ focus ∈ soFar, ∀ token ∈ Tree.tokensOf trees,
      ¬ properlyContains ⟨token.start, token.stop⟩ focus.tree.span) :
    ((nodeBefore offset).visitAll parent index soFar trees).1 =
      (Focus.lastLeafOf? offset parent.tree parent.above index trees).or soFar := by
  cases trees with
  | nil => simp [visitAll, Focus.lastLeafOf?]
  | cons tree trees =>
    have hhead : AreSpread tree.tokens := htokens.sublist (List.sublist_append_left _ _)
    have htail : AreSpread (Tree.tokensOf trees) :=
      htokens.sublist (List.sublist_append_right _ _)
    have hordered := (List.pairwise_append.mp htokens.ordered).2.2
    have hjoin : (nodeBefore offset).join soFar
        (Focus.lastLeafIn? offset ((parent.tree, index) :: parent.above) tree) =
          (Focus.lastLeafIn? offset ((parent.tree, index) :: parent.above) tree).or soFar := by
      apply join_nodeBefore
      intro focus hfocus leaf hleaf
      obtain ⟨hunder, token, htoken, -⟩ := Focus.lastLeafIn?_under hleaf
      rw [Tree.span_of_token? htoken]
      exact hsoFar focus hfocus token
        (List.mem_append_left _ (hunder.tokens_sublist.subset (Tree.mem_tokens_of_token? htoken)))
    have hgoesOn : (nodeBefore offset).goesOn parent soFar = true := rfl
    rw [visitAll, if_pos hgoesOn]
    dsimp only
    rw [visit_nodeBefore tree hanchored.1 hhead, hjoin,
      visitAll_nodeBefore trees hanchored.2 htail parent, Focus.lastLeafOf?, Option.or_assoc]
    intro focus hfocus token htoken
    rcases Option.or_eq_some_iff.mp hfocus with hleaf | ⟨_, hbefore⟩
    · -- the leaf just found stands before all that follows
      obtain ⟨hunder, leaf, hself, -⟩ := Focus.lastLeafIn?_under hleaf
      have hmem := hunder.tokens_sublist.subset (Tree.mem_tokens_of_token? hself)
      have hfilled := hhead.filled leaf hmem
      have hlater := hordered leaf hmem token htoken
      rw [Tree.span_of_token? hself]
      apply not_properlyContains
      · show leaf.start ≤ token.start
        omega
      · left
        show leaf.start < token.start
        omega
    · exact hsoFar focus hbefore token (List.mem_append_right _ htoken)

end

-- The walk and the search from the right find the same leaf.
theorem run_nodeBefore (offset : Nat) {focus : Focus} (hanchored : focus.tree.Anchored)
    (htokens : AreSpread focus.tree.tokens) :
    (nodeBefore offset).run focus = focus.lastLeafBefore? offset :=
  visit_nodeBefore focus.tree hanchored htokens focus.above

end Walk

end QueryPad
