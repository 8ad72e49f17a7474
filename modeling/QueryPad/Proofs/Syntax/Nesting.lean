import QueryPad.Proofs.Syntax.LastLeaf

-- The places above a place, and the last leaf seen from each of them.
namespace QueryPad

namespace Focus

variable {outer focus node : Focus}

theorem Under.above_suffix (h : Under outer focus) : outer.above <:+ focus.above := by
  induction h with
  | refl => exact List.suffix_refl _
  | child _ _ ih => exact ih.trans (List.suffix_cons _ _)

-- A place below two siblings is below one node twice.
theorem Under.index_unique {parent left right : Tree} {above : List (Tree × Nat)} {i j : Nat}
    (hleft : Under ⟨left, (parent, i) :: above⟩ focus)
    (hright : Under ⟨right, (parent, j) :: above⟩ focus) : i = j := by
  have heq : (parent, i) :: above = (parent, j) :: above :=
    (List.suffix_of_suffix_length_le hleft.above_suffix hright.above_suffix
      (Nat.le_refl _)).eq_of_length (by simp)
  exact (Prod.mk.inj (List.cons.inj heq).1).2

theorem ancestors_eq_cons {parent : Focus} {rest : List Focus}
    (h : focus.ancestors = parent :: rest) :
    focus.parent? = some parent ∧ parent.ancestors = rest := by
  obtain ⟨tree, above⟩ := focus
  cases above with
  | nil => contradiction
  | cons head above =>
    obtain ⟨hparent, hrest⟩ := List.cons.inj h
    exact ⟨congrArg some hparent, hparent ▸ hrest⟩

theorem ancestors_of_parent? {parent : Focus} (h : focus.parent? = some parent) :
    focus.ancestors = parent :: parent.ancestors := by
  obtain ⟨tree, above⟩ := focus
  cases above with
  | nil => contradiction
  | cons head above =>
    obtain rfl := Option.some.inj h
    rfl

theorem exists_parent_of_mem (h : node ∈ focus.ancestors) :
    ∃ parent, focus.parent? = some parent := by
  cases hancestors : focus.ancestors with
  | nil => simp [hancestors] at h
  | cons parent rest => exact ⟨parent, (ancestors_eq_cons hancestors).1⟩

-- The list of a place and those above it goes on from each of its members in the same way.
theorem ancestors_of_split {before after : List Focus}
    (h : focus :: focus.ancestors = before ++ node :: after) : node.ancestors = after := by
  induction before generalizing focus with
  | nil =>
    obtain ⟨rfl, hafter⟩ := List.cons.inj h
    exact hafter
  | cons first before ih =>
    obtain ⟨rfl, hrest⟩ := List.cons.inj h
    cases hparent : focus.ancestors with
    | nil => simp [hparent] at hrest
    | cons parent rest =>
      obtain ⟨_, rfl⟩ := ancestors_eq_cons hparent
      exact ih (hparent ▸ hrest)

theorem mem_ancestors_of_split {before after : List Focus} {inner : Focus}
    (h : focus :: focus.ancestors = before ++ node :: after) (hinner : inner ∈ before) :
    node ∈ inner.ancestors := by
  obtain ⟨first, rest, rfl⟩ := List.append_of_mem hinner
  rw [List.append_assoc, List.cons_append] at h
  rw [ancestors_of_split h]
  simp

theorem parent?_of_split {before after : List Focus} {inner parent : Focus}
    (h : focus :: focus.ancestors = before ++ node :: after) (hinner : inner ∈ before)
    (hparent : inner.parent? = some parent) : parent ∈ before ∨ parent = node := by
  obtain ⟨first, rest, rfl⟩ := List.append_of_mem hinner
  rw [List.append_assoc, List.cons_append] at h
  have habove := ancestors_of_split h
  rw [ancestors_of_parent? hparent] at habove
  cases rest with
  | nil => exact .inr (List.cons.inj habove).1
  | cons next rest => exact .inl (by simp [(List.cons.inj habove).1])

-- What is above a place is below a place still further up, or above that one too.
theorem Under.mem_ancestors (h : Under outer focus) (hnode : node ∈ focus.ancestors) :
    Under outer node ∧ Under node focus ∨ node ∈ outer.ancestors := by
  induction h with
  | refl => exact .inr hnode
  | @child focus index child hfocus hchild ih =>
    have hstep : Under focus ⟨child, (focus.tree, index) :: focus.above⟩ :=
      Under.refl.child hchild
    rcases List.mem_cons.mp hnode with rfl | hnode
    · exact .inl ⟨hfocus, hstep⟩
    · exact (ih hnode).imp (fun h => ⟨h.1, h.2.trans hstep⟩) id

section Root

variable {tree : Tree}

theorem Under.of_mem_ancestors (h : Under (root tree) focus) (hnode : node ∈ focus.ancestors) :
    Under (root tree) node ∧ Under node focus :=
  (h.mem_ancestors hnode).elim id fun hroot => by contradiction

theorem Under.of_mem_lineage (h : Under (root tree) focus)
    (hnode : node ∈ focus :: focus.ancestors) : Under (root tree) node := by
  rcases List.mem_cons.mp hnode with rfl | hnode
  · exact h
  · exact (h.of_mem_ancestors hnode).1

end Root

section LastLeaf

variable {offset : Nat} {leaf : Focus}

theorem exists_child_of_lastLeafOf? {parent : Tree} {above : List (Tree × Nat)} {trees : List Tree}
    {first : Nat} (h : lastLeafOf? offset parent above first trees = some leaf) :
    ∃ index child, trees[index]? = some child ∧
      lastLeafIn? offset ((parent, first + index) :: above) child = some leaf := by
  induction trees generalizing first with
  | nil => simp [lastLeafOf?] at h
  | cons tree trees ih =>
    rcases Option.or_eq_some_iff.mp h with hlater | ⟨_, hhere⟩
    · obtain ⟨index, child, hchild, hleaf⟩ := ih hlater
      exact ⟨index + 1, child, hchild, by rwa [Nat.add_comm index, ← Nat.add_assoc]⟩
    · exact ⟨0, tree, rfl, hhere⟩

-- Seen from any node above it, the last leaf is the same.
theorem Under.lastLeafBefore? (h : Under outer focus) (hunder : Under focus leaf)
    (hleaf : outer.lastLeafBefore? offset = some leaf) :
    focus.lastLeafBefore? offset = some leaf := by
  induction h with
  | refl => exact hleaf
  | @child parent index tree _ hchild ih =>
    have hparent := ih ((Under.refl.child hchild).trans hunder)
    obtain ⟨parent, above⟩ := parent
    obtain ⟨rule, start, children, rfl, hchild⟩ := Tree.exists_node_of_child hchild
    obtain ⟨other, child, hother, hfound⟩ := exists_child_of_lastLeafOf? hparent
    rw [Nat.zero_add] at hfound
    obtain rfl := Under.index_unique hunder (lastLeafIn?_under hfound).1
    obtain rfl := Option.some.inj (hother.symm.trans hchild)
    exact hfound

end LastLeaf

end Focus

end QueryPad

-- However broken a text is, a node holds only what the production of its rule
-- names, and tokens that were skipped.
namespace QueryPad

namespace Syntax

-- A tree that may stand below a node of a rule, as may all that stands in it.
inductive Belongs : Rule → Tree → Prop where
  | terminal {rule : Rule} {token : Token} (hpart : holdsPart rule (.token token.kind)) :
      Belongs rule (.terminal token)
  | error {rule : Rule} {token : Token} : Belongs rule (.error token)
  | node {rule inner : Rule} {start : Nat} {children : List Tree}
      (hpart : holdsPart rule (.rule inner)) (hchildren : ∀ child ∈ children, Belongs inner child) :
      Belongs rule (.node inner start children)

variable {inp : Input} {rule inner : Rule}

theorem Belongs.taken {taken : Taken inp} (h : Taken.next? inp = some taken)
    (hpart : holdsPart rule (.token taken.token.kind)) :
    ∀ tree ∈ taken.parsed.trees, Belongs rule tree := by
  intro tree htree
  obtain rfl := List.mem_singleton.mp htree
  rw [Taken.tree_eq h]
  exact .terminal hpart

theorem Belongs.underNode {parsed : Parsed inp} (hpart : holdsPart rule (.rule inner))
    (body : ∀ tree ∈ parsed.trees, Belongs inner tree) :
    ∀ tree ∈ (parsed.underNode inner).trees, Belongs rule tree := by
  intro tree htree
  obtain rfl := List.mem_singleton.mp htree
  exact .node hpart body

theorem Belongs.skipUntil {stops : TokenKind → Bool} :
    ∀ tree ∈ (Parsed.skipUntil inp stops).trees, Belongs rule tree := by
  intro tree htree
  obtain ⟨token, -, -, rfl⟩ := eq_error_of_mem_skipUntil htree
  exact .error

theorem nested : Scheme fun _ _ rule _ parsed => ∀ tree ∈ parsed.trees, Belongs rule tree where
  nothing _ _ _ htree := by contradiction
  noName _ _ _ _ htree := by contradiction
  report _ _ _ _ htree := by contradiction
  append head tail := List.forall_mem_append.mpr ⟨head, tail⟩
  underNode _ _ hplaces body := .underNode hplaces.named body
  valueNode _ _ _ hpart _ body := .underNode hpart body
  token h hplain := .taken h (Bool.and_eq_true_iff.mp hplain).1
  brace h hkind := .taken h (hkind ▸ rfl)
  comma h hkind := .taken h (hkind ▸ rfl)
  name := by
    intro inp taken h hkind
    rw [Taken.parsed_underNode]
    refine .underNode rfl (.taken h ?_)
    cases hname : taken.token.kind <;> simp [hname, nameStart] at hkind <;> rfl
  skip _ _ _ := .skipUntil

theorem command_nested {db : Taken inp} (h : Taken.next? inp = some db)
    (hdb : db.token.kind = .db) : ∀ tree ∈ (command db).trees, Belongs .commands tree := by
  have hending : ∀ tree ∈ (Parsed.optional (commandBody db.rest).rest .semicolon).trees,
      Belongs .command tree := by
    intro tree htree
    rcases optional_trees (commandBody db.rest).rest .semicolon with hnone | ⟨token, hkind, hsome⟩
    · simp [hnone] at htree
    · rw [hsome] at htree
      obtain rfl := List.mem_singleton.mp htree
      exact .terminal (hkind ▸ rfl)
  refine .underNode rfl ?_
  rw [Taken.andThen_eq_append]
  exact List.forall_mem_append.mpr ⟨.taken h (hdb ▸ rfl),
    List.forall_mem_append.mpr ⟨nested.commandBody_holds db.rest, hending⟩⟩

theorem commandItem_nested {token : Taken inp} (h : Taken.next? inp = some token) :
    ∀ tree ∈ (commandItem token).trees, Belongs .commands tree := by
  rw [commandItem]
  split
  · next hkind => exact command_nested h hkind
  · next hkind => exact .underNode rfl (.taken h (hkind ▸ rfl))
  · exact List.forall_mem_cons.mpr ⟨.error, .skipUntil⟩

theorem commandList_nested (inp : Input) :
    ∀ tree ∈ (commandList inp).trees, Belongs .commands tree := by
  fun_induction commandList inp with
  | case1 | case2 => exact fun tree htree => by contradiction
  | case3 inp token h hend ih => exact List.forall_mem_append.mpr ⟨commandItem_nested h, ih⟩

end Syntax

namespace Focus

open Syntax

variable {focus : Focus} {rule : Rule}

-- What stands below the nodes of a tree belongs there, if that is so below its root.
theorem Under.belongs {start : Nat} {children : List Tree}
    (hroot : ∀ child ∈ children, Belongs rule child)
    (h : Under (root (.node rule start children)) focus) :
    ∀ child ∈ focus.tree.children, ∃ outer, focus.tree.is outer ∧ Belongs outer child := by
  induction h with
  | refl => exact fun child hchild => ⟨rule, by simp [root, Tree.is, Tree.rule?], hroot child hchild⟩
  | @child focus index tree _ htree ih =>
    obtain ⟨outer, _, hbelongs⟩ := ih tree (List.mem_of_getElem? htree)
    intro child hchild
    cases hbelongs with
    | terminal | error => contradiction
    | @node _ inner _ _ _ hchildren =>
      exact ⟨inner, by simp [Tree.is, Tree.rule?], hchildren child hchild⟩

end Focus

namespace Pad

open Syntax Focus

variable {text : String} {focus parent : Focus}

theorem belongs_of_under (h : Under (root (ofText text).tree) focus) :
    ∀ child ∈ focus.tree.children, ∃ rule, focus.tree.is rule ∧ Belongs rule child := by
  rw [ofText, tree, parse_eq, padTree] at h
  apply h.belongs
  intro child hchild
  rcases List.mem_cons.mp hchild with rfl | hlast
  · exact .node rfl (commandList_nested _)
  · obtain rfl := List.mem_singleton.mp hlast
    exact .terminal rfl

theorem mem_children_of_parent? (h : Under (root (ofText text).tree) focus)
    (hparent : focus.parent? = some parent) : focus.tree ∈ parent.tree.children := by
  cases h with
  | refl => contradiction
  | child _ hchild =>
    obtain rfl := Option.some.inj hparent
    exact List.mem_of_getElem? hchild

theorem parent_holds (h : Under (root (ofText text).tree) focus)
    (hparent : focus.parent? = some parent) :
    ∃ rule, parent.tree.is rule ∧ Belongs rule focus.tree := by
  have hmem : parent ∈ focus.ancestors := by simp [ancestors_of_parent? hparent]
  exact belongs_of_under (h.of_mem_ancestors hmem).1 _ (mem_children_of_parent? h hparent)

theorem parent_holdsPart {rule : Rule} (h : Under (root (ofText text).tree) focus)
    (hrule : focus.tree.is rule) (hparent : focus.parent? = some parent) :
    ∃ outer, parent.tree.is outer ∧ holdsPart outer (.rule rule) := by
  obtain ⟨outer, houter, hbelongs⟩ := parent_holds h hparent
  obtain ⟨start, children, htree⟩ := Tree.is_iff.mp hrule
  rw [htree] at hbelongs
  cases hbelongs with
  | node hpart => exact ⟨outer, houter, hpart⟩

end Pad

end QueryPad
