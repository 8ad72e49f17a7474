import Mathlib.Data.List.Basic
import QueryPad.Proofs.Syntax.Arena
import QueryPad.Proofs.Syntax.LastLeaf

-- The number of a place is that of its entry in the arena, and the entry
-- names the places around it by their numbers.
namespace QueryPad

namespace Tree

variable {parent : Option Nat} {id first index : Nat} {tree : Tree} {trees : List Tree}

-- The entry of one of some siblings stands behind those of the siblings before it.
theorem entriesOf_sibling (h : trees[index]? = some tree) :
    tree.entriesFrom parent (id + countAll (trees.take index))
        (first + (tokensOf (trees.take index)).length) <+:
      (entriesOf parent id first trees).drop (countAll (trees.take index)) := by
  induction trees generalizing id first index with
  | nil => simp at h
  | cons head trees ih =>
    rw [entriesOf]
    cases index with
    | zero =>
      obtain rfl := Option.some.inj h
      exact List.prefix_append _ _
    | succ index =>
      have hmore := @ih (id + head.count) (first + head.tokens.length) index h
      have hdrop : ((head.entriesFrom parent id first ++
          entriesOf parent (id + head.count) (first + head.tokens.length) trees).drop
            (countAll ((head :: trees).take (index + 1)))) =
          (entriesOf parent (id + head.count) (first + head.tokens.length) trees).drop
            (countAll (trees.take index)) := by
        rw [List.take_succ_cons, countAll, List.drop_append, length_entriesFrom,
          List.drop_eq_nil_of_le (by rw [length_entriesFrom]; omega), List.nil_append,
          Nat.add_sub_cancel_left]
      rw [hdrop, List.take_succ_cons, countAll, tokensOf, List.length_append, ← Nat.add_assoc,
        ← Nat.add_assoc]
      exact hmore

theorem getElem?_numbersFrom (h : index < trees.length) :
    (numbersFrom id trees)[index]? = some (id + countAll (trees.take index)) := by
  induction trees generalizing id index with
  | nil => simp at h
  | cons tree trees ih =>
    cases index with
    | zero => simp [numbersFrom, countAll]
    | succ index =>
      rw [numbersFrom, List.getElem?_cons_succ, ih (by simpa using h), List.take_succ_cons,
        countAll, Nat.add_assoc]

theorem length_numbersFrom (id : Nat) (trees : List Tree) :
    (numbersFrom id trees).length = trees.length := by
  induction trees generalizing id with
  | nil => rfl
  | cons tree trees ih => rw [numbersFrom, List.length_cons, List.length_cons, ih]

theorem head?_entriesFrom : (tree.entriesFrom parent id first)[0]? =
    some ⟨tree, parent, numbersFrom (id + 1) tree.children, first⟩ := by
  cases tree <;> rfl

end Tree

namespace Focus

variable {tree : Tree} {focus : Focus}

-- How many tokens stand in front of a place.
def tokensBefore (focus : Focus) : Nat :=
  go focus.above
where
  go : List (Tree × Nat) → Nat
    | [] => 0
    | (tree, index) :: above => (Tree.tokensOf (tree.children.take index)).length + go above

theorem map_number_children (focus : Focus) :
    focus.children.map number = Tree.numbersFrom (focus.number + 1) focus.tree.children := by
  apply List.ext_getElem?
  intro index
  by_cases h : index < focus.tree.children.length
  · rw [Tree.getElem?_numbersFrom h, children, List.getElem?_map, List.getElem?_mapIdx,
      List.getElem?_eq_getElem h, Option.map_some, Option.map_some]
    congr 1
    show 1 + Tree.countAll (focus.tree.children.take index) + focus.number = _
    omega
  · rw [List.getElem?_eq_none, List.getElem?_eq_none]
    · rw [Tree.length_numbersFrom]
      omega
    · rw [List.length_map, children, List.length_mapIdx]
      omega

-- From the number of a place on stand the entries of its subtree.
theorem Under.entries (h : Under (root tree) focus) :
    focus.tree.entriesFrom (focus.parent?.map number) focus.number focus.tokensBefore <+:
      tree.arena.drop focus.number := by
  induction h with
  | refl => exact List.prefix_refl _
  | @child focus index child _ hchild ih =>
    obtain ⟨rule, start, children, hfocus, hchild⟩ := Tree.exists_node_of_child hchild
    rw [hfocus]
    rw [hfocus, Tree.entriesFrom] at ih
    obtain ⟨after, hafter⟩ := ih
    have hsibling := @Tree.entriesOf_sibling (some focus.number) (focus.number + 1)
      focus.tokensBefore index child children hchild
    have hnumber : number ⟨child, (.node rule start children, index) :: focus.above⟩ =
        focus.number + 1 + Tree.countAll (children.take index) := by
      show 1 + Tree.countAll (children.take index) + focus.number = _
      omega
    have hbefore : tokensBefore ⟨child, (.node rule start children, index) :: focus.above⟩ =
        focus.tokensBefore + (Tree.tokensOf (children.take index)).length := by
      show (Tree.tokensOf (children.take index)).length + focus.tokensBefore = _
      omega
    have hparent : (parent? ⟨child, (.node rule start children, index) :: focus.above⟩).map
        number = some focus.number := rfl
    rw [hparent, hnumber, hbefore]
    refine hsibling.trans ?_
    -- behind the entry of the parent come those of its children
    rw [Nat.add_assoc, ← List.drop_drop, ← hafter, Nat.add_comm 1, List.cons_append,
      List.drop_succ_cons, List.drop_append]
    exact List.prefix_append _ _

theorem Under.entry (h : Under (root tree) focus) :
    tree.arena[focus.number]? =
      some ⟨focus.tree, focus.parent?.map number, focus.children.map number,
        focus.tokensBefore⟩ := by
  have hhead := @Tree.head?_entriesFrom (focus.parent?.map number) focus.number
    focus.tokensBefore focus.tree
  obtain ⟨after, hafter⟩ := h.entries
  rw [map_number_children, ← hhead, ← Nat.add_zero focus.number, ← List.getElem?_drop, Nat.add_zero,
    ← hafter, List.getElem?_append_left]
  exact (List.getElem?_eq_some_iff.mp hhead).1

theorem Under.mem_children {outer : Focus} (h : Under outer focus)
    {child : Focus}
    (hchild : child ∈ focus.children) : Under outer child := by
  obtain ⟨index, hindex, rfl⟩ := List.mem_mapIdx.mp hchild
  exact h.child (List.getElem?_eq_getElem hindex)

-- Every number of the arena is that of a place.
theorem exists_place {id : Nat} (h : id < tree.arena.length) :
    ∃ focus, Under (root tree) focus ∧ focus.number = id := by
  induction id using Nat.strongRecOn with
  | ind id ih =>
    have hentry := List.getElem?_eq_getElem h
    cases hparent : tree.arena[id].parent with
    | none => exact ⟨root tree, .refl, ((Tree.arena_root hentry).mp hparent).symm⟩
    | some parent =>
      obtain ⟨hlt, above, habove, hcount⟩ := Tree.arena_parent hentry hparent
      obtain ⟨focus, hfocus, rfl⟩ := ih parent hlt (by omega)
      have hself := Option.some.inj (habove.symm.trans hfocus.entry)
      have hmem : id ∈ above.children := List.count_pos_iff.mp (by omega)
      rw [hself] at hmem
      obtain ⟨child, hchild, hid⟩ := List.mem_map.mp hmem
      exact ⟨child, hfocus.mem_children hchild, hid⟩

end Focus

end QueryPad

-- The places around a place: the one above it, those below it and the one
-- before it, with the trees and the numbers that they have.
namespace QueryPad

namespace Tree

theorem count_le_countAll {tree : Tree} {trees : List Tree} (h : tree ∈ trees) :
    tree.count ≤ countAll trees := by
  induction trees with
  | nil => contradiction
  | cons head trees ih =>
    rw [countAll]
    rcases List.mem_cons.mp h with rfl | hmem
    · omega
    · have := ih hmem
      omega

theorem count_lt_of_mem_children {tree child : Tree} (h : child ∈ tree.children) :
    child.count < tree.count := by
  cases tree with
  | terminal | error => contradiction
  | node rule start children =>
    have hle : child.count ≤ countAll children := count_le_countAll h
    rw [count]
    omega

-- The children of one rule of all children of another one.
def childrenIn (tree : Tree) (outer inner : Rule) : List Tree :=
  (tree.childrenOf outer).flatMap (·.childrenOf inner)

end Tree

namespace Focus

def childrenOf (focus : Focus) (rule : Rule) : List Focus :=
  focus.children.filter (·.tree.is rule)

def childrenIn (focus : Focus) (outer inner : Rule) : List Focus :=
  (focus.childrenOf outer).flatMap (·.childrenOf inner)

variable {outer focus other : Focus}

-- A place below another one is that place, or lies below one of its children.
theorem Under.descend (h : Under outer focus) :
    focus = outer ∨ ∃ index child, outer.tree.children[index]? = some child ∧
      Under ⟨child, (outer.tree, index) :: outer.above⟩ focus := by
  induction h with
  | refl => exact .inl rfl
  | @child focus index tree hfocus hchild ih =>
    right
    rcases ih with rfl | ⟨first, child, hfirst, hbelow⟩
    · exact ⟨index, tree, hchild, .refl⟩
    · exact ⟨first, child, hfirst, hbelow.child hchild⟩

-- Different siblings have different numbers.
theorem number_children_increasing (focus : Focus) :
    (focus.children.map number).Pairwise (· < ·) := by
  rw [map_number_children]
  exact Tree.numbersFrom_increasing _ _

theorem map_tree_children (focus : Focus) : focus.children.map tree = focus.tree.children := by
  apply List.ext_getElem?
  intro index
  rw [children, List.getElem?_map, List.getElem?_mapIdx, Option.map_map]
  exact Option.map_id_apply

theorem count_lt_of_mem_children {focus child : Focus} (h : child ∈ focus.children) :
    child.tree.count < focus.tree.count :=
  Tree.count_lt_of_mem_children (map_tree_children focus ▸ List.mem_map_of_mem h)

-- The nodes above a place and those below it are different nodes.
theorem Under.fits {tree : Tree} (h : Under (root tree) focus) :
    focus.above.length + focus.tree.count ≤ tree.count := by
  induction h with
  | refl => simp [root]
  | @child focus index child _ hchild ih =>
    have hlt := Tree.count_lt_of_mem_children (List.mem_of_getElem? hchild)
    rw [List.length_cons]
    dsimp only
    omega

theorem children_getElem? (focus : Focus) (index : Nat) :
    focus.children[index]? = focus.child? index := by
  rw [children, List.getElem?_mapIdx]
  rfl

theorem map_tree_childOf? (focus : Focus) (rule : Rule) :
    (focus.childOf? rule).map Focus.tree = focus.tree.childOf? rule := by
  rw [childOf?, Tree.childOf?, ← map_tree_children, List.find?_map]
  rfl

theorem map_tree_childrenOf (focus : Focus) (rule : Rule) :
    (focus.childrenOf rule).map Focus.tree = focus.tree.childrenOf rule := by
  rw [childrenOf, Tree.childrenOf, ← map_tree_children, List.filter_map]
  rfl

theorem map_tree_childrenIn (focus : Focus) (outer inner : Rule) :
    (focus.childrenIn outer inner).map Focus.tree = focus.tree.childrenIn outer inner := by
  rw [childrenIn, Tree.childrenIn, ← map_tree_childrenOf, List.map_flatMap, List.flatMap_map]
  simp only [map_tree_childrenOf]

theorem mem_children_of_mem_childrenOf {rule : Rule} (h : other ∈ focus.childrenOf rule) :
    other ∈ focus.children := (List.mem_filter.mp h).1

theorem exists_of_mem_childrenIn {outer inner : Rule} (h : other ∈ focus.childrenIn outer inner) :
    ∃ list ∈ focus.children, other ∈ list.children := by
  obtain ⟨list, hlist, hother⟩ := List.mem_flatMap.mp h
  exact ⟨list, mem_children_of_mem_childrenOf hlist, mem_children_of_mem_childrenOf hother⟩

section Root

variable {tree : Tree}

theorem Under.parent? (h : Under (root tree) focus) {parent : Focus}
    (hparent : focus.parent? = some parent) : Under (root tree) parent ∧ focus ∈ parent.children := by
  obtain ⟨inner, above⟩ := focus
  cases above with
  | nil => contradiction
  | cons head above =>
    obtain ⟨outer, index⟩ := head
    obtain rfl := Option.some.inj hparent
    rcases h.climb with hroot | ⟨habove, hchild⟩
    · simp [root] at hroot
    · obtain ⟨hlt, rfl⟩ := List.getElem?_eq_some_iff.mp hchild
      exact ⟨habove, List.mem_mapIdx.mpr ⟨index, hlt, rfl⟩⟩

theorem Under.previousSibling? (h : Under (root tree) focus)
    (hother : focus.previousSibling? = some other) : Under (root tree) other := by
  obtain ⟨inner, above⟩ := focus
  match above with
  | [] | (_, 0) :: _ => contradiction
  | (outer, index + 1) :: above =>
    obtain ⟨sibling, hsibling, rfl⟩ := Option.map_eq_some_iff.mp hother
    exact (h.parent? rfl).1.child hsibling

theorem Under.child? (h : Under (root tree) focus) {index : Nat}
    (hother : focus.child? index = some other) : Under (root tree) other := by
  obtain ⟨child, hchild, rfl⟩ := Option.map_eq_some_iff.mp hother
  exact h.child hchild

end Root

end Focus

end QueryPad
