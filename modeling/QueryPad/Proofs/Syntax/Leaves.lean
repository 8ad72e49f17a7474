import QueryPad.Proofs.Syntax.Numbers

-- The leaves of a tree from left to right, as trees and as places. The search
-- for the last leaf before an offset goes through them from the right.
namespace QueryPad

namespace Tree

theorem isLeaf_eq (tree : Tree) : tree.isLeaf = tree.token?.isSome := by
  cases tree <;> rfl

mutual

-- The leaves from left to right.
def leaves : Tree → List Tree
  | node _ _ children => leavesOf children
  | leaf => [leaf]

def leavesOf : List Tree → List Tree
  | [] => []
  | tree :: trees => tree.leaves ++ leavesOf trees

end

@[simp] theorem leavesOf_append (a b : List Tree) :
    leavesOf (a ++ b) = leavesOf a ++ leavesOf b := by
  induction a with
  | nil => rfl
  | cons tree trees ih => rw [List.cons_append, leavesOf, leavesOf, ih, List.append_assoc]

mutual

theorem map_leaves (tree : Tree) : tree.leaves.map token? = tree.tokens.map some := by
  cases tree with
  | terminal | error => rfl
  | node rule start children => rw [leaves, tokens, map_leavesOf]

theorem map_leavesOf (trees : List Tree) :
    (leavesOf trees).map token? = (tokensOf trees).map some := by
  cases trees with
  | nil => rfl
  | cons tree trees =>
    rw [leavesOf, tokensOf, List.map_append, List.map_append, map_leaves, map_leavesOf]

end

theorem filterMap_leavesOf (trees : List Tree) :
    (leavesOf trees).filterMap token? = tokensOf trees := by
  have hmap := congrArg (List.filterMap id) (map_leavesOf trees)
  rw [List.filterMap_map, List.filterMap_map] at hmap
  exact hmap.trans List.filterMap_some

end Tree

namespace Focus

variable {offset : Nat} {focus : Focus}

mutual

def leavesIn (above : List (Tree × Nat)) : Tree → List Focus
  | .node rule start children => leavesOf (.node rule start children) above 0 children
  | leaf => [⟨leaf, above⟩]

def leavesOf (parent : Tree) (above : List (Tree × Nat)) (index : Nat) : List Tree → List Focus
  | [] => []
  | tree :: trees =>
    leavesIn ((parent, index) :: above) tree ++ leavesOf parent above (index + 1) trees

end

-- The places of the leaves from left to right.
def leaves (focus : Focus) : List Focus := leavesIn focus.above focus.tree

mutual

theorem map_tree_leavesIn (tree : Tree) (above : List (Tree × Nat)) :
    (leavesIn above tree).map Focus.tree = tree.leaves := by
  cases tree with
  | terminal | error => rfl
  | node rule start children => rw [leavesIn, Tree.leaves, map_tree_leavesOf]

theorem map_tree_leavesOf (trees : List Tree) (parent : Tree) (above : List (Tree × Nat))
    (index : Nat) : (leavesOf parent above index trees).map Focus.tree = Tree.leavesOf trees := by
  cases trees with
  | nil => rfl
  | cons tree trees =>
    rw [leavesOf, Tree.leavesOf, List.map_append, map_tree_leavesIn, map_tree_leavesOf]

end

-- Their tokens are those of the tree, in the same order.
theorem map_token?_leaves (focus : Focus) :
    focus.leaves.map (·.tree.token?) = focus.tree.tokens.map some := by
  have htrees : focus.leaves.map Focus.tree = focus.tree.leaves := map_tree_leavesIn _ _
  rw [← Tree.map_leaves, ← htrees, List.map_map]
  rfl

theorem isConsumed_eq (focus : Focus) : focus.tree.isConsumed = !focus.leaves.isEmpty := by
  have htokens := congrArg List.isEmpty (map_token?_leaves focus)
  rw [List.isEmpty_map, List.isEmpty_map] at htokens
  rw [Tree.isConsumed, htokens]

theorem leavesOf_eq_flatMap (parent : Focus) (first : Nat) (trees : List Tree) :
    leavesOf parent.tree parent.above first trees = (trees.mapIdx fun index tree =>
      (⟨tree, (parent.tree, first + index) :: parent.above⟩ : Focus)).flatMap leaves := by
  induction trees generalizing first with
  | nil => rfl
  | cons tree trees ih =>
    rw [leavesOf, ih, List.mapIdx_cons, List.flatMap_cons]
    simp only [Nat.add_assoc, Nat.add_comm 1]
    rfl

-- The leaves of a node are those of its children, one child after the other.
theorem leaves_eq_flatMap (hleaf : ¬ focus.tree.isLeaf) :
    focus.leaves = focus.children.flatMap leaves := by
  obtain ⟨tree, above⟩ := focus
  cases tree with
  | terminal | error => contradiction
  | node rule start children =>
    have hflat := leavesOf_eq_flatMap ⟨.node rule start children, above⟩ 0 children
    simp only [Nat.zero_add] at hflat
    exact hflat

theorem leaves_of_isLeaf (hleaf : focus.tree.isLeaf) : focus.leaves = [focus] := by
  obtain ⟨tree, above⟩ := focus
  cases tree with
  | terminal | error => rfl
  | node => contradiction

theorem under_of_mem_leaves {focus leaf : Focus} (hleaf : leaf ∈ focus.leaves) :
    Under focus leaf := by
  by_cases hself : focus.tree.isLeaf
  · rw [leaves_of_isLeaf hself] at hleaf
    obtain rfl := List.mem_singleton.mp hleaf
    exact .refl
  · rw [leaves_eq_flatMap hself] at hleaf
    obtain ⟨child, hchild, hmem⟩ := List.mem_flatMap.mp hleaf
    have hlt := count_lt_of_mem_children hchild
    exact (Under.refl.mem_children hchild).trans (under_of_mem_leaves hmem)
termination_by focus.tree.count

mutual

theorem lastLeafIn?_eq_getLast? (tree : Tree) (above : List (Tree × Nat)) :
    lastLeafIn? offset above tree =
      ((leavesIn above tree).filter (·.tree.token?.any (endsBy · offset))).getLast? := by
  cases tree with
  | terminal token | error token =>
    cases hends : endsBy token offset <;> simp [lastLeafIn?, leavesIn, Tree.token?, hends]
  | node rule start children => rw [lastLeafIn?, leavesIn, lastLeafOf?_eq_getLast?]

theorem lastLeafOf?_eq_getLast? (trees : List Tree) (parent : Tree) (above : List (Tree × Nat))
    (index : Nat) : lastLeafOf? offset parent above index trees =
      ((leavesOf parent above index trees).filter
        (·.tree.token?.any (endsBy · offset))).getLast? := by
  cases trees with
  | nil => rfl
  | cons tree trees =>
    rw [lastLeafOf?, leavesOf, List.filter_append, List.getLast?_append,
      lastLeafOf?_eq_getLast? trees, lastLeafIn?_eq_getLast? tree]

end

-- What is found is the leaf of the last token that ends early enough.
theorem map_token?_lastLeafBefore? (focus : Focus) (offset : Nat) :
    (focus.lastLeafBefore? offset).map (·.tree.token?) =
      (focus.tree.tokens.filter (endsBy · offset)).getLast?.map some := by
  rw [lastLeafBefore?, lastLeafIn?_eq_getLast?, ← List.getLast?_map, ← List.getLast?_map]
  congr 1
  calc (focus.leaves.filter (·.tree.token?.any (endsBy · offset))).map (·.tree.token?)
      = (focus.leaves.map (·.tree.token?)).filter (·.any (endsBy · offset)) := by
        rw [List.filter_map]
        rfl
    _ = (focus.tree.tokens.map some).filter (·.any (endsBy · offset)) := by
        rw [map_token?_leaves]
    _ = (focus.tree.tokens.filter (endsBy · offset)).map some := by
        rw [List.filter_map]
        rfl

end Focus

end QueryPad
