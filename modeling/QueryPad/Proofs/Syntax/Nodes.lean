import Mathlib.Data.List.Nodup
import QueryPad.Proofs.Syntax.Nesting
import QueryPad.Proofs.Syntax.Numbers

-- The nodes of a subtree in the order of the arena: each node that lies under a
-- place comes once, and its number is that of its turn.
namespace QueryPad

namespace Focus

variable {focus node : Focus}

mutual

def belowIn (above : List (Tree × Nat)) : Tree → List Focus
  | .node rule start children => belowOf (.node rule start children) above 0 children
  | _ => []

def belowOf (parent : Tree) (above : List (Tree × Nat)) (index : Nat) : List Tree → List Focus
  | [] => []
  | tree :: trees =>
    ⟨tree, (parent, index) :: above⟩ ::
      (belowIn ((parent, index) :: above) tree ++ belowOf parent above (index + 1) trees)

end

-- The nodes below a node, a node before those inside it.
def below (focus : Focus) : List Focus := belowIn focus.above focus.tree

def nodes (focus : Focus) : List Focus := focus :: focus.below

theorem belowOf_eq_flatMap (parent : Focus) (first : Nat) (trees : List Tree) :
    belowOf parent.tree parent.above first trees = (trees.mapIdx fun index tree =>
      (⟨tree, (parent.tree, first + index) :: parent.above⟩ : Focus)).flatMap nodes := by
  induction trees generalizing first with
  | nil => rfl
  | cons tree trees ih =>
    rw [belowOf, ih, List.mapIdx_cons, List.flatMap_cons]
    simp only [Nat.add_assoc, Nat.add_comm 1]
    rfl

theorem below_eq_flatMap (focus : Focus) : focus.below = focus.children.flatMap nodes := by
  obtain ⟨tree, above⟩ := focus
  cases tree with
  | terminal | error => rfl
  | node rule start children =>
    have hflat := belowOf_eq_flatMap ⟨.node rule start children, above⟩ 0 children
    simp only [Nat.zero_add] at hflat
    exact hflat

theorem under_of_mem_nodes {focus : Focus} (h : node ∈ focus.nodes) : Under focus node := by
  rcases List.mem_cons.mp h with rfl | hbelow
  · exact .refl
  · rw [below_eq_flatMap] at hbelow
    obtain ⟨child, hchild, hmem⟩ := List.mem_flatMap.mp hbelow
    have hlt := count_lt_of_mem_children hchild
    exact (Under.refl.mem_children hchild).trans (under_of_mem_nodes hmem)
termination_by focus.tree.count

theorem Under.mem_nodes {focus : Focus} (h : Under focus node) : node ∈ focus.nodes := by
  rcases h.descend with rfl | ⟨index, child, hchild, hbelow⟩
  · exact List.mem_cons_self
  · have hplace : ⟨child, (focus.tree, index) :: focus.above⟩ ∈ focus.children := by
      obtain ⟨hlt, rfl⟩ := List.getElem?_eq_some_iff.mp hchild
      exact List.mem_mapIdx.mpr ⟨index, hlt, rfl⟩
    have hlt := count_lt_of_mem_children hplace
    rw [nodes, below_eq_flatMap]
    exact List.mem_cons_of_mem _ (List.mem_flatMap.mpr ⟨_, hplace, hbelow.mem_nodes⟩)
termination_by focus.tree.count

section Numbers

mutual

theorem map_number_belowIn (above : List (Tree × Nat)) (tree : Tree) :
    (belowIn above tree).map number =
      List.range' (number ⟨tree, above⟩ + 1) (tree.count - 1) := by
  cases tree with
  | terminal | error => rfl
  | node rule start children =>
    have hchildren := map_number_belowOf above rule start [] children
    rw [List.nil_append, List.length_nil] at hchildren
    rw [belowIn, hchildren, Tree.countAll, Tree.count, Nat.add_zero, Nat.add_sub_cancel_left]

-- The children that stand behind others are numbered behind these.
theorem map_number_belowOf (above : List (Tree × Nat)) (rule : Rule) (start : Nat)
    (before trees : List Tree) :
    (belowOf (.node rule start (before ++ trees)) above before.length trees).map number =
      List.range' (number ⟨.node rule start (before ++ trees), above⟩ + 1 + Tree.countAll before)
        (Tree.countAll trees) := by
  cases trees with
  | nil => rfl
  | cons tree trees =>
    have hhead := map_number_belowIn
      ((.node rule start (before ++ tree :: trees), before.length) :: above) tree
    have htail := map_number_belowOf above rule start (before ++ [tree]) trees
    have hnumber : number ⟨tree, (.node rule start (before ++ tree :: trees), before.length) ::
        above⟩ = number ⟨.node rule start (before ++ tree :: trees), above⟩ + 1 +
          Tree.countAll before := by
      show 1 + Tree.countAll ((before ++ tree :: trees).take before.length) + number.go above =
        number.go above + 1 + Tree.countAll before
      rw [List.take_left]
      omega
    obtain ⟨inside, hcount⟩ := Nat.exists_eq_add_of_lt tree.count_pos
    rw [Nat.zero_add] at hcount
    have hjoin (n rest : Nat) : n :: (List.range' (n + 1) inside ++
        List.range' (n + (inside + 1)) rest) = List.range' n (inside + 1 + rest) := by
      rw [← List.range'_append_1, List.range'_succ]
      rfl
    rw [List.append_assoc, List.singleton_append, List.length_append, List.length_singleton,
      Tree.countAll_append, Tree.countAll, Tree.countAll, Nat.add_zero, ← Nat.add_assoc,
      hcount] at htail
    rw [belowOf, List.map_cons, List.map_append, hhead, htail, hnumber, Tree.countAll, hcount,
      Nat.add_sub_cancel, hjoin]

end

-- The nodes under a place are numbered in a row.
theorem map_number_nodes (focus : Focus) :
    focus.nodes.map number = List.range' focus.number focus.tree.count := by
  obtain ⟨inside, hcount⟩ := Nat.exists_eq_add_of_lt focus.tree.count_pos
  rw [nodes, List.map_cons, below, map_number_belowIn, hcount, Nat.zero_add, Nat.add_sub_cancel,
    List.range'_succ]

theorem nodup_nodes (focus : Focus) : focus.nodes.Nodup := by
  apply List.Nodup.of_map number
  rw [map_number_nodes]
  exact List.nodup_range'

end Numbers

end Focus

end QueryPad
