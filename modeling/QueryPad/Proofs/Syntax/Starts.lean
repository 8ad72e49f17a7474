import QueryPad.Proofs.Syntax.Lossless
import QueryPad.Proofs.Syntax.Numbers

-- Every node, also one without tokens, begins where the token begins that was
-- next when its rule began.
namespace QueryPad

namespace Tree

mutual

-- Each node begins with the first of the tokens from there on.
def Placed (tokens : List Token) : Tree → Prop
  | .node _ start children => start = Syntax.startOf tokens ∧ AllPlaced tokens children
  | _ => True

def AllPlaced (tokens : List Token) : List Tree → Prop
  | [] => True
  | tree :: trees => tree.Placed tokens ∧ AllPlaced (tokens.drop tree.tokens.length) trees

end

variable {tokens : List Token}

theorem placed_of_isLeaf {tree : Tree} (h : tree.isLeaf) : tree.Placed tokens := by
  cases tree with
  | node => simp [isLeaf] at h
  | _ => trivial

theorem allPlaced_of_leaves {trees : List Tree} (h : ∀ tree ∈ trees, tree.isLeaf) :
    AllPlaced tokens trees := by
  induction trees generalizing tokens with
  | nil => trivial
  | cons tree trees ih =>
    obtain ⟨htree, hmore⟩ := List.forall_mem_cons.mp h
    exact ⟨placed_of_isLeaf htree, ih hmore⟩

theorem allPlaced_append {a b : List Tree} :
    AllPlaced tokens (a ++ b) ↔
      AllPlaced tokens a ∧ AllPlaced (tokens.drop (tokensOf a).length) b := by
  induction a generalizing tokens with
  | nil => simp [AllPlaced, tokensOf]
  | cons tree trees ih =>
    rw [List.cons_append, AllPlaced, AllPlaced, ih, tokensOf, List.length_append, List.drop_drop,
      and_assoc]

theorem AllPlaced.getElem? {trees : List Tree} {index : Nat} {tree : Tree}
    (h : AllPlaced tokens trees) (htree : trees[index]? = some tree) :
    tree.Placed (tokens.drop (tokensOf (trees.take index)).length) := by
  induction trees generalizing tokens index with
  | nil => simp at htree
  | cons head trees ih =>
    cases index with
    | zero =>
      obtain rfl := Option.some.inj htree
      exact h.1
    | succ index =>
      have hmore := ih h.2 htree
      rw [List.drop_drop] at hmore
      rw [List.take_succ_cons, tokensOf, List.length_append]
      exact hmore

end Tree

namespace Syntax

open QueryPad.Tree

variable {inp : Input}

theorem Parsed.drop_ahead (parsed : Parsed inp) :
    inp.ahead.drop (tokensOf parsed.trees).length = parsed.rest.ahead := by
  rw [← parsed.lossless, List.drop_left]

theorem placed_append {parsed : Parsed inp} {next : Parsed parsed.rest}
    (head : AllPlaced inp.ahead parsed.trees) (tail : AllPlaced parsed.rest.ahead next.trees) :
    AllPlaced inp.ahead (parsed.append next).trees :=
  allPlaced_append.mpr ⟨head, parsed.drop_ahead ▸ tail⟩

theorem placed_taken {taken : Taken inp} (h : Taken.next? inp = some taken) :
    AllPlaced inp.ahead taken.parsed.trees :=
  ⟨placed_of_isLeaf (by rw [Taken.tree_eq h]; rfl), trivial⟩

theorem placed_underNode {parsed : Parsed inp} (rule : Rule)
    (body : AllPlaced inp.ahead parsed.trees) : AllPlaced inp.ahead (parsed.underNode rule).trees :=
  ⟨⟨rfl, body⟩, trivial⟩

theorem placed_skipUntil (inp : Input) (stops : TokenKind → Bool) :
    AllPlaced inp.ahead (Parsed.skipUntil inp stops).trees := by
  exact allPlaced_of_leaves fun _ => isLeaf_of_mem_skipUntil

theorem placed : Invariant fun {inp} parsed => AllPlaced inp.ahead parsed.trees where
  nothing _ := trivial
  report _ _ := trivial
  append head tail := placed_append head tail
  underNode rule _ body := placed_underNode rule body
  token h _ _ := placed_taken h
  skip inp _ := placed_skipUntil inp _

theorem command_placed {db : Taken inp} (h : Taken.next? inp = some db) :
    AllPlaced inp.ahead (command db).trees := by
  have hending : AllPlaced (commandBody db.rest).rest.ahead
      (Parsed.optional (commandBody db.rest).rest .semicolon).trees :=
    allPlaced_of_leaves fun _ => isLeaf_of_mem_optional
  refine placed_underNode .command ?_
  rw [Taken.andThen_eq_append]
  exact placed_append (placed_taken h) (placed_append (placed.commandBody_holds db.rest) hending)

theorem commandItem_placed {token : Taken inp} (h : Taken.next? inp = some token) :
    AllPlaced inp.ahead (commandItem token).trees := by
  rw [commandItem]
  split
  · exact command_placed h
  · exact placed_underNode .emptyCommand (placed_taken h)
  · exact allPlaced_of_leaves
      (List.forall_mem_cons.mpr ⟨rfl, fun _ => isLeaf_of_mem_skipUntil⟩)

theorem commandList_placed (inp : Input) : AllPlaced inp.ahead (commandList inp).trees := by
  fun_induction commandList inp with
  | case1 | case2 => trivial
  | case3 inp token h hend ih => exact placed_append (commandItem_placed h) ih

end Syntax

namespace Focus

variable {outer focus : Focus} {tokens : List Token}

-- The tokens of some siblings are those before one of them, its own, and the rest.
theorem exists_tokensOf {trees : List Tree} {index : Nat} {tree : Tree}
    (h : trees[index]? = some tree) : ∃ after,
    Tree.tokensOf trees = Tree.tokensOf (trees.take index) ++ (tree.tokens ++ after) := by
  obtain ⟨hlt, hget⟩ := List.getElem?_eq_some_iff.mp h
  have hsplit : trees = trees.take index ++ tree :: trees.drop (index + 1) := by
    rw [← hget, List.getElem_cons_drop, List.take_append_drop]
  refine ⟨Tree.tokensOf (trees.drop (index + 1)), ?_⟩
  rw [← Tree.tokensOf, ← Tree.tokensOf_append, ← hsplit]

-- The tokens of a place lie inside those of the place above.
theorem Under.tokensBefore_le (h : Under outer focus) :
    focus.tokensBefore + focus.tree.tokens.length ≤
      outer.tokensBefore + outer.tree.tokens.length := by
  induction h with
  | refl => exact Nat.le_refl _
  | @child focus index tree _ hchild ih =>
    obtain ⟨rule, start, children, hfocus, hchild⟩ := Tree.exists_node_of_child hchild
    rw [hfocus]
    rw [hfocus, Tree.tokens] at ih
    obtain ⟨after, hafter⟩ := exists_tokensOf hchild
    have hlength := congrArg List.length hafter
    rw [List.length_append, List.length_append] at hlength
    show (Tree.tokensOf (children.take index)).length + focus.tokensBefore +
      tree.tokens.length ≤ _
    omega

theorem Under.placed (h : Under outer focus)
    (houter : outer.tree.Placed (tokens.drop outer.tokensBefore)) :
    focus.tree.Placed (tokens.drop focus.tokensBefore) := by
  induction h with
  | refl => exact houter
  | @child focus index tree _ hchild ih =>
    obtain ⟨rule, start, children, hfocus, hchild⟩ := Tree.exists_node_of_child hchild
    rw [hfocus]
    rw [hfocus] at ih
    have hplaced := ih.2.getElem? hchild
    rwa [List.drop_drop, Nat.add_comm] at hplaced

theorem Under.tokens_leading (h : Under outer focus)
    (houter : outer.tree.tokens <+: tokens.drop outer.tokensBefore) :
    focus.tree.tokens <+: tokens.drop focus.tokensBefore := by
  induction h with
  | refl => exact houter
  | @child focus index tree _ hchild ih =>
    obtain ⟨rule, start, children, hfocus, hchild⟩ := Tree.exists_node_of_child hchild
    rw [hfocus]
    rw [hfocus, Tree.tokens] at ih
    obtain ⟨behind, hbehind⟩ := exists_tokensOf hchild
    obtain ⟨after, hafter⟩ := ih
    rw [hbehind] at hafter
    have hbefore : tokensBefore ⟨tree, (.node rule start children, index) :: focus.above⟩ =
        focus.tokensBefore + (Tree.tokensOf (children.take index)).length := Nat.add_comm _ _
    rw [hbefore, ← List.drop_drop, ← hafter, List.append_assoc, List.drop_left,
      List.append_assoc]
    exact List.prefix_append _ _

-- The tokens before a child are those before its parent and those of its elders.
theorem Under.take_tokensBefore {tree child : Tree} {index : Nat} (h : Under (root tree) focus)
    (hchild : focus.tree.children[index]? = some child) :
    tree.tokens.take (tokensBefore ⟨child, (focus.tree, index) :: focus.above⟩) =
      tree.tokens.take focus.tokensBefore ++ Tree.tokensOf (focus.tree.children.take index) := by
  obtain ⟨rule, start, children, hfocus, hchild⟩ := Tree.exists_node_of_child hchild
  rw [hfocus]
  obtain ⟨behind, hbehind⟩ := exists_tokensOf hchild
  obtain ⟨after, hafter⟩ := h.tokens_leading (List.prefix_refl _)
  rw [hfocus, Tree.tokens, hbehind, root] at hafter
  have hbefore : tokensBefore ⟨child, (.node rule start children, index) :: focus.above⟩ =
      focus.tokensBefore + (Tree.tokensOf (children.take index)).length := Nat.add_comm _ _
  rw [hbefore, List.take_add, ← hafter, List.append_assoc, List.take_left]
  rfl

end Focus

end QueryPad
