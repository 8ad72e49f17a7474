import QueryPad.Command.Extraction
import QueryPad.Proofs.Syntax.Acceptance
import QueryPad.Proofs.Token.Words

-- Trees without their places, and what of a tree does not depend on them.
namespace QueryPad

def Token.unplaced (token : Token) : Token := ⟨token.kind, 0, token.chars⟩

theorem Token.unplaced_eq_iff {a b : Token} : a.unplaced = b.unplaced ↔ a.word = b.word := by
  simp [unplaced, word]

namespace Tree

mutual

-- The same tree with all its leaves and nodes at the start of a text.
def unplaced : Tree → Tree
  | .terminal token => .terminal token.unplaced
  | .error token => .error token.unplaced
  | .node rule _ children => .node rule 0 (unplacedAll children)

def unplacedAll : List Tree → List Tree
  | [] => []
  | tree :: trees => tree.unplaced :: unplacedAll trees

end

@[simp] theorem unplacedAll_eq_map (trees : List Tree) :
    unplacedAll trees = trees.map unplaced := by
  induction trees with
  | nil => rfl
  | cons tree trees ih => rw [unplacedAll, ih, List.map_cons]

section Views

variable (tree : Tree) (trees : List Tree) (rule : Rule)

@[simp] theorem is_unplaced : tree.unplaced.is rule = tree.is rule := by
  cases tree <;> rfl

@[simp] theorem isLeaf_unplaced : tree.unplaced.isLeaf = tree.isLeaf := by
  cases tree <;> rfl

@[simp] theorem isTerminal_unplaced (kind : TokenKind) :
    tree.unplaced.isTerminal kind = tree.isTerminal kind := by
  cases tree <;> rfl

@[simp] theorem kindName_unplaced : tree.unplaced.kindName = tree.kindName := by
  cases tree <;> rfl

@[simp] theorem children_unplaced : tree.unplaced.children = tree.children.map unplaced := by
  cases tree with
  | node => exact unplacedAll_eq_map _
  | _ => rfl

mutual

theorem tokens_unplaced (tree : Tree) : tree.unplaced.tokens = tree.tokens.map Token.unplaced := by
  cases tree with
  | node rule start children => exact tokensOf_unplaced children
  | _ => rfl

theorem tokensOf_unplaced (trees : List Tree) :
    tokensOf (unplacedAll trees) = (tokensOf trees).map Token.unplaced := by
  cases trees with
  | nil => rfl
  | cons tree trees =>
    rw [unplacedAll, tokensOf, tokensOf, List.map_append, tokens_unplaced tree,
      tokensOf_unplaced trees]

end

@[simp] theorem chars_unplaced : tree.unplaced.chars = tree.chars := by
  rw [chars, chars, tokens_unplaced, List.flatMap_map]
  rfl

@[simp] theorem text_unplaced : tree.unplaced.text = tree.text := by
  rw [text, text, chars_unplaced]

theorem find?_unplaced {p : Tree → Bool} (hp : ∀ tree : Tree, p tree.unplaced = p tree) :
    (trees.map unplaced).find? p = (trees.find? p).map unplaced := by
  rw [List.find?_map]
  congr 2
  exact funext hp

theorem filter_unplaced {p : Tree → Bool} (hp : ∀ tree : Tree, p tree.unplaced = p tree) :
    (trees.map unplaced).filter p = (trees.filter p).map unplaced := by
  rw [List.filter_map]
  congr 2
  exact funext hp

theorem childOf?_unplaced : tree.unplaced.childOf? rule = (tree.childOf? rule).map unplaced := by
  rw [childOf?, children_unplaced, find?_unplaced _ fun tree => tree.is_unplaced rule, childOf?]

theorem childrenOf_unplaced :
    tree.unplaced.childrenOf rule = (tree.childrenOf rule).map unplaced := by
  rw [childrenOf, children_unplaced, filter_unplaced _ fun tree => tree.is_unplaced rule,
    childrenOf]

mutual

theorem nodesOf_unplaced (rule : Rule) (tree : Tree) :
    tree.unplaced.nodesOf rule = (tree.nodesOf rule).map unplaced := by
  cases tree with
  | node other start children =>
    have hinside := nodesOfAll_unplaced rule children
    rw [unplaced, nodesOf, nodesOf, hinside]
    split <;> rfl
  | _ => rfl

theorem nodesOfAll_unplaced (rule : Rule) (trees : List Tree) :
    nodesOfAll rule (unplacedAll trees) = (nodesOfAll rule trees).map unplaced := by
  cases trees with
  | nil => rfl
  | cons tree trees =>
    rw [unplacedAll, nodesOfAll, nodesOfAll, List.map_append, nodesOf_unplaced rule tree,
      nodesOfAll_unplaced rule trees]

end

end Views

end Tree

namespace Syntax

-- What tokens derive, the same tokens derive at other places and before another
-- rest.
theorem Derives.elsewhere {form : List Symbol} {ahead rest : List Token} {trees : List Tree}
    (h : Derives form ahead trees rest) {tokens : List Token}
    (htokens : tokens.map Token.word = (Tree.tokensOf trees).map Token.word) (behind : List Token) :
    ∃ trees', Derives form (tokens ++ behind) trees' behind ∧
      trees'.map Tree.unplaced = trees.map Tree.unplaced := by
  induction h generalizing tokens behind with
  | done =>
    obtain rfl : tokens = [] := by simpa [Tree.tokensOf] using htokens
    exact ⟨[], .done _, rfl⟩
  | @token kind token _ _ _ _ found tail ih =>
    rw [Tree.tokensOf, Tree.tokens, List.map_append] at htokens
    obtain ⟨first, tokens, rfl, hfirst, htail⟩ := List.map_eq_cons_iff.mp htokens
    obtain ⟨trees', derived, hsame⟩ := ih htail behind
    have hkind : first.kind = kind := (Prod.mk.inj hfirst).1.trans found
    refine ⟨_, .token hkind derived, ?_⟩
    rw [List.map_cons, List.map_cons, hsame, Tree.unplaced, Tree.unplaced,
      Token.unplaced_eq_iff.mpr hfirst]
  | rule body tail ihbody ihtail =>
    rw [Tree.tokensOf, Tree.tokens, List.map_append] at htokens
    obtain ⟨front, back, rfl, hfront, hback⟩ := List.map_eq_append_iff.mp htokens
    obtain ⟨children, derived, hchildren⟩ := ihbody hfront (back ++ behind)
    obtain ⟨trees', derived', hsame⟩ := ihtail hback behind
    rw [List.append_assoc]
    refine ⟨_, .rule derived derived', ?_⟩
    rw [List.map_cons, List.map_cons, hsame, Tree.unplaced, Tree.unplaced,
      Tree.unplacedAll_eq_map, Tree.unplacedAll_eq_map, hchildren]
  | anyOf choice _ ih => exact (ih htokens behind).imp fun _ => .imp_left (.anyOf choice)
  | absent _ ih => exact (ih htokens behind).imp fun _ => .imp_left .absent
  | present _ ih => exact (ih htokens behind).imp fun _ => .imp_left .present
  | stop _ ih => exact (ih htokens behind).imp fun _ => .imp_left .stop
  | again _ ih => exact (ih htokens behind).imp fun _ => .imp_left .again

end Syntax

end QueryPad
