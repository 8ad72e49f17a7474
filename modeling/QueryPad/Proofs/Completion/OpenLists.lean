import QueryPad.Proofs.Completion.Deciding

-- In a list of arguments that is not closed before the cursor, the word for the
-- database is offered behind a call that is an argument, and nowhere else.
namespace QueryPad

open Text

namespace Syntax

-- The rules of what can stand in the arguments of a call, and of the arguments.
def isValuePart (rule : Rule) : Bool := !rule.isOuter && rule ≠ .collection

theorem isValuePart_of_holdsPart {rule inner : Rule} (hrule : isValuePart rule)
    (h : holdsPart rule (.rule inner)) : isValuePart inner := by
  cases rule <;> cases inner <;> revert hrule h <;> decide

end Syntax

namespace Focus

-- The arguments of a call that is made on a command.
def isDirectList (list : Focus) : Bool :=
  list.tree.is .arguments && list.parent?.any fun call =>
    call.tree.is .functionCall && call.parent?.any (·.tree.is .command)

-- Whether the closing parenthesis of a list is there and ends by an offset.
def isClosedBy (list : Focus) (offset : Nat) : Bool :=
  list.tree.children.any fun tree => tree.isTerminal .closeParen && tree.span.stop ≤ offset

end Focus

namespace Pad

open Syntax CompletionContext

variable {text : String} {p : Position} {leaf list focus node parent : Focus} {rule : Rule}

-- Nothing but parts of values stands inside a part of a value.
theorem isValuePart_of_under (h : Focus.Under (Focus.root (ofText text).tree) focus)
    (hrule : focus.tree.is rule) (hpart : isValuePart rule) (hnode : Focus.Under focus node) :
    ∀ inner, node.tree.is inner → isValuePart inner := by
  induction hnode with
  | refl =>
    intro inner hinner
    obtain rfl := Tree.is_unique hrule hinner
    exact hpart
  | @child above index tree habove hchild ih =>
    intro inner hinner
    obtain ⟨outer, houter, hbelongs⟩ := belongs_of_under (h.trans habove) _
      (List.mem_of_getElem? hchild)
    obtain ⟨start, children, rfl⟩ := Tree.is_iff.mp hinner
    cases hbelongs with
    | node hholds => exact isValuePart_of_holdsPart (ih _ houter) hholds

-- The arguments of a call decide, so that no node around them is asked.
theorem decidedAt?_list (cursor : Cursor) (h : list.tree.is .arguments) :
    (decidedAt? cursor list).isSome := by
  obtain ⟨tree, above⟩ := list
  obtain ⟨start, children, rfl⟩ := Tree.is_iff.mp h
  dsimp only [decidedAt?]
  split <;> rfl

-- Inside a list the keyword is decided by a list that a parenthesis has closed.
theorem exists_leaf_of_keyword {cursor : Cursor} {range : Range}
    (hlist : Focus.Under (Focus.root (ofText text).tree) list) (hrule : list.tree.is .arguments)
    (hnode : node = list ∨ list ∈ node.ancestors)
    (hroot : Focus.Under (Focus.root (ofText text).tree) node)
    (h : Decision cursor node (.keyword range)) :
    ∃ leaf, node.lastLeafBefore? cursor.offset = some leaf ∧ leaf.tree.isTerminal .closeParen := by
  have hparts : ∀ {inside rule}, Focus.Under list inside → inside.tree.is rule → isValuePart rule :=
    fun hinside hinner => isValuePart_of_under hlist hrule rfl hinside _ hinner
  have hunder : Focus.Under list node :=
    hnode.elim (fun h => h ▸ .refl) fun h => (hroot.of_mem_ancestors h).2
  cases h with
  | skipped hleaf hparent =>
    -- a skipped token stands right below the commands only outside of all lists
    obtain ⟨parent, hparent, hcommands⟩ := hparent
    rcases hnode with rfl | hnode
    · obtain ⟨start, children, htree⟩ := Tree.is_iff.mp hrule
      simp [htree, Tree.isLeaf] at hleaf
    · have habove : Focus.Under list parent := by
        rw [Focus.ancestors_of_parent? hparent] at hnode
        rcases List.mem_cons.mp hnode with rfl | hnode
        · exact .refl
        · have hmem : parent ∈ node.ancestors := by simp [Focus.ancestors_of_parent? hparent]
          exact ((hroot.of_mem_ancestors hmem).1.of_mem_ancestors hnode).2
      have hpart := hparts habove hcommands
      contradiction
  | outer hinner houter =>
    have hpart := hparts hunder hinner
    simp [isValuePart, houter] at hpart
  | call _ hnames => rcases hnames with ⟨_, h⟩ | ⟨_, h⟩ | h <;> contradiction
  | closedList _ hleaf hclosing => exact ⟨_, hleaf, hclosing⟩

section Leaf

variable (hleaf : (Focus.root (ofText text).tree).lastLeafBefore?
  ((ofText text).cursorAt p).offset = some leaf)

include hleaf

theorem leaf_under : Focus.Under (Focus.root (ofText text).tree) leaf :=
  (Focus.lastLeafIn?_under hleaf).1

theorem closeParen_of_keyword {range : Range} (hlist : list ∈ leaf.ancestors)
    (hrule : list.tree.is .arguments) (h : (ofText text).contextAt p = .keyword range) :
    leaf.tree.isTerminal .closeParen := by
  have hroot := leaf_under hleaf
  obtain ⟨before, node, after, hsplit, hdecided, hbefore⟩ :=
    exists_decided_of_contextAt hleaf h (by simp)
  have hmem : node ∈ leaf :: leaf.ancestors := by simp [hsplit]
  have hnode : node = list ∨ list ∈ node.ancestors := by
    rw [Focus.ancestors_of_split hsplit]
    have hlist : list ∈ before ++ node :: after := by simp [← hsplit, hlist]
    rcases List.mem_append.mp hlist with hbelow | habove
    · simpa [hbefore list hbelow] using decidedAt?_list ((ofText text).cursorAt p) hrule
    · exact (List.mem_cons.mp habove).imp Eq.symm id
  obtain ⟨last, hlast, hclosing⟩ := exists_leaf_of_keyword (hroot.of_mem_ancestors hlist).1
    hrule hnode (hroot.of_mem_lineage hmem) (decision_of_decidedAt? hdecided)
  -- the last leaf in the node that decides is the last one of all
  have hsame : node.lastLeafBefore? ((ofText text).cursorAt p).offset = some leaf := by
    refine (hroot.of_mem_lineage hmem).lastLeafBefore? ?_ hleaf
    rcases List.mem_cons.mp hmem with rfl | hmem
    · exact .refl
    · exact (hroot.of_mem_ancestors hmem).2
  obtain rfl := Option.some.inj (hlast.symm.trans hsame)
  exact hclosing

-- A parenthesis that closes a list stands in the list.
theorem parent_of_closeParen (h : leaf.tree.isTerminal .closeParen)
    (hparent : leaf.parent? = some parent) : parent.tree.is .arguments := by
  obtain ⟨rule, hrule, hbelongs⟩ := parent_holds (leaf_under hleaf) hparent
  obtain ⟨token, hkind, htree⟩ := Tree.isTerminal_iff.mp h
  rw [htree] at hbelongs
  cases hbelongs with
  | terminal hpart =>
    rw [hkind] at hpart
    obtain rfl := eq_of_holdsPart_closeParen hpart
    exact hrule

theorem contextAt_of_closeParen (h : leaf.tree.isTerminal .closeParen)
    (hparent : leaf.parent? = some parent) :
    (ofText text).contextAt p = .keyword (((ofText text).cursorAt p).rangeAfter leaf) := by
  have hroot := leaf_under hleaf
  have hmem : parent ∈ leaf.ancestors := by simp [Focus.ancestors_of_parent? hparent]
  obtain ⟨habove, hbelow⟩ := hroot.of_mem_ancestors hmem
  have hlast := habove.lastLeafBefore? hbelow hleaf
  have hself : decidedAt? ((ofText text).cursorAt p) leaf = none := by
    obtain ⟨token, _, htree⟩ := Tree.isTerminal_iff.mp h
    rw [decidedAt?, htree]
  have hdecided : decidedAt? ((ofText text).cursorAt p) parent =
      some (.keyword (((ofText text).cursorAt p).rangeAfter leaf)) := by
    obtain ⟨start, children, htree⟩ := Tree.is_iff.mp (parent_of_closeParen hleaf h hparent)
    rw [decidedAt?, htree]
    dsimp only
    rw [hlast]
    simp [h]
  rw [contextAt_of_leaf hleaf, Focus.ancestors_of_parent? hparent, List.findSome?_cons, hself,
    List.findSome?_cons, hdecided]
  rfl

-- In a list that is open, a leaf that closes a list closes one further inside.
theorem inside_of_closeParen (h : leaf.tree.isTerminal .closeParen) (hlist : list ∈ leaf.ancestors)
    (hopen : ¬ list.isClosedBy ((ofText text).cursorAt p).offset) :
    ∃ inner, leaf.parent? = some inner ∧ inner.tree.is .arguments ∧ list ∈ inner.ancestors := by
  obtain ⟨inner, hparent⟩ := Focus.exists_parent_of_mem hlist
  refine ⟨inner, hparent, parent_of_closeParen hleaf h hparent, ?_⟩
  rw [Focus.ancestors_of_parent? hparent] at hlist
  rcases List.mem_cons.mp hlist with rfl | hlist
  · refine absurd ?_ hopen
    obtain ⟨_, token, htoken, hends⟩ := Focus.lastLeafIn?_under hleaf
    have hstop : leaf.tree.span.stop ≤ ((ofText text).cursorAt p).offset := by
      rw [Tree.span_of_token? htoken]
      simp only [Focus.endsBy, Bool.and_eq_true, decide_eq_true_eq] at hends
      exact hends.2
    exact List.any_eq_true.mpr ⟨leaf.tree, mem_children_of_parent? (leaf_under hleaf) hparent,
      by simp [h, hstop]⟩
  · exact hlist

end Leaf

-- Where the last leaf before a cursor stands in the arguments of a call made on
-- a command, and these are open there, the word for the database is offered
-- only behind the parenthesis that closes a call inside the arguments.
theorem contextAt_openList (text : String) (p : Position) (leaf list : Focus)
    (hleaf : (Focus.root (ofText text).tree).lastLeafBefore?
      ((ofText text).cursorAt p).offset = some leaf)
    (hlist : list ∈ leaf.ancestors) (hdirect : list.isDirectList)
    (hopen : ¬ list.isClosedBy ((ofText text).cursorAt p).offset) :
    (∃ range, (ofText text).contextAt p = .keyword range) ↔
      leaf.tree.isTerminal .closeParen ∧ ∃ inner, leaf.parent? = some inner ∧
        inner.tree.is .arguments ∧ list ∈ inner.ancestors := by
  have hrule : list.tree.is .arguments := by
    simp only [Focus.isDirectList, Bool.and_eq_true] at hdirect
    exact hdirect.1
  constructor
  · rintro ⟨range, hcontext⟩
    have hclosing := closeParen_of_keyword hleaf hlist hrule hcontext
    exact ⟨hclosing, inside_of_closeParen hleaf hclosing hlist hopen⟩
  · rintro ⟨hclosing, inner, hparent, _, _⟩
    exact ⟨_, contextAt_of_closeParen hleaf hclosing hparent⟩

-- Behind a call that is closed, in arguments that are not.
theorem contextAt_closedInside :
    ∃ leaf ∈ (Focus.root (ofText "db.c.f(g()").tree).lastLeafBefore?
        ((ofText "db.c.f(g()").cursorAt ⟨0, 10⟩).offset,
      ∃ list ∈ leaf.ancestors, list.isDirectList ∧
        ¬ list.isClosedBy ((ofText "db.c.f(g()").cursorAt ⟨0, 10⟩).offset ∧
        (ofText "db.c.f(g()").contextAt ⟨0, 10⟩ = .keyword ⟨⟨0, 10⟩, ⟨0, 10⟩⟩ := by
  decide +kernel

-- Behind the comma after it nothing is offered.
theorem contextAt_openList_comma :
    ∃ leaf list, (Focus.root (ofText "db.c.f(g(),").tree).lastLeafBefore?
        ((ofText "db.c.f(g(),").cursorAt ⟨0, 11⟩).offset = some leaf ∧
      list ∈ leaf.ancestors ∧ list.isDirectList ∧
      ¬ list.isClosedBy ((ofText "db.c.f(g(),").cursorAt ⟨0, 11⟩).offset ∧
      ∀ range, (ofText "db.c.f(g(),").contextAt ⟨0, 11⟩ ≠ .keyword range := by
  have hscene : ∃ leaf ∈ (Focus.root (ofText "db.c.f(g(),").tree).lastLeafBefore?
        ((ofText "db.c.f(g(),").cursorAt ⟨0, 11⟩).offset,
      ∃ list ∈ leaf.ancestors, list.isDirectList ∧
        ¬ list.isClosedBy ((ofText "db.c.f(g(),").cursorAt ⟨0, 11⟩).offset ∧
        ¬ leaf.tree.isTerminal .closeParen := by
    decide +kernel
  obtain ⟨leaf, hleaf, list, hlist, hdirect, hopen, hcomma⟩ := hscene
  refine ⟨leaf, list, hleaf, hlist, hdirect, hopen, fun range hrange => hcomma ?_⟩
  exact ((contextAt_openList _ _ leaf list hleaf hlist hdirect hopen).mp ⟨range, hrange⟩).1

end Pad

end QueryPad
