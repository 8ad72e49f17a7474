import QueryPad.Proofs.Completion.Context
import QueryPad.Proofs.Syntax.Nesting

-- What can be completed is what the first node decides, from the last leaf
-- before the cursor upwards.
namespace QueryPad

open Text

namespace CompletionContext

variable {cursor : Cursor} {focus : Focus}

theorem upwards_eq (tree : Tree) (above : List (Tree × Nat)) :
    upwards cursor tree above = ((Focus.mk tree above :: Focus.ancestors ⟨tree, above⟩).findSome?
      (decidedAt? cursor)).getD nothing := by
  induction above generalizing tree with
  | nil =>
    rw [upwards, List.findSome?_cons]
    cases decidedAt? cursor ⟨tree, []⟩ <;> rfl
  | cons parent above ih =>
    rw [upwards, List.findSome?_cons]
    cases decidedAt? cursor ⟨tree, parent :: above⟩ with
    | some context => rfl
    | none => exact ih parent.1

-- What stands in front of a point says which names can follow.
theorem afterDot_cases (before : Focus) (range : Range) :
    afterDot before range = members range ∨ afterDot before range = methods range ∨
      afterDot before range = nothing := by
  rw [afterDot]
  split
  · exact .inl rfl
  · split
    · exact .inr (.inl rfl)
    · exact .inr (.inr rfl)

-- What is said of names, or nothing.
def IsOfNames (context : CompletionContext) : Prop :=
  (∃ range, context = members range) ∨ (∃ range, context = methods range) ∨ context = nothing

theorem afterDot_isOfNames (before : Focus) (range : Range) : (afterDot before range).IsOfNames :=
  (afterDot_cases before range).imp (⟨_, ·⟩) (·.imp (⟨_, ·⟩) id)

theorem ofLeaf_isOfNames {leaf : Focus} (h : leaf.tree.isTerminal .dot) :
    (ofLeaf cursor leaf).IsOfNames := by
  obtain ⟨tree, above⟩ := leaf
  cases tree with
  | error | node => simp [Tree.isTerminal] at h
  | terminal token =>
    have hkind : token.kind = .dot := by simpa [Tree.isTerminal] using h
    simp only [ofLeaf, Tree.token?, hkind]
    split
    · exact afterDot_isOfNames _ _
    · exact .inr (.inr rfl)

theorem ofCall_isOfNames (call : Focus) : (ofCall cursor call).IsOfNames := by
  rw [ofCall]
  split
  · exact .inr (.inr rfl)
  · next dot _ =>
    by_cases hdot : dot.tree.isTerminal .dot
    · rw [if_neg (by simp [hdot])]
      split
      · exact .inr (.inr rfl)
      · split
        · exact ofLeaf_isOfNames hdot
        · split
          · exact afterDot_isOfNames _ _
          · exact .inr (.inr rfl)
    · rw [if_pos (by simp [hdot])]
      exact .inr (.inr rfl)

-- What a node can decide, and by what.
inductive Decision (cursor : Cursor) (focus : Focus) : CompletionContext → Prop where
  | skipped {range : Range} (hleaf : focus.tree.isLeaf)
      (hparent : ∃ parent, focus.parent? = some parent ∧ parent.tree.is .commands) :
      Decision cursor focus (keyword range)
  | outer {rule : Rule} {context : CompletionContext} (hrule : focus.tree.is rule)
      (houter : rule.isOuter) (hplain : ¬ context.isEmbedded) : Decision cursor focus context
  | collection {range : Range} (hrule : focus.tree.is .collection) :
      Decision cursor focus (members range)
  | call {context : CompletionContext} (hrule : focus.tree.is .functionCall)
      (hnames : context.IsOfNames) : Decision cursor focus context
  | closedList {leaf : Focus} (hrule : focus.tree.is .arguments)
      (hleaf : focus.lastLeafBefore? cursor.offset = some leaf)
      (hclosing : leaf.tree.isTerminal .closeParen) :
      Decision cursor focus (keyword (cursor.rangeAfter leaf))
  | openList (hrule : focus.tree.is .arguments) : Decision cursor focus nothing
  | query {collection : String} (hrule : focus.tree.is .objectLiteral)
      (hargument : argumentOf? queryFunctions focus = some collection) :
      Decision cursor focus (query collection (openSpan cursor focus))
  | pipeline {collection : String} (hrule : focus.tree.is .arrayLiteral)
      (hargument : argumentOf? pipelineFunctions focus = some collection) :
      Decision cursor focus (pipeline collection (openSpan cursor focus))

theorem ofLeaf_not_embedded (leaf : Focus) : ¬ (ofLeaf cursor leaf).isEmbedded := by
  rw [ofLeaf]
  split
  · exact Bool.false_ne_true
  · split
    · exact Bool.false_ne_true
    · exact Bool.false_ne_true
    · split
      · next before _ =>
        rcases afterDot_cases before (cursor.rangeAfter leaf) with h | h | h <;>
          exact h ▸ Bool.false_ne_true
      · exact Bool.false_ne_true
    · exact Bool.false_ne_true

theorem decision_of_decidedAt? {context : CompletionContext}
    (h : decidedAt? cursor focus = some context) : Decision cursor focus context := by
  obtain ⟨tree, above⟩ := focus
  cases tree with
  | terminal token => contradiction
  | error token =>
    obtain ⟨hparent, hcontext⟩ := Option.ite_none_right_eq_some.mp h
    obtain rfl := Option.some.inj hcontext
    exact .skipped rfl ((Option.any_eq_true _ _).mp hparent)
  | node rule start children =>
    have hrule : (Tree.node rule start children).is rule := by simp [Tree.is, Tree.rule?]
    cases rule with
    | mongoCommands | commands | emptyCommand =>
      obtain rfl := Option.some.inj h
      exact .outer hrule rfl Bool.false_ne_true
    | command =>
      dsimp only [decidedAt?] at h
      split at h
      · obtain rfl := Option.some.inj h
        exact .outer hrule rfl (ofLeaf_not_embedded _)
      · obtain rfl := Option.some.inj h
        exact .outer hrule rfl Bool.false_ne_true
    | collection =>
      obtain rfl := Option.some.inj h
      exact .collection hrule
    | functionCall =>
      obtain rfl := Option.some.inj h
      exact .call hrule (ofCall_isOfNames _)
    | arguments =>
      dsimp only [decidedAt?] at h
      split at h
      · next leaf hleaf =>
        by_cases hclosing : leaf.tree.isTerminal .closeParen
        · rw [if_pos hclosing] at h
          obtain rfl := Option.some.inj h
          exact .closedList hrule hleaf hclosing
        · rw [if_neg hclosing] at h
          obtain rfl := Option.some.inj h
          exact .openList hrule
      · obtain rfl := Option.some.inj h
        exact .openList hrule
    | objectLiteral =>
      obtain ⟨collection, hargument, rfl⟩ := Option.map_eq_some_iff.mp h
      exact .query hrule hargument
    | arrayLiteral =>
      obtain ⟨collection, hargument, rfl⟩ := Option.map_eq_some_iff.mp h
      exact .pipeline hrule hargument
    | _ => contradiction

end CompletionContext

namespace Pad

variable {text : String} {p : Position} {leaf : Focus}

-- The end of the text is no leaf that counts.
theorem lastLeafBefore?_root (text : String) (offset : Nat) :
    (Focus.root (ofText text).tree).lastLeafBefore? offset =
      (commandsFocus text).lastLeafBefore? offset := by
  rw [commandsFocus, tree_eq]
  rfl

theorem contextAt_of_leaf (h : (Focus.root (ofText text).tree).lastLeafBefore?
      ((ofText text).cursorAt p).offset = some leaf) :
    (ofText text).contextAt p = ((leaf :: leaf.ancestors).findSome?
      (CompletionContext.decidedAt? ((ofText text).cursorAt p))).getD .nothing := by
  rw [lastLeafBefore?_root] at h
  rw [contextAt_eq, h]
  exact CompletionContext.upwards_eq leaf.tree leaf.above

theorem exists_decided_of_contextAt {context : CompletionContext}
    (hleaf : (Focus.root (ofText text).tree).lastLeafBefore?
      ((ofText text).cursorAt p).offset = some leaf)
    (h : (ofText text).contextAt p = context) (hcontext : context ≠ .nothing) :
    ∃ before node after, leaf :: leaf.ancestors = before ++ node :: after ∧
      CompletionContext.decidedAt? ((ofText text).cursorAt p) node = some context ∧
      ∀ other ∈ before,
        CompletionContext.decidedAt? ((ofText text).cursorAt p) other = none := by
  rw [contextAt_of_leaf hleaf] at h
  apply List.findSome?_eq_some_iff.mp
  exact (Option.getD_eq_iff.mp h).resolve_right fun hnone => hcontext hnone.2.symm

end Pad

end QueryPad
