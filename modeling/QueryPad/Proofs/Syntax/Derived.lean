import QueryPad.Proofs.Syntax.Completeness
import QueryPad.Proofs.Syntax.Numbers

-- The nodes of a tree that the grammar derives are derived themselves, and have
-- the children that the production of their rule gives them.
namespace QueryPad.Syntax

open Syntax.Symbol

section Parts

variable {symbols a b : List Symbol} {symbol : Symbol} {part : Part}

theorem mem_partsOf_append : part ∈ partsOf (a ++ b) ↔ part ∈ partsOf a ∨ part ∈ partsOf b := by
  induction a with
  | nil => simp [partsOf]
  | cons symbol a ih => simp [partsOf, ih, or_assoc]

theorem mem_partsOf_cons :
    part ∈ partsOf (symbol :: symbols) ↔ part ∈ symbol.parts ∨ part ∈ partsOf symbols := by
  rw [partsOf, List.mem_append]

theorem mem_partsOf_of_mem (hsymbol : symbol ∈ symbols) (h : part ∈ symbol.parts) :
    part ∈ partsOf symbols := by
  obtain ⟨a, b, rfl⟩ := List.append_of_mem hsymbol
  exact mem_partsOf_append.mpr (.inr (mem_partsOf_cons.mpr (.inl h)))

end Parts

-- What stands for a part of a production: a token of its kind, or a node of its
-- rule with children that the rule derives.
inductive IsPart : Part → Tree → Prop where
  | token (token : Token) : IsPart (.token token.kind) (.terminal token)
  | rule {rule : Rule} {start : Nat} {children : List Tree} {ahead rest : List Token}
      (body : Derives (production rule) ahead children rest) :
      IsPart (.rule rule) (.node rule start children)

variable {form : List Symbol} {ahead rest : List Token} {trees : List Tree} {tree : Tree}

theorem Derives.part_of_mem (h : Derives form ahead trees rest) (htree : tree ∈ trees) :
    ∃ part ∈ partsOf form, IsPart part tree := by
  induction h with
  | done => contradiction
  | @token kind token more _ _ _ found tail ih =>
    rcases List.mem_cons.mp htree with rfl | hmore
    · exact ⟨.token token.kind, by simp [partsOf, parts, found], .token token⟩
    · obtain ⟨part, hpart, hself⟩ := ih hmore
      exact ⟨part, mem_partsOf_cons.mpr (.inr hpart), hself⟩
  | @rule rule _ _ _ _ _ _ body tail _ ih =>
    rcases List.mem_cons.mp htree with rfl | hmore
    · exact ⟨.rule rule, by simp [partsOf, parts], .rule body⟩
    · obtain ⟨part, hpart, hself⟩ := ih hmore
      exact ⟨part, mem_partsOf_cons.mpr (.inr hpart), hself⟩
  | anyOf choice _ ih =>
    obtain ⟨part, hpart, hself⟩ := ih htree
    refine ⟨part, mem_partsOf_cons.mpr ?_, hself⟩
    exact (mem_partsOf_cons.mp hpart).imp_left (mem_partsOf_of_mem choice)
  | absent _ ih | stop _ ih =>
    obtain ⟨part, hpart, hself⟩ := ih htree
    exact ⟨part, mem_partsOf_cons.mpr (.inr hpart), hself⟩
  | present _ ih =>
    obtain ⟨part, hpart, hself⟩ := ih htree
    exact ⟨part, mem_partsOf_cons.mpr (mem_partsOf_append.mp hpart), hself⟩
  | again _ ih =>
    obtain ⟨part, hpart, hself⟩ := ih htree
    refine ⟨part, mem_partsOf_cons.mpr ?_, hself⟩
    exact (mem_partsOf_append.mp hpart).elim .inl mem_partsOf_cons.mp

-- A form that names no rules has leaves only.
theorem Derives.leaves_of_tokens (h : Derives form ahead trees rest)
    (hform : ∀ rule, .rule rule ∉ partsOf form) : ∀ tree ∈ trees, tree.isLeaf := by
  intro tree htree
  obtain ⟨part, hpart, hself⟩ := h.part_of_mem htree
  cases hself with
  | token => rfl
  | rule => exact absurd hpart (hform _)

theorem IsPart.child {part : Part} {child : Tree} (h : IsPart part tree)
    (hchild : child ∈ tree.children) : ∃ inner, IsPart inner child := by
  cases h with
  | token => contradiction
  | rule body =>
    obtain ⟨inner, -, hself⟩ := body.part_of_mem hchild
    exact ⟨inner, hself⟩

theorem IsPart.under {outer focus : Focus} {part : Part} (houter : IsPart part outer.tree)
    (h : Focus.Under outer focus) : ∃ inner, IsPart inner focus.tree := by
  induction h with
  | refl => exact ⟨part, houter⟩
  | child _ hchild ih =>
    obtain ⟨inner, hinner⟩ := ih
    exact hinner.child (List.mem_of_getElem? hchild)

theorem IsPart.derives {part : Part} {rule : Rule} {start : Nat} {children : List Tree}
    (h : IsPart part (.node rule start children)) :
    ∃ ahead rest, Derives (production rule) ahead children rest := by
  cases h with
  | rule body => exact ⟨_, _, body⟩

end QueryPad.Syntax
