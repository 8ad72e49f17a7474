import QueryPad.Checked.Command
import QueryPad.Proofs.Checked.Literal
import QueryPad.Proofs.Checked.Places
import QueryPad.Proofs.Command.Members

-- The value that a node means is found by numbers alone: every text that is
-- cut has its quotes or its slashes where the cuts go.
namespace QueryPad

open Text

namespace Tree

theorem text_terminal (token : Token) : (terminal token).text = token.text :=
  congrArg String.ofList (List.append_nil token.chars)

variable (occasion : Occasion)

-- The name and the value of a property that has a name.
def conversionOf? (assignment : Tree) : Option (String × Conversion) :=
  (assignment.childOf? .propertyName).map fun name =>
    (.ofList (Literal.unquote name.chars),
      ((assignment.childOf? .propertyValue).map (convert occasion)).getD .empty)

theorem conversionOf?_eq (start : Nat) (parts : List Tree) :
    (propertyOf? (.node .propertyAssignment start parts)).map
        (fun property => (property.1, conversionOf occasion property.2)) =
      conversionOf? occasion (.node .propertyAssignment start parts) := by
  rw [propertyOf?, conversionOf?, Option.map_map]
  show _ = (parts.find? (·.is .propertyName)).map _
  congr 1
  funext name
  show (_, conversionOf occasion ((parts.find? (·.is .propertyValue)).bind _)) = (_, _)
  rw [show childOf? (.node .propertyAssignment start parts) .propertyValue =
    parts.find? (·.is .propertyValue) from rfl]
  cases hvalue : parts.find? (·.is .propertyValue) with
  | none => rfl
  | some value =>
    have hrule := List.find?_some hvalue
    obtain ⟨start, held, rfl⟩ := is_iff.mp hrule
    exact congrArg (Prod.mk _) (convert_carrier occasion start held (.inr rfl)).symm

theorem convert_object (start : Nat) (children : List Tree) :
    (node .objectLiteral start children).convert occasion =
      .ofProperties (((node .objectLiteral start children).childrenIn .propertyNameAndValueList
        .propertyAssignment).filterMap (conversionOf? occasion)) := by
  have hlist (trees : List Tree) : (trees.filterMap propertyOf?).map
      (fun property => (property.1, conversionOf occasion property.2)) =
        (trees.filter (·.is .propertyAssignment)).filterMap (conversionOf? occasion) := by
    rw [List.map_filterMap, List.filterMap_filter]
    congr 1
    funext tree
    cases hrule : tree.is .propertyAssignment with
    | true =>
      obtain ⟨start, parts, rfl⟩ := is_iff.mp hrule
      exact conversionOf?_eq occasion start parts
    | false =>
      rw [if_neg Bool.false_ne_true, propertyOf?]
      · rfl
      · rintro start parts rfl
        contradiction
  have hall : propertyConversions occasion children =
      ((node .objectLiteral start children).childrenIn .propertyNameAndValueList
        .propertyAssignment).filterMap (conversionOf? occasion) := by
    rw [propertyConversions, properties, childrenIn, List.map_flatMap, List.filterMap_flatMap]
    simp only [hlist]
    rfl
  rw [convert_objectLiteral, hall]
  rfl

theorem convert_array (start : Nat) (children : List Tree) :
    (node .arrayLiteral start children).convert occasion =
      .ofElements (((node .arrayLiteral start children).childrenIn .elementList
        .propertyValue).map (convert occasion)) := by
  have hlist (trees : List Tree) : (trees.filter (·.is .propertyValue)).map
      (fun value => conversionOf occasion (held? value.children)) =
        (trees.filter (·.is .propertyValue)).map (convert occasion) := by
    refine List.map_congr_left fun value hvalue => ?_
    obtain ⟨start, held, rfl⟩ := is_iff.mp (List.mem_filter.mp hvalue).2
    exact (convert_carrier occasion start held (.inr rfl)).symm
  have hall : elementConversions occasion children =
      ((node .arrayLiteral start children).childrenIn .elementList .propertyValue).map
        (convert occasion) := by
    rw [elementConversions, elements, childrenIn, List.map_flatMap, List.map_flatMap]
    simp only [List.map_map]
    exact List.flatMap_congr fun list _ => hlist list.children
  rw [convert_arrayLiteral, hall]
  rfl

end Tree

namespace Pad

variable {text : String} {focus : Focus} (h : Focus.Under (.root (ofText text).tree) focus)
  (occasion : Occasion)

include h

theorem nodes_failed (error : ValueError) :
    (ofText text).nodes.failed focus.number error = .ok (.failed focus.tree error) := by
  rw [NodeTable.failed, nodes_span h]
  rfl

theorem nodes_ofExcept (result : Except ValueError Json) :
    (ofText text).nodes.ofExcept focus.number result = .ok (.ofExcept focus.tree result) := by
  cases result with
  | ok value => rfl
  | error error => exact nodes_failed h error

theorem nodes_notUnderstood (name : String) :
    (ofText text).nodes.notUnderstood focus.number name =
      .ok (.error (.notUnderstood name focus.tree.text)) := by
  rw [NodeTable.notUnderstood, nodes_text h]
  rfl

section Literals

theorem nodes_ofToken {token : Token}
    (hregex : token.kind = .regex → IsSlashed token.chars) :
    (ofText text).nodes.ofToken focus.number token =
      .ok (Literal.ofToken focus.tree token) := by
  rw [NodeTable.ofToken, Literal.ofToken]
  cases hkind : token.kind with
  | string =>
    dsimp only
    rw [Checked.unquote_eq]
    rfl
  | regex => exact Checked.regex_eq (hregex hkind)
  | number =>
    dsimp only
    cases JsonNumber.ofChars? token.chars <;> rfl
  | null | boolean => rfl
  | _ => exact nodes_notUnderstood h token.text

-- What the tree calls an expression was read as one.
theorem isSlashed_of_token? {token : Token} (htoken : focus.tree.token? = some token)
    (hkind : token.kind = .regex) : IsSlashed token.chars := by
  have hmem : token ∈ (lex text.toList).all := by
    apply ((tokens_leading h).sublist.trans (List.drop_sublist _ _)).subset
    exact Tree.mem_tokens_of_token? htoken
  rcases List.mem_append.mp hmem with hinside | hend
  · exact isSlashed_of_mem_lex hinside hkind
  · obtain rfl := List.mem_singleton.mp hend
    contradiction

omit h in
theorem nodes_convertLiteral {above : List (Tree × Nat)} {start : Nat} {children : List Tree}
    (h : Focus.Under (.root (ofText text).tree) ⟨.node .literal start children, above⟩) :
    (ofText text).nodes.convertLiteral (Focus.number ⟨.node .literal start children, above⟩) =
      .ok ((Tree.node .literal start children).convert occasion) := by
  rw [NodeTable.convertLiteral, nodes_child? h, Checked.ok_bind, Focus.children_getElem?,
    Focus.child?, Tree.convert]
  cases children with
  | nil => rfl
  | cons leaf others =>
    have hleaf : Focus.Under (.root (ofText text).tree)
        ⟨leaf, (.node .literal start (leaf :: others), 0) :: above⟩ := h.child rfl
    dsimp only [Tree.children, List.getElem?_cons_zero, Option.map_some]
    rw [nodes_token? hleaf, Checked.ok_bind]
    cases leaf with
    | node => rfl
    | terminal token | error token =>
      dsimp only [Tree.token?]
      rw [nodes_ofToken h (isSlashed_of_token? hleaf rfl), Checked.ok_bind, nodes_ofExcept h]
      rfl

end Literals

section Calls

theorem nodes_make (name : String) (argument : Option (List Char)) :
    (ofText text).nodes.make occasion focus.number name argument =
      .ok (Literal.make occasion focus.tree name argument) := by
  rw [NodeTable.make.eq_def]
  split
  · rw [nodes_span h]
    rfl
  · rfl
  · rfl
  · rw [nodes_notUnderstood h, Literal.make]
    all_goals assumption

theorem nodes_terminal? (kind : TokenKind) :
    (ofText text).nodes.terminal? kind focus.number =
      .ok ((focus.children.find? (·.tree.isTerminal kind)).map Focus.number) := by
  rw [NodeTable.terminal?, nodes_children h, Checked.ok_bind]
  exact Checked.findM?_map fun _ hchild => nodes_isTerminal (h.mem_children hchild) kind

theorem nodes_callName :
    (ofText text).nodes.callName focus.number = .ok (Literal.callName focus.tree) := by
  rw [NodeTable.callName, nodes_terminal? h, Checked.ok_bind, Literal.callName,
    ← Focus.map_tree_children, List.find?_map]
  show _ = Except.ok (((Option.map Focus.tree (focus.children.find?
    (·.tree.isTerminal .identifier))).map Tree.text).getD "")
  cases hname : focus.children.find? (·.tree.isTerminal .identifier) with
  | none => rfl
  | some name => exact nodes_text (h.mem_children (List.mem_of_find?_eq_some hname))

theorem nodes_argumentChars? : (ofText text).nodes.argumentChars? focus.number =
    .ok (if focus.tree.chars.isEmpty then none else some (Literal.unquote focus.tree.chars)) := by
  rw [NodeTable.argumentChars?, nodes_chars h, Checked.ok_bind, Checked.unquote_eq]
  split <;> rfl

theorem nodes_convertCall :
    (ofText text).nodes.convertCall occasion focus.number =
      .ok (Literal.call occasion focus.tree) := by
  rw [NodeTable.convertCall, nodes_childOf? h, Checked.ok_bind, Literal.call,
    ← Focus.map_tree_childOf?]
  cases hlist : focus.childOf? .arguments with
  | none => rfl
  | some list =>
    have hbelow := h.mem_children (List.mem_of_find?_eq_some hlist)
    have hany : list.tree.children.any (·.isTerminal .openParen) =
        (list.children.find? (·.tree.isTerminal .openParen)).isSome := by
      rw [← Focus.map_tree_children, List.any_map, Bool.eq_iff_iff, List.find?_isSome,
        List.any_eq_true]
      rfl
    dsimp only [Option.map_some]
    rw [nodes_terminal? hbelow, Checked.ok_bind, hany]
    cases hparen : list.children.find? (·.tree.isTerminal .openParen) with
    | none =>
      simp only [Option.map_none]
      rw [nodes_text h, Checked.ok_bind, nodes_failed h]
      rfl
    | some paren =>
      simp only [Option.map_some]
      rw [nodes_callName h, Checked.ok_bind, nodes_childrenOf hbelow, Checked.ok_bind,
        ← Focus.map_tree_childrenOf]
      match hcount : list.childrenOf .argument with
      | [] =>
        simp only [List.map_nil]
        rw [nodes_make h, Checked.ok_bind, nodes_ofExcept h]
        rfl
      | [argument] =>
        have hargument : argument ∈ list.childrenOf .argument := by simp [hcount]
        have hinside := hbelow.mem_children (Focus.mem_children_of_mem_childrenOf hargument)
        simp only [List.map_cons, List.map_nil]
        rw [nodes_argumentChars? hinside, Checked.ok_bind, nodes_make h, Checked.ok_bind,
          nodes_ofExcept h]
        rfl
      | _ :: _ :: _ => exact nodes_failed h _

end Calls

section Members

theorem nodes_held? : ∃ held : Option Focus,
    (ofText text).nodes.held? focus.number = .ok (held.map Focus.number) ∧
      held.map Focus.tree = Tree.held? focus.tree.children ∧
      ∀ value ∈ held, value ∈ focus.children := by
  refine ⟨focus.children.find? (!·.tree.isLeaf), ?_, ?_, fun _ => List.mem_of_find?_eq_some⟩
  · rw [NodeTable.held?, nodes_children h, Checked.ok_bind]
    refine Checked.findM?_map fun child hchild => ?_
    rw [nodes_kind (h.mem_children hchild), Checked.ok_bind]
    cases child.tree <;> rfl
  · rw [Tree.held?, ← Focus.map_tree_children, List.find?_map]
    rfl

theorem nodes_childrenIn (outer inner : Rule) :
    (ofText text).nodes.childrenIn outer inner focus.number =
      .ok ((focus.childrenIn outer inner).map Focus.number) := by
  rw [NodeTable.childrenIn, nodes_childrenOf h, Checked.ok_bind,
    Checked.mapM_map fun list hlist =>
      nodes_childrenOf (h.mem_children (Focus.mem_children_of_mem_childrenOf hlist)) inner]
  show Except.ok _ = _
  rw [Focus.childrenIn, List.map_flatMap, List.flatMap_def]

-- A property by what converts its value.
theorem nodes_property? {value : Nat → Checked Conversion}
    (hvalue : ∀ child ∈ focus.children, value child.number = .ok (child.tree.convert occasion)) :
    (ofText text).nodes.property? value focus.number =
      .ok (focus.tree.conversionOf? occasion) := by
  rw [NodeTable.property?, nodes_childOf? h, Checked.ok_bind, Tree.conversionOf?,
    ← Focus.map_tree_childOf?, ← Focus.map_tree_childOf?]
  cases hname : focus.childOf? .propertyName with
  | none => rfl
  | some name =>
    simp only [Option.map_some]
    rw [nodes_chars (h.mem_children (List.mem_of_find?_eq_some hname)), Checked.ok_bind,
      Checked.unquote_eq, Checked.ok_bind, nodes_childOf? h, Checked.ok_bind]
    cases hheld : focus.childOf? .propertyValue with
    | none => rfl
    | some held =>
      simp only [Option.map_some]
      rw [hvalue held (List.mem_of_find?_eq_some hheld)]
      rfl

end Members

-- A depth of as many nodes as there are below a place is enough for it.
theorem nodes_convert (depth : Nat) (hdepth : focus.tree.count ≤ depth) :
    (ofText text).nodes.convert occasion depth focus.number =
      .ok (focus.tree.convert occasion) := by
  induction depth generalizing focus with
  | zero =>
    have := focus.tree.count_pos
    omega
  | succ depth ih =>
    have hbelow (child : Focus) (hchild : child ∈ focus.children) :
        Focus.Under (.root (ofText text).tree) child ∧ child.tree.count ≤ depth := by
      have hlt := Focus.count_lt_of_mem_children hchild
      exact ⟨h.mem_children hchild, by omega⟩
    have hinside {outer inner : Rule} (child : Focus)
        (hchild : child ∈ focus.childrenIn outer inner) :
        Focus.Under (.root (ofText text).tree) child ∧ child.tree.count ≤ depth := by
      obtain ⟨list, hlist, hmem⟩ := Focus.exists_of_mem_childrenIn hchild
      have hlt := Focus.count_lt_of_mem_children hmem
      have hle := (hbelow list hlist).2
      exact ⟨(hbelow list hlist).1.mem_children hmem, by omega⟩
    have hheld {outer inner : Rule} (child : Focus)
        (hchild : child ∈ focus.childrenIn outer inner) :
        ∀ value ∈ child.children, (ofText text).nodes.convert occasion depth value.number =
          .ok (value.tree.convert occasion) := by
      intro value hvalue
      have hlt := Focus.count_lt_of_mem_children hvalue
      have hle := (hinside child hchild).2
      exact ih ((hinside child hchild).1.mem_children hvalue) (by omega)
    rw [NodeTable.convert, nodes_kind h, Checked.ok_bind]
    obtain ⟨tree, above⟩ := focus
    cases tree with
    | error token => rfl
    | terminal token =>
      dsimp only [Tree.nodeKind]
      rw [nodes_text h, Checked.ok_bind, nodes_failed h, Tree.text_terminal]
      rfl
    | node rule start children =>
      cases rule with
      | argument | propertyValue =>
        obtain ⟨held, hheld, htree, hmem⟩ := nodes_held? h
        dsimp only [Tree.nodeKind]
        rw [hheld, Checked.ok_bind, Tree.convert_carrier occasion start children (by simp),
          show Tree.held? children = held.map Focus.tree from htree.symm]
        cases held with
        | none => rfl
        | some value =>
          obtain ⟨hvalue, hcount⟩ := hbelow value (hmem value rfl)
          exact ih hvalue hcount
      | literal => exact nodes_convertLiteral occasion h
      | objectLiteral =>
        have hmap := Focus.map_tree_childrenIn ⟨.node .objectLiteral start children, above⟩
          .propertyNameAndValueList .propertyAssignment
        dsimp only [Tree.nodeKind] at hmap ⊢
        rw [nodes_childrenIn h, Checked.ok_bind,
          Checked.mapM_map fun assignment hassignment => nodes_property? (hinside _ hassignment).1
            occasion fun value hvalue => hheld _ hassignment value hvalue,
          Checked.ok_bind, Tree.convert_object, ← hmap, List.filterMap_map, List.filterMap_map]
        rfl
      | arrayLiteral =>
        have hmap := Focus.map_tree_childrenIn ⟨.node .arrayLiteral start children, above⟩
          .elementList .propertyValue
        dsimp only [Tree.nodeKind] at hmap ⊢
        rw [nodes_childrenIn h, Checked.ok_bind,
          Checked.mapM_map fun value hvalue => ih (hinside value hvalue).1 (hinside value hvalue).2,
          Checked.ok_bind, Tree.convert_array, ← hmap, List.map_map]
        rfl
      | functionCall => exact nodes_convertCall h occasion
      | _ =>
        dsimp only [Tree.nodeKind]
        rw [nodes_text h, Checked.ok_bind, nodes_failed h]
        rfl

end Pad

end QueryPad
