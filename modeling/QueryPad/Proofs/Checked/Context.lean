import QueryPad.Checked.Completion
import QueryPad.Proofs.Checked.Places
import QueryPad.Proofs.Syntax.Nesting

-- What can be completed at a place is found by the numbers of the nodes alone:
-- no node is missing, and no cut behind one is turned round.
namespace QueryPad

open Text

section Folds

-- A walk that always goes on joins the answers of the children from left to right.
theorem Walk.visitAll_eq_foldl {α : Type} {walk : Walk α}
    (hgoes : ∀ focus soFar, walk.goesOn focus soFar = true) (parent : Focus) (first : Nat)
    (soFar : α) (trees : List Tree) :
    (walk.visitAll parent first soFar trees).1 =
      (trees.mapIdx fun index tree =>
        (⟨tree, (parent.tree, first + index) :: parent.above⟩ : Focus)).foldl
        (fun soFar child => walk.join soFar (walk.run child)) soFar := by
  induction trees generalizing first soFar with
  | nil => rfl
  | cons tree trees ih =>
    rw [visitAll, if_pos (hgoes _ _), List.mapIdx_cons, List.foldl_cons]
    dsimp only
    rw [ih]
    simp only [Nat.add_assoc, Nat.add_comm 1]
    rfl

theorem Walk.run_eq_foldl {α : Type} {walk : Walk α}
    (hgoes : ∀ focus soFar, walk.goesOn focus soFar = true) {focus : Focus}
    (hanswer : walk.answer focus = none) :
    walk.run focus = focus.children.foldl
      (fun soFar child => walk.join soFar (walk.run child)) (walk.seed focus) := by
  obtain ⟨tree, above⟩ := focus
  rw [run, visit.eq_def, hanswer]
  cases tree with
  | terminal | error => rfl
  | node rule start children =>
    have hfold := visitAll_eq_foldl hgoes ⟨.node rule start children, above⟩ 0
      (walk.seed ⟨.node rule start children, above⟩) children
    simp only [Nat.zero_add] at hfold
    exact hfold

-- The last leaf of a node is that of the last child that has one.
theorem Focus.lastLeafOf?_eq_findSome? {offset : Nat} (parent : Focus) (first : Nat)
    (trees : List Tree) :
    lastLeafOf? offset parent.tree parent.above first trees =
      (trees.mapIdx fun index tree =>
        (⟨tree, (parent.tree, first + index) :: parent.above⟩ : Focus)).reverse.findSome?
        (lastLeafBefore? · offset) := by
  induction trees generalizing first with
  | nil => rfl
  | cons tree trees ih =>
    rw [lastLeafOf?, ih, List.mapIdx_cons, List.reverse_cons, List.findSome?_append]
    simp only [Nat.add_assoc, Nat.add_comm 1, List.findSome?_cons, List.findSome?_nil]
    congr 1
    rw [lastLeafBefore?, Nat.add_zero]
    cases lastLeafIn? offset ((parent.tree, first) :: parent.above) tree <;> rfl

theorem Focus.lastLeafBefore?_eq (focus : Focus) (offset : Nat) :
    focus.lastLeafBefore? offset =
      match focus.tree.token? with
      | some token => if endsBy token offset then some focus else none
      | none => focus.children.reverse.findSome? (lastLeafBefore? · offset) := by
  obtain ⟨tree, above⟩ := focus
  cases tree with
  | terminal | error => rfl
  | node rule start children =>
    have hfound := @lastLeafOf?_eq_findSome? offset ⟨.node rule start children, above⟩ 0 children
    simp only [Nat.zero_add] at hfound
    exact hfound

end Folds

namespace Focus

variable {tree : Tree} {focus other : Focus}

-- The call that a literal is an argument of.
def callAround? (literal : Focus) : Option Focus :=
  (literal.parent?.filter (·.tree.is .argument)).bind fun argument =>
    argument.parent?.bind fun list => list.parent?.filter (·.tree.is .functionCall)

-- The collection of the command around a place.
def collectionAround? (focus : Focus) : Option Tree :=
  (focus.ancestors.find? (·.tree.is .command)).bind fun command =>
    command.tree.childOf? .collection

theorem Under.callAround? (h : Under (root tree) focus) (hcall : focus.callAround? = some other) :
    Under (root tree) other := by
  obtain ⟨argument, hargument, hlist⟩ := Option.bind_eq_some_iff.mp hcall
  obtain ⟨list, hlist, hcall⟩ := Option.bind_eq_some_iff.mp hlist
  have habove := (h.parent? (Option.filter_eq_some_iff.mp hargument).1).1
  exact ((habove.parent? hlist).1.parent? (Option.filter_eq_some_iff.mp hcall).1).1

theorem argumentOf?_eq (functions : List String) (focus : Focus) :
    CompletionContext.argumentOf? functions focus = focus.callAround?.bind fun call =>
      call.tree.children.head?.bind fun name =>
        if functions.contains name.text then focus.collectionAround?.map Tree.text else none := by
  have hfilter {α β : Type} (p : α → Bool) (o : Option α) (f : α → Option β) :
      (o.filter p).bind f = o.bind fun a => if p a then f a else none := by
    cases o with
    | none => rfl
    | some a =>
      rw [Option.filter_some, Option.bind_some]
      cases p a <;> rfl
  have hguard {α : Type} (c : Bool) (o : Option α) :
      ((guard c : Option Unit).bind fun _ => o) = if c then o else none := by
    cases c <;> rfl
  have hmap (o : Option Tree) : (o.bind fun tree => some tree.text) = o.map Tree.text := by
    cases o <;> rfl
  simp only [CompletionContext.argumentOf?, Option.bind_eq_bind, Option.pure_def, hguard,
    callAround?, collectionAround?, Option.map_bind, Option.bind_assoc, hmap]
  simp only [hfilter]
  rfl

end Focus

-- A cursor between two characters of a text.
structure Cursor.IsIn (cursor : Cursor) (text : String) : Prop where
  index : cursor.index = (Pad.ofText text).index
  cut : IsCut text.toList cursor.offset

namespace Pad

variable {text : String} {focus : Focus} {p : Position} {offset : Nat}

variable (h : Focus.Under (.root (ofText text).tree) focus)

include h

section Search

omit h in
theorem nodes_laterOf {soFar next : Option Focus}
    (hsoFar : ∀ found ∈ soFar, Focus.Under (.root (ofText text).tree) found)
    (hnext : ∀ found ∈ next, Focus.Under (.root (ofText text).tree) found) :
    (ofText text).nodes.laterOf (soFar.map Focus.number) (next.map Focus.number) =
      .ok (((Walk.nodeBefore offset).join soFar next).map Focus.number) ∧
    ∀ found ∈ (Walk.nodeBefore offset).join soFar next,
      Focus.Under (.root (ofText text).tree) found := by
  cases soFar with
  | none => cases next <;> exact ⟨rfl, hnext⟩
  | some inner =>
    cases next with
    | none => exact ⟨rfl, hsoFar⟩
    | some outer =>
      rw [Option.map_some, Option.map_some, NodeTable.laterOf, nodes_span (hnext outer rfl),
        Checked.ok_bind, nodes_span (hsoFar inner rfl), Checked.ok_bind]
      dsimp only [Walk.nodeBefore]
      split
      · exact ⟨rfl, hsoFar⟩
      · exact ⟨rfl, hnext⟩

theorem nodes_ended? : (ofText text).nodes.ended? offset focus.number =
    .ok (((Walk.nodeBefore offset).seed focus).map Focus.number) := by
  rw [NodeTable.ended?, nodes_isConsumed h, Checked.ok_bind]
  dsimp only [Walk.nodeBefore]
  cases focus.tree.isConsumed with
  | false => rfl
  | true =>
    rw [if_pos rfl, nodes_span h, Checked.ok_bind, Bool.true_and]
    by_cases hle : focus.tree.span.stop ≤ offset
    · simp [hle]
    · simp [hle]

theorem nodes_nodeBefore (depth : Nat) (hdepth : focus.tree.count ≤ depth) :
    (ofText text).nodes.nodeBefore offset depth focus.number =
      .ok (((Walk.nodeBefore offset).run focus).map Focus.number) ∧
    ∀ found ∈ (Walk.nodeBefore offset).run focus,
      Focus.Under (.root (ofText text).tree) found := by
  induction depth generalizing focus with
  | zero =>
    have := focus.tree.count_pos
    omega
  | succ depth ih =>
    rw [NodeTable.nodeBefore, nodes_children h, Checked.ok_bind, nodes_ended? h, Checked.ok_bind,
      Walk.run_eq_foldl (fun _ _ => rfl) rfl]
    apply @Checked.foldlM_hom _ _ _ _ focus.children Focus.number (Option.map Focus.number) _ _
      fun soFar => ∀ found ∈ soFar, Focus.Under (.root (ofText text).tree) found
    · intro child hchild soFar hsoFar
      have hlt := Focus.count_lt_of_mem_children hchild
      obtain ⟨hfound, hunder⟩ := ih (h.mem_children hchild) (by omega)
      rw [hfound, Checked.ok_bind]
      exact nodes_laterOf hsoFar hunder
    · intro found hfound
      obtain rfl : found = focus := by
        exact Option.some.inj (Option.ite_none_right_eq_some.mp hfound).2.symm
      exact h

theorem nodes_lastLeafBefore? (depth : Nat) (hdepth : focus.tree.count ≤ depth) :
    (ofText text).nodes.lastLeafBefore? offset depth focus.number =
      .ok ((focus.lastLeafBefore? offset).map Focus.number) := by
  induction depth generalizing focus with
  | zero =>
    have := focus.tree.count_pos
    omega
  | succ depth ih =>
    rw [NodeTable.lastLeafBefore?, nodes_kind h, Checked.ok_bind, Focus.lastLeafBefore?_eq,
      Tree.isLeaf_nodeKind]
    cases htoken : focus.tree.token? with
    | some token =>
      rw [Option.isSome_some, if_pos rfl, nodes_token? h, Checked.ok_bind, htoken, Option.any_some]
      dsimp only
      cases Focus.endsBy token offset <;> rfl
    | none =>
      rw [Option.isSome_none, if_neg Bool.false_ne_true, nodes_children h, Checked.ok_bind,
        ← List.map_reverse]
      dsimp only
      rw [List.map_findSome?]
      refine Checked.findSomeM?_map fun child hchild => ?_
      have hmem := List.mem_reverse.mp hchild
      have hlt := Focus.count_lt_of_mem_children hmem
      exact ih (h.mem_children hmem) (by omega)

end Search

section Ranges

variable {cursor : Cursor} (hcursor : cursor.IsIn text)

include hcursor

omit h in
theorem nodes_rangeFrom (start : Nat) :
    (ofText text).nodes.rangeFrom cursor.position start = .ok (cursor.rangeFrom start) := by
  have hposition : (ofText text).nodes.lines.positionAt start =
      .ok (cursor.index.positionAt start) := by
    rw [hcursor.index]
    exact LineIndex.table_positionAt _ _
  rw [NodeTable.rangeFrom, hposition, Checked.ok_bind]
  rfl

theorem nodes_rangeOf :
    (ofText text).nodes.rangeOf cursor.position focus.number = .ok (cursor.rangeOf focus) := by
  rw [NodeTable.rangeOf, nodes_span h, Checked.ok_bind]
  exact nodes_rangeFrom hcursor _

-- Nothing is turned round: a node that ends behind the cursor is cut there.
theorem nodes_rangeAfter :
    (ofText text).nodes.rangeAfter cursor.offset cursor.position focus.number =
      .ok (cursor.rangeAfter focus) := by
  have hstop := (span_isCut h).2.1.min hcursor.cut
  obtain ⟨between, hbetween⟩ := hstop.exists_slice? hcursor.cut (Nat.min_le_right _ _)
  rw [NodeTable.rangeAfter, nodes_span h, Checked.ok_bind,
    show (ofText text).nodes.lines.text = text.toList from rfl]
  dsimp only
  rw [Checked.cut_eq hbetween, Checked.ok_bind, nodes_rangeFrom hcursor, Cursor.rangeAfter,
    hcursor.index, show (ofText text).index.text = text.toList from rfl, hbetween]
  rfl

omit hcursor in
theorem nodes_openSpan (cursor : Cursor) :
    (ofText text).nodes.openSpan cursor.offset focus.number =
      .ok (CompletionContext.openSpan cursor focus) := by
  rw [NodeTable.openSpan, nodes_span h]
  rfl

omit hcursor in
theorem nodes_afterDot {checked : Checked Range} {range : Range} (hrange : checked = .ok range) :
    (ofText text).nodes.afterDot focus.number checked = .ok (.afterDot focus range) := by
  rw [NodeTable.afterDot, nodes_isTerminal h, Checked.ok_bind, nodes_isRule h, Checked.ok_bind,
    hrange, CompletionContext.afterDot]
  split
  · rfl
  · split <;> rfl

theorem nodes_ofLeaf : (ofText text).nodes.ofLeaf cursor.offset cursor.position focus.number =
    .ok (.ofLeaf cursor focus) := by
  rw [NodeTable.ofLeaf, nodes_token? h, Checked.ok_bind, CompletionContext.ofLeaf]
  cases focus.tree.token? with
  | none => rfl
  | some token =>
    dsimp only
    cases token.kind with
    | db => rw [nodes_rangeOf h hcursor]; rfl
    | semicolon => rw [nodes_rangeAfter h hcursor]; rfl
    | dot =>
      dsimp only
      rw [nodes_previousSibling? h, Checked.ok_bind]
      cases hbefore : focus.previousSibling? with
      | none => rfl
      | some before =>
        exact nodes_afterDot (h.previousSibling? hbefore) (nodes_rangeAfter h hcursor)
    | _ => rfl

theorem nodes_ofCall : (ofText text).nodes.ofCall cursor.offset cursor.position focus.number =
    .ok (.ofCall cursor focus) := by
  rw [NodeTable.ofCall, nodes_previousSibling? h, Checked.ok_bind, CompletionContext.ofCall]
  cases hdot : focus.previousSibling? with
  | none => rfl
  | some dot =>
    have hunder := h.previousSibling? hdot
    dsimp only [Option.map_some]
    rw [nodes_isTerminal hunder, Checked.ok_bind]
    cases dot.tree.isTerminal .dot with
    | false => rfl
    | true =>
      rw [if_pos rfl, Bool.not_true, if_neg Bool.false_ne_true, nodes_child? h, Checked.ok_bind,
        Focus.children_getElem?]
      cases hname : focus.child? 0 with
      | none => rfl
      | some name =>
        have hbelow := h.child? hname
        dsimp only [Option.map_some]
        rw [nodes_span hbelow, Checked.ok_bind]
        split
        · exact nodes_ofLeaf hunder hcursor
        · rw [nodes_previousSibling? hunder, Checked.ok_bind]
          cases hbefore : dot.previousSibling? with
          | none => rfl
          | some before =>
            exact nodes_afterDot (hunder.previousSibling? hbefore) (nodes_rangeOf hbelow hcursor)

end Ranges

section Decision

theorem nodes_callOf? : (ofText text).nodes.callOf? focus.number =
    .ok (focus.callAround?.map Focus.number) := by
  rw [NodeTable.callOf?, nodes_parentOf? h, Checked.ok_bind, Focus.callAround?]
  cases hargument : focus.parent?.filter (·.tree.is .argument) with
  | none => rfl
  | some argument =>
    have hunder := (h.parent? (Option.filter_eq_some_iff.mp hargument).1).1
    dsimp only [Option.map_some, Option.bind_some]
    rw [nodes_parent? hunder, Checked.ok_bind]
    cases hlist : argument.parent? with
    | none => rfl
    | some list => exact nodes_parentOf? (hunder.parent? hlist).1 _

theorem nodes_collectionOf? : (ofText text).nodes.collectionOf? focus.number =
    .ok (focus.collectionAround?.map Tree.text) := by
  rw [NodeTable.collectionOf?, nodes_ancestors h _ (fits_rows h).2, Checked.ok_bind,
    Checked.findM?_map fun node hnode => nodes_isRule (h.of_mem_ancestors hnode).1 .command,
    Checked.ok_bind, Focus.collectionAround?]
  cases hcommand : focus.ancestors.find? (·.tree.is .command) with
  | none => rfl
  | some command =>
    have hunder := (h.of_mem_ancestors (List.mem_of_find?_eq_some hcommand)).1
    dsimp only [Option.map_some, Option.bind_some]
    rw [nodes_childOf? hunder, Checked.ok_bind, ← Focus.map_tree_childOf?]
    cases hcollection : command.childOf? .collection with
    | none => rfl
    | some collection =>
      have hbelow := hunder.mem_children (List.mem_of_find?_eq_some hcollection)
      dsimp only [Option.map_some]
      rw [nodes_text hbelow]
      rfl

theorem nodes_argumentOf? (functions : List String) :
    (ofText text).nodes.argumentOf? functions focus.number =
      .ok (CompletionContext.argumentOf? functions focus) := by
  rw [NodeTable.argumentOf?, nodes_callOf? h, Checked.ok_bind, Focus.argumentOf?_eq]
  cases hcall : focus.callAround? with
  | none => rfl
  | some call =>
    have hunder := h.callAround? hcall
    dsimp only [Option.map_some, Option.bind_some]
    rw [nodes_child? hunder, Checked.ok_bind, Focus.children_getElem?, List.head?_eq_getElem?,
      Focus.child?]
    cases hname : call.tree.children[0]? with
    | none => rfl
    | some name =>
      have hbelow := hunder.child hname
      dsimp only [Option.map_some, Option.bind_some]
      rw [nodes_text hbelow, Checked.ok_bind, nodes_collectionOf? h]
      split <;> rfl

variable {cursor : Cursor} (hcursor : cursor.IsIn text)

include hcursor

theorem nodes_decidedAt? :
    (ofText text).nodes.decidedAt? cursor.offset cursor.position focus.number =
      .ok (CompletionContext.decidedAt? cursor focus) := by
  rw [NodeTable.decidedAt?, nodes_kind h, Checked.ok_bind, CompletionContext.decidedAt?]
  cases htree : focus.tree with
  | terminal token => rfl
  | error token =>
    dsimp only [Tree.nodeKind]
    rw [nodes_parentOf? h, Checked.ok_bind]
    cases focus.parent? with
    | none => rfl
    | some parent =>
      rw [Option.filter_some, Option.any_some]
      cases parent.tree.is .commands with
      | false => rfl
      | true =>
        rw [if_pos rfl, if_pos rfl, Option.map_some, nodes_rangeOf h hcursor]
        rfl
  | node rule start children =>
    dsimp only [Tree.nodeKind]
    cases rule with
    | command =>
      dsimp only
      rw [nodes_lastLeafBefore? h _ (fits_rows h).1, Checked.ok_bind]
      cases hleaf : focus.lastLeafBefore? cursor.offset with
      | none => rw [Option.map_none, nodes_rangeOf h hcursor]; rfl
      | some leaf =>
        dsimp only [Option.map_some]
        rw [nodes_ofLeaf (h.trans (Focus.lastLeafIn?_under hleaf).1) hcursor]
        rfl
    | arguments =>
      dsimp only
      rw [nodes_lastLeafBefore? h _ (fits_rows h).1, Checked.ok_bind]
      cases hleaf : focus.lastLeafBefore? cursor.offset with
      | none => rfl
      | some leaf =>
        have hbelow := h.trans (Focus.lastLeafIn?_under hleaf).1
        rw [Option.map_some]
        dsimp only
        rw [nodes_isTerminal hbelow, Checked.ok_bind, nodes_rangeAfter hbelow hcursor]
        split <;> rfl
    | objectLiteral | arrayLiteral =>
      dsimp only
      rw [nodes_argumentOf? h, Checked.ok_bind, nodes_openSpan h]
      cases CompletionContext.argumentOf? _ focus <;> rfl
    | emptyCommand => rw [nodes_rangeAfter h hcursor]; rfl
    | collection => rw [nodes_rangeOf h hcursor]; rfl
    | functionCall => rw [nodes_ofCall h hcursor]; rfl
    | _ => rfl

theorem nodes_upwards (depth : Nat) (hdepth : focus.above.length < depth) :
    (ofText text).nodes.upwards cursor.offset cursor.position depth focus.number =
      .ok (.upwards cursor focus.tree focus.above) := by
  induction depth generalizing focus with
  | zero => omega
  | succ depth ih =>
    obtain ⟨tree, above⟩ := focus
    rw [NodeTable.upwards, nodes_decidedAt? h hcursor, Checked.ok_bind]
    cases above with
    | nil =>
      rw [CompletionContext.upwards]
      cases CompletionContext.decidedAt? cursor ⟨tree, []⟩ with
      | some context => rfl
      | none =>
        dsimp only
        rw [nodes_parent? h]
        rfl
    | cons head above =>
      obtain ⟨outer, index⟩ := head
      rw [CompletionContext.upwards]
      cases CompletionContext.decidedAt? cursor ⟨tree, (outer, index) :: above⟩ with
      | some context => rfl
      | none =>
        dsimp only
        rw [nodes_parent? h, Checked.ok_bind]
        exact ih (h.parent? rfl).1 (by simpa using hdepth)

end Decision

omit h

theorem offsetAt_isCut (text : List Char) (p : Position) :
    IsCut text ((LineIndex.ofChars text).offsetAt p) := by
  obtain ⟨before, after, htext, hoffset, -⟩ := LineIndex.offsetAt_isBoundary text p
  exact ⟨before, after, htext, hoffset⟩

theorem cursorAt_isIn (text : String) (p : Position) : ((ofText text).cursorAt p).IsIn text where
  index := rfl
  cut := offsetAt_isCut text.toList p

theorem nodes_contextAt (text : String) (p : Position) :
    (ofText text).nodes.contextAt p = .ok ((ofText text).contextAt p) := by
  have hoffset : (ofText text).nodes.lines.offsetAt p = .ok ((ofText text).cursorAt p).offset :=
    LineIndex.table_offsetAt _ _
  have hroot : Focus.Under (.root (ofText text).tree) (.root (ofText text).tree) := .refl
  have hcommands := nodes_childOf? hroot .commands
  rw [childOf?_commands] at hcommands
  have hunder := hroot.mem_children (List.mem_of_find?_eq_some (childOf?_commands text))
  obtain ⟨hfound, hbelow⟩ :=
    @nodes_nodeBefore _ _ ((ofText text).cursorAt p).offset hunder _ (fits_rows hunder).1
  rw [NodeTable.contextAt, hoffset, Checked.ok_bind,
    show 0 = (Focus.root (ofText text).tree).number from rfl, hcommands, Checked.ok_bind,
    contextAt, childOf?_commands]
  dsimp only [Option.map_some, Option.bind_some]
  rw [hfound, Checked.ok_bind]
  cases hrun : (Walk.nodeBefore ((ofText text).cursorAt p).offset).run (commandsFocus text) with
  | none => rfl
  | some found =>
    have habove := hbelow found hrun
    exact nodes_upwards habove (cursorAt_isIn text p) _ (fits_rows habove).2

end Pad

end QueryPad
