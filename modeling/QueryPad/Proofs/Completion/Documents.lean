import QueryPad.Proofs.Completion.OpenLists

-- Queries and pipelines are completed in the literals that are arguments of
-- certain calls, whichever argument it is, and wherever the call stands.
namespace QueryPad

open Text

namespace CompletionContext

-- A literal, and what stands above it if it is an argument.
structure Setting where
  literal : Focus
  argument : Focus
  list : Focus
  call : Focus
  outer : List Focus

namespace Setting

def above (setting : Setting) : List Focus :=
  setting.argument :: setting.list :: setting.call :: setting.outer

-- The literal is an argument of a call of one of the functions, and stands in a
-- command on the collection.
structure Asks (setting : Setting) (rule : Rule) (functions : List String) (collection : String) :
    Prop where
  literal : setting.literal.tree.is rule
  argument : setting.argument.tree.is .argument
  list : setting.list.tree.is .arguments
  call : setting.call.tree.is .functionCall
  name : setting.call.tree.calledName ∈ functions
  command : ∃ command, setting.above.find? (·.tree.is .command) = some command ∧
    (command.tree.childOf? .collection).map Tree.text = some collection

-- From a leaf upwards, the literal comes before any call.
def Encloses (setting : Setting) (leaf : Focus) : Prop :=
  ∃ inner, leaf.ancestors = inner ++ setting.literal :: setting.above ∧
    ∀ node ∈ inner, ¬ node.tree.is .functionCall

theorem Encloses.mem_ancestors {setting : Setting} {leaf : Focus} (h : setting.Encloses leaf) :
    setting.literal ∈ leaf.ancestors := by
  obtain ⟨inner, hancestors, _⟩ := h
  simp [hancestors]

theorem Encloses.ancestors_literal {setting : Setting} {leaf : Focus}
    (h : setting.Encloses leaf) : setting.literal.ancestors = setting.above := by
  obtain ⟨inner, hancestors, _⟩ := h
  have hsplit : leaf :: leaf.ancestors =
      (leaf :: inner) ++ setting.literal :: setting.above := by
    rw [hancestors, List.cons_append]
  exact Focus.ancestors_of_split hsplit

-- The literal is in the first argument.
def IsFirst (setting : Setting) : Prop :=
  setting.call.tree.argumentsOf.head? = some setting.argument.tree

-- The call is made on a command.
def IsDirect (setting : Setting) : Prop := setting.outer.head?.any (·.tree.is .command)

end Setting

variable {cursor : Cursor} {functions : List String} {literal : Focus} {collection : String}

theorem exists_name {call : Tree} (h : call.calledName ≠ "") :
    ∃ name, call.children.head? = some name ∧ name.text = call.calledName := by
  cases hname : call.children.head? with
  | none => simp [Tree.calledName, hname] at h
  | some name => exact ⟨name, rfl, by simp [Tree.calledName, hname]⟩

theorem argumentOf?_eq_some_iff (hempty : "" ∉ functions) :
    argumentOf? functions literal = some collection ↔
      ∃ argument list call outer, literal.ancestors = argument :: list :: call :: outer ∧
        argument.tree.is .argument ∧ call.tree.is .functionCall ∧
        call.tree.calledName ∈ functions ∧
        ∃ command, literal.ancestors.find? (·.tree.is .command) = some command ∧
          (command.tree.childOf? .collection).map Tree.text = some collection := by
  constructor
  · intro h
    obtain ⟨argument, hargument, h⟩ := Option.bind_eq_some_iff.mp h
    obtain ⟨_, hisArgument, h⟩ := Option.bind_eq_some_iff.mp h
    obtain ⟨list, hlist, h⟩ := Option.bind_eq_some_iff.mp h
    obtain ⟨call, hcall, h⟩ := Option.bind_eq_some_iff.mp h
    obtain ⟨_, hisCall, h⟩ := Option.bind_eq_some_iff.mp h
    obtain ⟨name, hname, h⟩ := Option.bind_eq_some_iff.mp h
    obtain ⟨_, hfunction, h⟩ := Option.bind_eq_some_iff.mp h
    obtain ⟨command, hcommand, h⟩ := Option.bind_eq_some_iff.mp h
    obtain ⟨tree, htree, h⟩ := Option.bind_eq_some_iff.mp h
    have habove : literal.ancestors = argument :: list :: call :: call.ancestors := by
      rw [Focus.ancestors_of_parent? hargument, Focus.ancestors_of_parent? hlist,
        Focus.ancestors_of_parent? hcall]
    refine ⟨argument, list, call, call.ancestors, habove, by simpa using hisArgument,
      by simpa using hisCall, ?_, command, hcommand, ?_⟩
    · simpa [Tree.calledName, hname] using hfunction
    · rw [htree]
      exact h
  · rintro ⟨argument, list, call, outer, habove, hisArgument, hisCall, hfunction, command,
      hcommand, hcollection⟩
    obtain ⟨hargument, habove⟩ := Focus.ancestors_eq_cons habove
    obtain ⟨hlist, habove⟩ := Focus.ancestors_eq_cons habove
    obtain ⟨hcall, -⟩ := Focus.ancestors_eq_cons habove
    obtain ⟨name, hname, htext⟩ := exists_name (ne_of_mem_of_not_mem hfunction hempty)
    obtain ⟨tree, htree, rfl⟩ := Option.map_eq_some_iff.mp hcollection
    simp [argumentOf?, guard, hargument, hlist, hcall, hisArgument, hisCall, hname, htext,
      hfunction, hcommand, htree]

-- What is said of literals of a rule that are arguments of some functions.
structure IsOfLiterals (make : String → Span → CompletionContext) (rule : Rule)
    (functions : List String) : Prop where
  decided (cursor : Cursor) (focus : Focus) (collection : String) (span : Span) :
    decidedAt? cursor focus = some (make collection span) ↔
      focus.tree.is rule ∧ argumentOf? functions focus = some collection ∧
        span = openSpan cursor focus
  embedded (collection : String) (span : Span) : (make collection span).isEmbedded
  opens : rule.opening?.isSome
  named : "" ∉ functions

theorem literal_of_embedded {focus : Focus} {context : CompletionContext}
    (h : Decision cursor focus context) (hembedded : context.isEmbedded) :
    (focus.tree.is .objectLiteral ∧ ∃ collection, argumentOf? queryFunctions focus =
        some collection ∧ context = query collection (openSpan cursor focus)) ∨
      (focus.tree.is .arrayLiteral ∧ ∃ collection, argumentOf? pipelineFunctions focus =
        some collection ∧ context = pipeline collection (openSpan cursor focus)) := by
  cases h with
  | query hrule hargument => exact .inl ⟨hrule, _, hargument, rfl⟩
  | pipeline hrule hargument => exact .inr ⟨hrule, _, hargument, rfl⟩
  | outer _ _ hplain => exact absurd hembedded hplain
  | call _ hnames => rcases hnames with ⟨_, rfl⟩ | ⟨_, rfl⟩ | rfl <;> contradiction
  | _ => contradiction

theorem queries : IsOfLiterals query .objectLiteral queryFunctions where
  decided cursor focus collection span := by
    constructor
    · intro h
      rcases literal_of_embedded (decision_of_decidedAt? h) rfl with
        ⟨hrule, _, hargument, hcontext⟩ | ⟨_, _, _, hcontext⟩
      · obtain ⟨rfl, rfl⟩ := query.inj hcontext
        exact ⟨hrule, hargument, rfl⟩
      · contradiction
    · rintro ⟨hrule, hargument, rfl⟩
      obtain ⟨tree, above⟩ := focus
      obtain ⟨start, children, rfl⟩ := Tree.is_iff.mp hrule
      simp [decidedAt?, hargument]
  embedded _ _ := rfl
  opens := rfl
  named := by decide

theorem pipelines : IsOfLiterals pipeline .arrayLiteral pipelineFunctions where
  decided cursor focus collection span := by
    constructor
    · intro h
      rcases literal_of_embedded (decision_of_decidedAt? h) rfl with
        ⟨_, _, _, hcontext⟩ | ⟨hrule, _, hargument, hcontext⟩
      · contradiction
      · obtain ⟨rfl, rfl⟩ := pipeline.inj hcontext
        exact ⟨hrule, hargument, rfl⟩
    · rintro ⟨hrule, hargument, rfl⟩
      obtain ⟨tree, above⟩ := focus
      obtain ⟨start, children, rfl⟩ := Tree.is_iff.mp hrule
      simp [decidedAt?, hargument]
  embedded _ _ := rfl
  opens := rfl
  named := by decide

theorem decidedAt?_call (cursor : Cursor) {call : Focus} (h : call.tree.is .functionCall) :
    (decidedAt? cursor call).isSome := by
  obtain ⟨tree, above⟩ := call
  obtain ⟨start, children, rfl⟩ := Tree.is_iff.mp h
  rfl

end CompletionContext

namespace Pad

open Syntax CompletionContext

variable {text : String} {p : Position} {rule : Rule} {functions : List String}
  {collection : String} {span : Span} {setting : Setting}
  {make : String → Span → CompletionContext}

-- The literal around a place in which a collection is asked for, and its span.
structure IsDocumentAt (pad : Pad) (p : Position) (rule : Rule) (functions : List String)
    (collection : String) (span : Span) (setting : Setting) : Prop where
  encloses : ∃ leaf, (Focus.root pad.tree).lastLeafBefore? (pad.cursorAt p).offset = some leaf ∧
    setting.Encloses leaf
  asks : setting.Asks rule functions collection
  span : span = openSpan (pad.cursorAt p) setting.literal

theorem list_of_argument {argument list : Focus}
    (h : Focus.Under (Focus.root (ofText text).tree) argument)
    (hrule : argument.tree.is .argument) (hparent : argument.parent? = some list) :
    list.tree.is .arguments := by
  obtain ⟨other, hother, hholds⟩ := parent_holdsPart h hrule hparent
  obtain rfl := eq_of_holdsPart_argument hholds
  exact hother

theorem exists_document_of_contextAt (hmake : IsOfLiterals make rule functions)
    (h : (ofText text).contextAt p = make collection span) :
    ∃ setting, (ofText text).IsDocumentAt p rule functions collection span setting := by
  have hembedded := hmake.embedded collection span
  cases hlast : (Focus.root (ofText text).tree).lastLeafBefore?
      ((ofText text).cursorAt p).offset with
  | none =>
    rw [lastLeafBefore?_root] at hlast
    rw [← h, contextAt_eq, hlast] at hembedded
    contradiction
  | some leaf =>
    obtain ⟨hroot, token, htoken, _⟩ := Focus.lastLeafIn?_under hlast
    have hcontext : make collection span ≠ nothing := fun hnothing => by
      rw [hnothing] at hembedded
      contradiction
    obtain ⟨before, literal, after, hsplit, hdecided, hbefore⟩ :=
      exists_decided_of_contextAt hlast h hcontext
    obtain ⟨hrule, hargument, hspan⟩ := (hmake.decided _ _ _ _).mp hdecided
    obtain ⟨argument, list, call, outer, habove, hisArgument, hisCall, hname, hcommand⟩ :=
      (argumentOf?_eq_some_iff hmake.named).mp hargument
    have hunder : Focus.Under (Focus.root (ofText text).tree) literal :=
      hroot.of_mem_lineage (by simp [hsplit])
    have hlist : list.tree.is .arguments :=
      list_of_argument (hunder.of_mem_ancestors (by simp [habove])).1 hisArgument
        (Focus.ancestors_eq_cons (Focus.ancestors_eq_cons habove).2).1
    rw [habove] at hcommand
    -- the literal is no leaf, so that it is found above the leaf
    cases before with
    | nil =>
      obtain ⟨rfl, _⟩ := List.cons.inj hsplit
      obtain ⟨start, children, htree⟩ := Tree.is_iff.mp hrule
      simp [htree, Tree.token?] at htoken
    | cons first inner =>
      obtain ⟨rfl, hancestors⟩ := List.cons.inj hsplit
      rw [← Focus.ancestors_of_split hsplit, habove] at hancestors
      refine ⟨⟨literal, argument, list, call, outer⟩, ⟨leaf, hlast, inner, hancestors, ?_⟩,
        ⟨hrule, hisArgument, hlist, hisCall, hname, hcommand⟩, hspan⟩
      intro node hnode hcall
      have hnone := hbefore node (List.mem_cons_of_mem _ hnode)
      simpa [hnone] using decidedAt?_call ((ofText text).cursorAt p) hcall

section Below

variable {literal leaf node : Focus} {before after : List Focus}
  (hroot : Focus.Under (Focus.root (ofText text).tree) leaf)
  (hopens : ∃ rule, literal.tree.is rule ∧ rule.opening?.isSome)
  (hsplit : leaf :: leaf.ancestors = before ++ literal :: after)
  (hnode : node ∈ before)

include hroot hopens hsplit hnode

-- What stands between a literal and a leaf is a part of a value.
theorem isValuePart_below (hrule : node.tree.is rule) : isValuePart rule := by
  have hmem : node ∈ leaf :: leaf.ancestors := by simp [hsplit, hnode]
  obtain ⟨hliteral, hbelow⟩ :=
    (hroot.of_mem_lineage hmem).of_mem_ancestors (Focus.mem_ancestors_of_split hsplit hnode)
  obtain ⟨outer, houter, hopening⟩ := hopens
  refine isValuePart_of_under hliteral houter ?_ hbelow _ hrule
  cases outer <;> revert hopening <;> decide

omit hroot in
theorem parent_below {parent : Focus} (hparent : node.parent? = some parent)
    (hrule : parent.tree.is rule) (hplain : rule.opening? = none) : parent ∈ before := by
  rcases Focus.parent?_of_split hsplit hnode hparent with hmem | rfl
  · exact hmem
  · obtain ⟨outer, houter, hopening⟩ := hopens
    obtain rfl := Tree.is_unique hrule houter
    simp [hplain] at hopening

variable (hcalls : ∀ node ∈ before, ¬ node.tree.is .functionCall)

include hcalls

theorem not_arguments_below : ¬ node.tree.is .arguments := by
  intro hlist
  have hmem : node ∈ leaf :: leaf.ancestors := by simp [hsplit, hnode]
  have hunder := hroot.of_mem_lineage hmem
  obtain ⟨call, hparent⟩ :=
    Focus.exists_parent_of_mem (Focus.mem_ancestors_of_split hsplit hnode)
  obtain ⟨outer, houter, hholds⟩ := parent_holdsPart hunder hlist hparent
  obtain rfl := eq_of_holdsPart_arguments hholds
  exact hcalls call (parent_below hopens hsplit hnode hparent houter rfl) houter

theorem not_argument_below (hempty : "" ∉ functions) :
    argumentOf? functions node ≠ some collection := by
  intro h
  obtain ⟨argument, list, call, outer, habove, hargument, _⟩ :=
    (argumentOf?_eq_some_iff hempty).mp h
  obtain ⟨hparent, habove⟩ := Focus.ancestors_eq_cons habove
  have hinside := parent_below hopens hsplit hnode hparent hargument rfl
  obtain ⟨hparent, _⟩ := Focus.ancestors_eq_cons habove
  have hlist : list.tree.is .arguments :=
    list_of_argument (hroot.of_mem_lineage (by simp [hsplit, hinside])) hargument hparent
  have hinside := parent_below hopens hsplit hinside hparent hlist rfl
  exact not_arguments_below hroot hopens hsplit hinside hcalls hlist

-- Below a literal nothing decides before a call does.
theorem decidedAt?_below : decidedAt? ((ofText text).cursorAt p) node = none := by
  have hpart : ∀ {rule}, node.tree.is rule → isValuePart rule :=
    isValuePart_below hroot hopens hsplit hnode
  by_contra hsome
  obtain ⟨context, hcontext⟩ := Option.ne_none_iff_exists'.mp hsome
  cases decision_of_decidedAt? hcontext with
  | skipped hleaf hparent =>
    obtain ⟨parent, hparent, hcommands⟩ := hparent
    have hmem := parent_below hopens hsplit hnode hparent hcommands rfl
    exact absurd (isValuePart_below hroot hopens hsplit hmem hcommands) (by decide)
  | outer hrule houter => simpa [isValuePart, houter] using hpart hrule
  | collection hrule => exact absurd (hpart hrule) (by decide)
  | call hrule => exact hcalls node hnode hrule
  | closedList hrule => exact not_arguments_below hroot hopens hsplit hnode hcalls hrule
  | openList hrule => exact not_arguments_below hroot hopens hsplit hnode hcalls hrule
  | query hrule hargument =>
    exact not_argument_below hroot hopens hsplit hnode hcalls (by decide) hargument
  | pipeline hrule hargument =>
    exact not_argument_below hroot hopens hsplit hnode hcalls (by decide) hargument

end Below

theorem contextAt_of_document (hmake : IsOfLiterals make rule functions)
    (h : (ofText text).IsDocumentAt p rule functions collection span setting) :
    (ofText text).contextAt p = make collection span := by
  obtain ⟨⟨leaf, hlast, hencloses⟩, hasks, hspan⟩ := h
  obtain ⟨hroot, token, htoken, _⟩ := Focus.lastLeafIn?_under hlast
  have hargument : argumentOf? functions setting.literal = some collection := by
    refine (argumentOf?_eq_some_iff hmake.named).mpr ⟨_, _, _, _, hencloses.ancestors_literal,
      hasks.argument, hasks.call, hasks.name, ?_⟩
    rw [hencloses.ancestors_literal]
    exact hasks.command
  have hdecided : decidedAt? ((ofText text).cursorAt p) setting.literal =
      some (make collection span) := (hmake.decided _ _ _ _).mpr ⟨hasks.literal, hargument, hspan⟩
  obtain ⟨inner, hancestors, hcalls⟩ := hencloses
  have hsplit : leaf :: leaf.ancestors = (leaf :: inner) ++ setting.literal :: setting.above := by
    rw [hancestors, List.cons_append]
  have hcalls : ∀ node ∈ leaf :: inner, ¬ node.tree.is .functionCall := by
    refine List.forall_mem_cons.mpr ⟨fun hcall => ?_, hcalls⟩
    obtain ⟨start, children, htree⟩ := Tree.is_iff.mp hcall
    simp [htree, Tree.token?] at htoken
  have hfound : (leaf :: leaf.ancestors).findSome? (decidedAt? ((ofText text).cursorAt p)) =
      some (make collection span) :=
    List.findSome?_eq_some_iff.mpr ⟨_, _, _, hsplit, hdecided, fun node hnode =>
      decidedAt?_below hroot ⟨rule, hasks.literal, hmake.opens⟩ hsplit hnode hcalls⟩
  rw [contextAt_of_leaf hlast, hfound, Option.getD_some]

-- Whether a literal that is the first argument of a call of one of the
-- functions, made on a command on the collection, starts at an offset.
def OpensFirstArgument (pad : Pad) (rule : Rule) (functions : List String) (collection : String)
    (start : Nat) : Prop :=
  ∃ command ∈ pad.tree.nodesOf .command,
    (command.childOf? .collection).map Tree.text = some collection ∧
      ∃ call ∈ command.calls, call.calledName ∈ functions ∧
        ∃ argument ∈ call.argumentsOf.head?, ∃ literal ∈ argument.children,
          literal.is rule ∧ literal.span.start = start

instance (pad : Pad) (rule : Rule) (functions : List String) (collection : String) (start : Nat) :
    Decidable (pad.OpensFirstArgument rule functions collection start) :=
  inferInstanceAs (Decidable (∃ _ ∈ _, _))

section IsDocumentAt

variable (h : (ofText text).IsDocumentAt p rule functions collection span setting)

include h

theorem IsDocumentAt.cursor_in_span : span.start ≤ ((ofText text).cursorAt p).offset ∧
    ((ofText text).cursorAt p).offset ≤ span.stop := by
  obtain ⟨⟨leaf, hlast, hencloses⟩, _, rfl⟩ := h
  refine ⟨?_, Nat.le_max_right _ _⟩
  rw [lastLeafBefore?_root] at hlast
  obtain ⟨hunder, token, htoken, hends⟩ := Focus.lastLeafIn?_under hlast
  rcases hunder.mem_ancestors hencloses.mem_ancestors with ⟨hliteral, hbelow⟩ | hroot
  · simp only [Focus.endsBy, Bool.and_eq_true, decide_eq_true_eq] at hends
    exact start_le_of_mem (hliteral.anchored (commandsFocus_anchored text))
      ((commandsFocus_spread text).sublist hliteral.tokens_sublist)
      (hbelow.tokens_sublist.subset (Tree.mem_tokens_of_token? htoken)) hends.2
  · -- above the commands there is the root alone, and nothing above that
    have habove := hencloses.ancestors_literal
    rw [List.mem_singleton.mp hroot] at habove
    contradiction

theorem IsDocumentAt.opensFirstArgument (hfirst : setting.IsFirst) (hdirect : setting.IsDirect) :
    (ofText text).OpensFirstArgument rule functions collection span.start := by
  obtain ⟨⟨leaf, hlast, hencloses⟩, hasks, rfl⟩ := h
  have hliteral := ((Focus.lastLeafIn?_under hlast).1.of_mem_ancestors hencloses.mem_ancestors).1
  have habove := hencloses.ancestors_literal
  obtain ⟨literal, argument, list, call, outer⟩ := setting
  obtain ⟨command, rest, rfl⟩ : ∃ command rest, outer = command :: rest := by
    cases outer with
    | nil => simp [Setting.IsDirect] at hdirect
    | cons command rest => exact ⟨command, rest, rfl⟩
  have hcommand : command.tree.is .command := by simpa [Setting.IsDirect] using hdirect
  have hcollection : (command.tree.childOf? .collection).map Tree.text = some collection := by
    obtain ⟨found, hfound, hcollection⟩ := hasks.command
    obtain rfl : command = found := by
      simpa [Setting.above, Tree.is_eq hasks.argument, Tree.is_eq hasks.list,
        Tree.is_eq hasks.call, hcommand] using hfound
    exact hcollection
  have hinside : ∀ node ∈ [argument, list, call, command],
      Focus.Under (Focus.root (ofText text).tree) node := by
    intro node hnode
    refine (hliteral.of_mem_ancestors ?_).1
    rw [habove]
    exact List.mem_append_left rest hnode
  obtain ⟨hargument, habove⟩ := Focus.ancestors_eq_cons habove
  obtain ⟨_, habove⟩ := Focus.ancestors_eq_cons habove
  obtain ⟨_, habove⟩ := Focus.ancestors_eq_cons habove
  obtain ⟨hparent, _⟩ := Focus.ancestors_eq_cons habove
  have hcall : call.tree ∈ command.tree.calls :=
    List.mem_filter.mpr ⟨mem_children_of_parent? (hinside call (by simp)) hparent, hasks.call⟩
  exact ⟨command.tree, (hinside command (by simp)).mem_nodesOf hcommand, hcollection, call.tree,
    hcall, hasks.name, argument.tree, hfirst, literal.tree,
    mem_children_of_parent? hliteral hargument, hasks.literal, rfl⟩

end IsDocumentAt

-- A query or a pipeline is completed exactly in a literal around the cursor that
-- is an argument of a call of one of the functions. Where it is the first argument
-- of a call made on the command, it is what the call takes.
theorem contextAt_document (text : String) (p : Position) (collection : String) (span : Span) :
    ((ofText text).contextAt p = .query collection span ↔ ∃ setting,
      (ofText text).IsDocumentAt p .objectLiteral queryFunctions collection span setting) ∧
    ((ofText text).contextAt p = .pipeline collection span ↔ ∃ setting,
      (ofText text).IsDocumentAt p .arrayLiteral pipelineFunctions collection span setting) ∧
    ∀ rule functions setting,
      (ofText text).IsDocumentAt p rule functions collection span setting →
        (span.start ≤ ((ofText text).cursorAt p).offset ∧
          ((ofText text).cursorAt p).offset ≤ span.stop) ∧
        (setting.IsFirst → setting.IsDirect →
          (ofText text).OpensFirstArgument rule functions collection span.start) :=
  ⟨⟨exists_document_of_contextAt queries, fun ⟨_, h⟩ => contextAt_of_document queries h⟩,
    ⟨exists_document_of_contextAt pipelines, fun ⟨_, h⟩ => contextAt_of_document pipelines h⟩,
    fun _ _ _ h => ⟨h.cursor_in_span, h.opensFirstArgument⟩⟩

theorem contextAt_document_find : ∃ setting,
    (ofText "db.c.find(\x7bn").IsDocumentAt ⟨0, 12⟩ .objectLiteral queryFunctions "c" ⟨10, 12⟩
      setting :=
  (contextAt_document "db.c.find(\x7bn" ⟨0, 12⟩ "c" ⟨10, 12⟩).1.mp (by decide +kernel)

-- In the second argument of a call.
theorem contextAt_secondArgument :
    (ofText "db.c.find(\x7b\x7d, \x7bn").contextAt ⟨0, 16⟩ = .query "c" ⟨14, 16⟩ ∧
      ¬ (ofText "db.c.find(\x7b\x7d, \x7bn").OpensFirstArgument .objectLiteral queryFunctions
        "c" 14 := by
  decide +kernel

end Pad

end QueryPad
