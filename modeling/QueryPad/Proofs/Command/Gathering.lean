import Mathlib.Data.List.Forall2
import QueryPad.Command.Gathering
import QueryPad.Proofs.Syntax.CommandParts
import QueryPad.Proofs.Syntax.Arena
import QueryPad.Proofs.Command.Reports

-- The walk that fills commands as it meets their parts gathers, for each
-- command, what its own children say, and nothing from deeper calls.
namespace QueryPad

open Text

namespace Focus

variable {argument list call command : Tree} {before after : List Tree} {i j : Nat}
  {above : List (Tree × Nat)}

theorem number_eq (tree : Tree) :
    number ⟨tree, (command, i) :: above⟩ =
      1 + Tree.countAll (command.children.take i) + number ⟨command, above⟩ := rfl

-- The first call of a command, as it is found at its place.
theorem childOf?_eq (hchildren : command.children = before ++ call :: after)
    (hcall : call.is .functionCall) (hbefore : ∀ tree ∈ before, ¬ tree.is .functionCall) :
    childOf? ⟨command, above⟩ .functionCall =
      some ⟨call, (command, before.length) :: above⟩ := by
  rw [childOf?, children, hchildren, List.mapIdx_append, List.find?_append,
    List.find?_eq_none.mpr, List.mapIdx_cons, Option.none_or, Nat.zero_add]
  · exact List.find?_cons_of_pos (by exact hcall)
  · intro focus hfocus
    obtain ⟨index, hindex, rfl⟩ := List.mem_mapIdx.mp hfocus
    exact hbefore _ (List.getElem_mem hindex)

-- Of two children the later one has the higher number.
theorem number_lt {former : Tree} {between : List Tree}
    (hchildren : command.children = before ++ former :: (between ++ call :: after)) :
    number ⟨former, (command, before.length) :: above⟩ <
      number ⟨call, (command, (before ++ former :: between).length) :: above⟩ := by
  have hlater : command.children = (before ++ former :: between) ++ call :: after := by
    rw [hchildren, List.append_assoc, List.cons_append]
  rw [number_eq, number_eq, hlater, List.take_left, List.append_assoc, List.take_left,
    Tree.countAll_append, Tree.countAll]
  have := former.count_pos
  omega

-- An argument is recorded if no call stands before its own on the command.
theorem isRecorded_iff (hlist : list.is .arguments) (hcall : call.is .functionCall)
    (hcommand : command.is .command) (hchildren : command.children = before ++ call :: after) :
    isRecorded ⟨argument, (list, i) :: (call, j) :: (command, before.length) :: above⟩ ↔
      ∀ tree ∈ before, ¬ tree.is .functionCall := by
  have hrecorded : isRecorded ⟨argument,
      (list, i) :: (call, j) :: (command, before.length) :: above⟩ =
        (childOf? ⟨command, above⟩ .functionCall).any fun first =>
          first.number = number ⟨call, (command, before.length) :: above⟩ := by
    simp [isRecorded, parent?, hlist, hcall, hcommand]
  rw [hrecorded]
  constructor
  · intro hfirst tree htree hother
    obtain ⟨former, hfound⟩ : ∃ former, before.find? (·.is .functionCall) = some former := by
      rw [← Option.isSome_iff_exists, List.find?_isSome]
      exact ⟨tree, htree, hother⟩
    obtain ⟨hformer, first, between, rfl, hnone⟩ := List.find?_eq_some_iff_append.mp hfound
    have hsplit : command.children = first ++ former :: (between ++ call :: after) := by
      rw [hchildren, List.append_assoc, List.cons_append]
    rw [childOf?_eq hsplit hformer (by simpa using hnone)] at hfirst
    rw [Option.any_some, decide_eq_true_eq] at hfirst
    exact Nat.ne_of_lt (number_lt hsplit) hfirst
  · intro hbefore
    rw [childOf?_eq hchildren hcall hbefore]
    simp

-- Whatever is recorded has a command three nodes above it.
theorem isRecorded_eq_false (argument : Tree) (h : ∀ outer ∈ above.take 3, ¬ outer.1.is .command) :
    isRecorded ⟨argument, above⟩ = false := by
  match above with
  | [] | [_] | [_, _] => simp [isRecorded, parent?]
  | (list, i) :: (call, j) :: (command, k) :: above =>
    have hcommand := h (command, k) (by simp)
    simp [isRecorded, parent?, hcommand]

end Focus

namespace Draft

variable {index : LineIndex} {occasion : Occasion}

def recordAll (index : LineIndex) (occasion : Occasion) (arguments : List Tree) (draft : Draft) :
    Draft :=
  arguments.foldl (fun draft argument => draft.record index occasion argument) draft

-- Arguments of which is known what they denote.
def adding (index : LineIndex) (found : List (Argument × List ValueReport)) (draft : Draft) :
    Draft :=
  { draft with
    arguments := draft.arguments ++ found.map (·.1.text)
    values := draft.values ++ found.map (·.1.value)
    errors := draft.errors ++ found.flatMap fun (_, reports) => reports.map (.ofValueReport index) }

-- What is known of a command when some of its children were seen.
def upTo (index : LineIndex) (occasion : Occasion) (node : Tree) (seen : List Tree) : Draft :=
  let calls := seen.filter (·.is .functionCall)
  let start : Draft :=
    { ofNode index node with
      collection := (seen.filter (·.is .collection)).getLast?.map Tree.text
      name := ((calls.map Tree.calledName).find? (!·.isEmpty)).getD "" }
  start.adding index (((calls.take 1).flatMap Tree.argumentsOf).map (Argument.ofTree occasion))

theorem recordAll_nil : recordAll index occasion [] = id := rfl

theorem recordAll_cons (argument : Tree) (arguments : List Tree) :
    recordAll index occasion (argument :: arguments) =
      recordAll index occasion arguments ∘ record index occasion argument := rfl

theorem record_eq (argument : Tree) (draft : Draft) :
    draft.record index occasion argument =
      draft.adding index [Argument.ofTree occasion argument] := by
  rw [record, Argument.ofTree]
  generalize Bson.ofExtendedText _ = found
  cases found with
  | ok value => simp [pushArgument, pushErrors, adding]
  | error error => simp [pushArgument, pushErrors, adding]

theorem adding_adding (found more : List (Argument × List ValueReport)) (draft : Draft) :
    (draft.adding index found).adding index more = draft.adding index (found ++ more) := by
  simp [adding]

theorem recordAll_eq (arguments : List Tree) (draft : Draft) :
    draft.recordAll index occasion arguments =
      draft.adding index (arguments.map (Argument.ofTree occasion)) := by
  induction arguments generalizing draft with
  | nil => simp [recordAll, adding]
  | cons argument arguments ih =>
    rw [recordAll_cons, Function.comp, ih, record_eq, adding_adding]
    rfl

section UpTo

variable {node tree : Tree} {seen : List Tree}

theorem upTo_of_leaf (h : tree.isLeaf) :
    upTo index occasion node (seen ++ [tree]) = upTo index occasion node seen := by
  simp [upTo, Syntax.is_eq_false_of_isLeaf h]

theorem upTo_of_collection (h : tree.is .collection) :
    upTo index occasion node (seen ++ [tree]) =
      (upTo index occasion node seen).within tree.text := by
  simp [upTo, h, Tree.is_eq h, adding, within]

theorem firstName_append (names : List String) (name : String) :
    ((names ++ [name]).find? (!·.isEmpty)).getD "" =
      if ((names.find? (!·.isEmpty)).getD "").isEmpty then name
      else (names.find? (!·.isEmpty)).getD "" := by
  rw [List.find?_append]
  cases hfound : names.find? (!·.isEmpty) with
  | none =>
    by_cases hname : name.isEmpty
    · simp [String.isEmpty_iff.mp hname]
    · simp [hname]
  | some found =>
    have hnonempty := List.find?_some hfound
    simp_all

theorem upTo_of_call (h : tree.is .functionCall) :
    upTo index occasion node (seen ++ [tree]) =
      ((upTo index occasion node seen).calledBy tree).recordAll index occasion
        (if seen.any (·.is .functionCall) then [] else tree.argumentsOf) := by
  have hnone : ¬ tree.is .collection := by simp [Tree.is_eq h]
  have hcollection :
      (seen ++ [tree]).filter (·.is .collection) = seen.filter (·.is .collection) := by simp [hnone]
  have hcalls : (seen ++ [tree]).filter (·.is .functionCall) =
      seen.filter (·.is .functionCall) ++ [tree] := by simp [h]
  have hany : seen.any (·.is .functionCall) = !(seen.filter (·.is .functionCall)).isEmpty := by
    rw [Bool.eq_iff_iff, Bool.not_eq_true', List.isEmpty_eq_false_iff, ne_eq,
      List.filter_eq_nil_iff]
    simp
  rw [recordAll_eq, upTo, upTo, hcollection, hcalls, hany, List.map_append, List.map_singleton,
    firstName_append]
  cases hseen : seen.filter (·.is .functionCall) with
  | nil => simp [calledBy, adding]
  | cons first more =>
    rw [calledBy]
    split <;> simp_all [adding]

end UpTo

end Draft

namespace Gathering

open Syntax

variable {index : LineIndex} {occasion : Occasion} {above : List (Tree × Nat)} {state : Gathering}

@[simp] theorem write_complete (change : Draft → Draft) :
    (state.write change).complete = state.complete := rfl

@[simp] theorem write_current (change : Draft → Draft) :
    (state.write change).current = state.current.map change := rfl

theorem write_id : state.write id = state := by simp [write]

theorem write_write (first second : Draft → Draft) :
    (state.write first).write second = state.write (second ∘ first) := by simp [write]

theorem visit_leaf {tree : Tree} (hleaf : tree.isLeaf) :
    state.visit index occasion above tree = state := by
  cases tree with
  | node => simp [Tree.isLeaf] at hleaf
  | _ => rw [visit]

-- A node that is no command, and no collection either, writes at most a name
-- or an argument.
theorem enter_eq {tree : Tree} (hcommand : ¬ tree.is .command)
    (hcollection : ¬ tree.is .collection)
    (hcall : tree.is .functionCall → ¬ (Focus.parent? ⟨tree, above⟩).any (·.tree.is .command))
    (hargument : tree.is .argument → ¬ Focus.isRecorded ⟨tree, above⟩) :
    state.enter index occasion ⟨tree, above⟩ = state := by
  rw [enter]
  split
  · next h => exact absurd (by simp [Tree.is, h]) hcommand
  · next h => exact absurd (by simp [Tree.is, h]) hcollection
  · next h => exact if_neg (hcall (by simp [Tree.is, h]))
  · next h => exact if_neg (hargument (by simp [Tree.is, h]))
  · rfl

theorem leave_eq {outer : Option Draft} {tree : Tree} (hcommand : ¬ tree.is .command) :
    state.leave outer ⟨tree, above⟩ = state := if_neg hcommand

theorem not_command_of_nodesOf {tree : Tree} {rule : Rule} (h : tree.nodesOf rule = []) :
    ¬ tree.is rule := by
  cases tree with
  | node other start children =>
    intro hrule
    obtain rfl : other = rule := by simpa [Tree.is, Tree.rule?] using hrule
    simp [Tree.nodesOf] at h
  | _ => simp [Tree.is, Tree.rule?]

theorem nodesOfAll_children {tree : Tree} {rule : Rule} (h : tree.nodesOf rule = []) :
    Tree.nodesOfAll rule tree.children = [] := by
  cases tree with
  | node other start children =>
    rw [Tree.nodesOf] at h
    split at h
    · contradiction
    · exact h
  | _ => rfl

-- A tree in which no command and no collection stands.
structure IsQuiet (tree : Tree) : Prop where
  commands : tree.nodesOf .command = []
  collections : tree.nodesOf .collection = []

theorem isQuiet_of_mem {trees : List Tree} {tree : Tree}
    (hcommands : Tree.nodesOfAll .command trees = [])
    (hcollections : Tree.nodesOfAll .collection trees = []) (htree : tree ∈ trees) :
    IsQuiet tree := by
  rw [Tree.nodesOfAll_eq_flatMap, List.flatMap_eq_nil_iff] at hcommands hcollections
  exact ⟨hcommands tree htree, hcollections tree htree⟩

theorem IsQuiet.child {tree child : Tree} (h : IsQuiet tree) (hchild : child ∈ tree.children) :
    IsQuiet child :=
  isQuiet_of_mem (nodesOfAll_children h.commands) (nodesOfAll_children h.collections) hchild

theorem IsQuiet.enter_eq {tree : Tree} (h : IsQuiet tree)
    (hcall : tree.is .functionCall → ¬ (Focus.parent? ⟨tree, above⟩).any (·.tree.is .command))
    (hargument : tree.is .argument → ¬ Focus.isRecorded ⟨tree, above⟩) :
    state.enter index occasion ⟨tree, above⟩ = state :=
  Gathering.enter_eq (not_command_of_nodesOf h.commands) (not_command_of_nodesOf h.collections)
    hcall hargument

mutual

-- More than three steps below a command nothing is written.
theorem visit_quiet (tree : Tree) (h : IsQuiet tree) (above : List (Tree × Nat))
    (hfar : ∀ outer ∈ above.take 3, ¬ outer.1.is .command) (state : Gathering) :
    state.visit index occasion above tree = state := by
  cases tree with
  | terminal | error => rw [visit]
  | node rule start children =>
    have hcommand := not_command_of_nodesOf h.commands
    have hparent : ¬ (Focus.parent? ⟨.node rule start children, above⟩).any
        (·.tree.is .command) := by
      cases above with
      | nil => simp [Focus.parent?]
      | cons outer above => simpa [Focus.parent?] using hfar outer (by simp)
    have harguments := Focus.isRecorded_eq_false (.node rule start children) hfar
    rw [visit, h.enter_eq (fun _ => hparent) (fun _ => by simp [harguments]), visitAll_quiet,
      leave_eq hcommand]
    · exact fun child hchild => h.child hchild
    · exact hcommand
    · exact fun outer houter => hfar outer (List.take_subset_take_left above (by decide) houter)

theorem visitAll_quiet (trees : List Tree) (h : ∀ tree ∈ trees, IsQuiet tree) (parent : Focus)
    (child : Nat) (hparent : ¬ parent.tree.is .command)
    (hfar : ∀ outer ∈ parent.above.take 2, ¬ outer.1.is .command) (state : Gathering) :
    state.visitAll index occasion parent child trees = state := by
  cases trees with
  | nil => rw [visitAll]
  | cons tree trees =>
    rw [visitAll, visit_quiet tree (h tree (by simp)), visitAll_quiet trees]
    · exact fun tree htree => h tree (by simp [htree])
    · exact hparent
    · exact hfar
    · intro outer houter
      rcases List.mem_cons.mp houter with rfl | houter
      · exact hparent
      · exact hfar outer houter

end

section List

variable {list call : Tree} {i j : Nat} (hlist : list.is .arguments) (hcall : call.is .functionCall)

include hlist hcall

-- In a list of arguments only the arguments themselves are recorded.
theorem visit_listItem {tree : Tree} (h : IsQuiet tree) (state : Gathering) :
    state.visit index occasion ((list, i) :: (call, j) :: above) tree =
      if tree.is .argument && Focus.isRecorded ⟨tree, (list, i) :: (call, j) :: above⟩ then
        state.write (.record index occasion tree)
      else state := by
  cases tree with
  | terminal | error => simp [visit, Tree.is, Tree.rule?]
  | node rule start children =>
    have hnone := not_command_of_nodesOf h.commands
    have hinside (state : Gathering) : state.visitAll index occasion
        ⟨.node rule start children, (list, i) :: (call, j) :: above⟩ 0 children = state := by
      apply visitAll_quiet children (fun child hchild => h.child hchild) _ _ hnone
      simp [Tree.is_eq hlist, Tree.is_eq hcall]
    rw [visit, hinside, leave_eq hnone]
    have hparent : ¬ (Focus.parent? ⟨.node rule start children,
        (list, i) :: (call, j) :: above⟩).any (·.tree.is .command) := by
      simp [Focus.parent?, Tree.is_eq hlist]
    split
    · next hrecorded =>
      rw [Bool.and_eq_true] at hrecorded
      obtain ⟨hargument, hrecorded⟩ := hrecorded
      obtain rfl : rule = .argument := by simpa [Tree.is, Tree.rule?] using hargument
      exact if_pos hrecorded
    · next hrecorded =>
      refine h.enter_eq (fun _ => hparent) fun hargument hrec => hrecorded ?_
      rw [hargument, hrec, Bool.and_self]

theorem visitAll_list {first : Bool}
    (hfirst : ∀ i tree, Focus.isRecorded ⟨tree, (list, i) :: (call, j) :: above⟩ = first)
    (trees : List Tree) (h : ∀ tree ∈ trees, IsQuiet tree) (child : Nat) (state : Gathering) :
    state.visitAll index occasion ⟨list, (call, j) :: above⟩ child trees =
      state.write (.recordAll index occasion
        (if first then trees.filter (·.is .argument) else [])) := by
  induction trees generalizing child state with
  | nil => simp [visitAll, Draft.recordAll_nil, write_id]
  | cons tree trees ih =>
    rw [visitAll, visit_listItem hlist hcall (h tree (by simp)), hfirst,
      ih fun other hother => h other (by simp [hother])]
    cases first with
    | false => simp
    | true =>
      by_cases hargument : tree.is .argument
      · simp [hargument, write_write, Draft.recordAll_cons]
      · simp [hargument]

end List

section Parts

variable {command call tree : Tree} {before after : List Tree}

-- A call on a command names it, and its arguments are recorded if no call
-- stands before it.
theorem visit_call {start listStart : Nat} {name : Token} {list : List Tree}
    (hcommand : command.is .command)
    (hcall : call = .node .functionCall start [.terminal name, .node .arguments listStart list])
    (hquiet : ∀ tree ∈ list, IsQuiet tree) (hchildren : command.children = before ++ call :: after)
    (state : Gathering) :
    state.visit index occasion ((command, before.length) :: above) call =
      state.write (.recordAll index occasion
        (if before.any (·.is .functionCall) then [] else call.argumentsOf) ∘ .calledBy call) := by
  have hrule : call.is .functionCall := by simp [hcall, Tree.is, Tree.rule?]
  have hlist : (Tree.node .arguments listStart list).is .arguments := by
    simp [Tree.is, Tree.rule?]
  have hfirst (i : Nat) (tree : Tree) : Focus.isRecorded ⟨tree, (.node .arguments listStart list, i)
      :: (call, 1) :: (command, before.length) :: above⟩ = !before.any (·.is .functionCall) := by
    rw [Bool.eq_iff_iff, Focus.isRecorded_iff hlist hrule hcommand hchildren]
    simp
  have harguments : call.argumentsOf = list.filter (·.is .argument) := by
    simp [hcall, Tree.argumentsOf, Tree.childrenOf, Tree.children, Tree.is, Tree.rule?]
  have henter (state : Gathering) :
      state.enter index occasion ⟨call, (command, before.length) :: above⟩ =
        state.write (.calledBy call) := by
    have hparent : (Focus.parent? ⟨call, (command, before.length) :: above⟩).any
        (·.tree.is .command) := by simpa [Focus.parent?] using hcommand
    rw [enter, show call.rule? = some .functionCall by simpa [Tree.is] using hrule]
    exact if_pos hparent
  have hvisit (state : Gathering) : state.visit index occasion
      ((call, 1) :: (command, before.length) :: above) (.node .arguments listStart list) =
        state.write (.recordAll index occasion
          (if before.any (·.is .functionCall) then [] else call.argumentsOf)) := by
    rw [visit, enter_eq, visitAll_list hlist hrule hfirst _ hquiet, leave_eq, harguments]
    · cases before.any (·.is .functionCall) <;> rfl
    all_goals simp [Tree.is, Tree.rule?]
  have hname : (Tree.terminal name).isLeaf := rfl
  rw [← write_write, ← henter, ← hvisit, hcall, visit, visitAll, visitAll, visitAll,
    visit_leaf hname, ← hcall, leave_eq (by simp [Tree.is_eq hrule])]

theorem visit_collection {start : Nat} {leaves : List Tree} (hleaves : ∀ leaf ∈ leaves, leaf.isLeaf)
    (state : Gathering) :
    state.visit index occasion above (.node .collection start leaves) =
      state.write (.within (Tree.node .collection start leaves).text) := by
  have hinside (state : Gathering) (child : Nat) (parent : Focus) :
      state.visitAll index occasion parent child leaves = state := by
    induction leaves generalizing child with
    | nil => rw [visitAll]
    | cons leaf leaves ih =>
      rw [visitAll, visit_leaf (hleaves leaf (by simp)),
        ih fun leaf h => hleaves leaf (by simp [h])]
  rw [visit, hinside, leave_eq (by simp [Tree.is, Tree.rule?])]
  rfl

-- One step of the walk along the children of a command.
theorem visit_part (hcommand : command.is .command) (hpart : CommandPart tree)
    (hchildren : command.children = before ++ tree :: after)
    (hcurrent : state.current = some (.upTo index occasion command before)) :
    state.visit index occasion ((command, before.length) :: above) tree =
      ⟨state.complete, some (.upTo index occasion command (before ++ [tree]))⟩ := by
  cases hpart with
  | leaf hleaf =>
    rw [visit_leaf hleaf, Draft.upTo_of_leaf hleaf, ← hcurrent]
  | collection hleaves =>
    rw [visit_collection hleaves, write, hcurrent, Draft.upTo_of_collection rfl, Option.map_some]
  | @call start listStart name list hname hcollections hcommands =>
    have hquiet : ∀ tree ∈ list, IsQuiet tree :=
      fun tree htree => isQuiet_of_mem hcommands hcollections htree
    rw [visit_call hcommand rfl hquiet hchildren, write, hcurrent, Draft.upTo_of_call rfl,
      Option.map_some]
    rfl

end Parts

theorem visitAll_members {command : Tree} {before trees : List Tree}
    (hcommand : command.is .command) (hparts : ∀ tree ∈ trees, CommandPart tree) (hchildren : command.children = before ++ trees)
    (hcurrent : state.current = some (.upTo index occasion command before)) :
    state.visitAll index occasion ⟨command, above⟩ before.length trees =
      ⟨state.complete, some (.upTo index occasion command (before ++ trees))⟩ := by
  induction trees generalizing before state with
  | nil => rw [visitAll, List.append_nil, ← hcurrent]
  | cons tree trees ih =>
    have hlength : before.length + 1 = (before ++ [tree]).length := by simp
    rw [visitAll, visit_part hcommand (hparts tree (by simp)) hchildren hcurrent, hlength,
      ih (fun other hother => hparts other (by simp [hother])) (by simp [hchildren]) rfl,
      List.append_assoc, List.singleton_append]

end Gathering

-- The draft that a command came from.
def Draft.ofCommand (command : Command) : Draft :=
  { range := command.range
    text := command.text
    collection := command.collection
    name := command.name
    arguments := command.arguments.map (·.text)
    values := command.arguments.map (·.value)
    chained := command.chained
    errors := command.errors }

theorem Draft.upTo_children {index : LineIndex} {occasion : Occasion} {node : Tree}
    (hmembers : Syntax.IsMembers 1 node.children) :
    Draft.upTo index occasion node node.children =
      .ofCommand (.ofTree index occasion node) := by
  have hcollection : (node.children.filter (·.is .collection)).getLast? =
      node.childOf? .collection := by
    have hbound := hmembers.collections
    rw [Tree.childOf?, ← List.head?_filter]
    cases hfound : node.children.filter (·.is .collection) with
    | nil => rfl
    | cons collection more =>
      rw [hfound, List.length_cons] at hbound
      obtain rfl := List.eq_nil_of_length_eq_zero (by omega : more.length = 0)
      rfl
  rw [upTo, hcollection]
  simp [adding, ofCommand, Command.ofTree, ofNode, Tree.calls, Tree.childrenOf]

namespace Gathering

open Syntax

variable {index : LineIndex} {occasion : Occasion} {above : List (Tree × Nat)}

-- A command is gathered whole, whatever was open around it.
theorem visit_command {start : Nat} {children : List Tree} (hmembers : IsMembers 1 children)
    (state : Gathering) :
    state.visit index occasion above (.node .command start children) =
      ⟨state.complete ++
        [.ofCommand (.ofTree index occasion (.node .command start children))], state.current⟩ := by
  have hcommand : (Tree.node .command start children).is .command := rfl
  have hstart : Draft.ofNode index (.node .command start children) =
      .upTo index occasion (.node .command start children) [] := by
    simp [Draft.upTo, Draft.adding, Draft.ofNode]
  have henter : state.enter index occasion ⟨.node .command start children, above⟩ =
      ⟨state.complete, some (.upTo index occasion (.node .command start children) [])⟩ := by
    rw [← hstart]
    rfl
  have hcurrent : (state.enter index occasion ⟨.node .command start children, above⟩).current =
      some (.upTo index occasion (.node .command start children) []) := by rw [henter]
  have hwalk := @visitAll_members index occasion above _ _ [] children hcommand hmembers.parts rfl
    hcurrent
  have hdraft : Draft.upTo index occasion (.node .command start children) children =
      .ofCommand (.ofTree index occasion (.node .command start children)) :=
    Draft.upTo_children hmembers
  rw [List.length_nil, List.nil_append] at hwalk
  rw [visit, hwalk, leave, if_pos hcommand, henter, ← hdraft]
  rfl

-- What one item of the list of commands adds.
theorem visit_item {tree : Tree} (h : ListItem tree) (state : Gathering) :
    state.visit index occasion above tree =
      ⟨state.complete ++ ([tree].filter (·.is .command)).map fun node =>
        .ofCommand (.ofTree index occasion node), state.current⟩ := by
  cases h with
  | command hmembers => rw [visit_command hmembers]; rfl
  | @emptyCommand start token =>
    have hleaf : (Tree.terminal token).isLeaf := rfl
    rw [visit, visitAll, visitAll, visit_leaf hleaf]
    simp [Tree.is, Tree.rule?]
    rfl
  | skipped => simp [visit, Tree.is, Tree.rule?]

theorem visitAll_items (trees : List Tree) (h : ∀ tree ∈ trees, ListItem tree) (parent : Focus)
    (child : Nat) (state : Gathering) :
    state.visitAll index occasion parent child trees =
      ⟨state.complete ++ (trees.filter (·.is .command)).map fun node =>
        .ofCommand (.ofTree index occasion node), state.current⟩ := by
  induction trees generalizing child state with
  | nil => simp [visitAll]
  | cons tree trees ih =>
    rw [visitAll, visit_item (h tree (by simp)), ih fun other hother => h other (by simp [hother]),
      List.append_assoc, ← List.map_append, ← List.filter_append, List.singleton_append]

end Gathering

namespace Tree

-- The arguments in the list of the first call of a command.
def firstArguments (command : Tree) : List Tree :=
  ((command.childOf? .functionCall).bind (·.childOf? .arguments)).elim [] (·.childrenOf .argument)

end Tree

-- What a draft says of the command that it was filled for. Each argument of
-- the first call has one text and one value, in their order.
structure Draft.Describes (index : LineIndex) (occasion : Occasion) (draft : Draft)
    (command : Tree) : Prop where
  range : draft.range = index.range command.span
  text : draft.text = command.text
  collection : draft.collection = (command.childOf? .collection).map Tree.text
  name : draft.name = ((command.childOf? .functionCall).map Literal.callName).getD ""
  chained : draft.chained ↔ 1 < (command.childrenOf .functionCall).length
  lengths : draft.arguments.length = draft.values.length
  arguments : draft.arguments =
    command.firstArguments.map fun argument => (Argument.ofTree occasion argument).1.text
  values : draft.values =
    command.firstArguments.map fun argument => (Argument.ofTree occasion argument).1.value
  errors : draft.errors = command.firstArguments.flatMap fun argument =>
    (Argument.ofTree occasion argument).2.map (.ofValueReport index)

namespace Syntax

variable {call command : Tree}

-- The name of a call is its first child, and it is not empty.
theorem CommandPart.calledName_eq (h : CommandPart call) (hcall : call.is .functionCall) :
    call.calledName = Literal.callName call := by
  cases h with
  | leaf hleaf => simp [is_eq_false_of_isLeaf hleaf] at hcall
  | collection => simp [Tree.is, Tree.rule?] at hcall
  | call hname =>
    simp [Tree.calledName, Literal.callName, Tree.children, Tree.isTerminal, hname]

theorem CommandPart.argumentsOf_eq (h : CommandPart call) (hcall : call.is .functionCall) :
    call.argumentsOf = (call.childOf? .arguments).elim [] (·.childrenOf .argument) := by
  cases h with
  | leaf hleaf => simp [is_eq_false_of_isLeaf hleaf] at hcall
  | collection => simp [Tree.is, Tree.rule?] at hcall
  | call =>
    simp [Tree.argumentsOf, Tree.childOf?, Tree.childrenOf, Tree.children, Tree.is, Tree.rule?]

theorem CommandPart.calledName_ne_empty (h : CommandPart call) (hcall : call.is .functionCall)
    (htokens : ∀ token ∈ call.tokens, token.chars ≠ []) : call.calledName.isEmpty = false := by
  cases h with
  | leaf hleaf => simp [is_eq_false_of_isLeaf hleaf] at hcall
  | collection => simp [Tree.is, Tree.rule?] at hcall
  | @call start listStart name list =>
    have hchars : name.chars ≠ [] := htokens name (by simp [Tree.tokens, Tree.tokensOf])
    simpa [Tree.calledName, Tree.children, Tree.text, Tree.chars, Tree.tokens] using hchars

end Syntax

theorem Draft.describes_ofCommand {index : LineIndex} {occasion : Occasion} {command : Tree}
    (hmembers : Syntax.IsMembers 1 command.children)
    (htokens : ∀ token ∈ command.tokens, token.chars ≠ []) :
    Draft.Describes index occasion (.ofCommand (.ofTree index occasion command)) command := by
  have hfirst : command.childOf? .functionCall = command.calls.head? :=
    (List.head?_filter).symm
  have hcalls : ∀ call ∈ command.calls, Syntax.CommandPart call ∧ call.is .functionCall ∧
      ∀ token ∈ call.tokens, token.chars ≠ [] := by
    intro call hcall
    obtain ⟨hmem, hrule⟩ := List.mem_filter.mp hcall
    refine ⟨hmembers.parts call hmem, hrule, fun token htoken => htokens token ?_⟩
    exact Tree.mem_tokens_of_mem_childrenOf hcall htoken
  have hname : (Command.ofTree index occasion command).name =
      ((command.childOf? .functionCall).map Literal.callName).getD "" := by
    rw [hfirst, Command.ofTree]
    cases hfound : command.calls with
    | nil => rfl
    | cons call more =>
      obtain ⟨hpart, hrule, hnonempty⟩ := hcalls call (by simp [hfound])
      have hname := hpart.calledName_ne_empty hrule hnonempty
      simp [← hpart.calledName_eq hrule, hname]
  have harguments : (command.calls.take 1).flatMap Tree.argumentsOf = command.firstArguments := by
    rw [Tree.firstArguments, hfirst]
    cases hfound : command.calls with
    | nil => rfl
    | cons call more =>
      obtain ⟨hpart, hrule, -⟩ := hcalls call (by simp [hfound])
      simp [hpart.argumentsOf_eq hrule]
  refine ⟨rfl, rfl, rfl, hname, ?_, ?_, ?_, ?_, ?_⟩
  · exact decide_eq_true_iff
  · simp [ofCommand]
  · simp [ofCommand, Command.ofTree, harguments]
  · simp [ofCommand, Command.ofTree, harguments]
  · simp [ofCommand, Command.ofTree, harguments, List.flatMap_map]

namespace Pad

theorem gather_eq (text : String) (occasion : Occasion) :
    (ofText text).gather occasion = ((ofText text).extractedCommands occasion).map .ofCommand := by
  have hitems := Syntax.commandList_listItems ⟨(lex text.toList).all, false⟩
  rw [extractedCommands, nodesOf_command, gather, ofText, tree, parse_eq]
  rw [Syntax.padTree, Gathering.visit, Gathering.visitAll, Gathering.visitAll, Gathering.visitAll,
    Gathering.visit, Gathering.visit, Gathering.visitAll_items _ hitems]
  simp [Gathering.leave, Gathering.enter, Gathering.empty, Tree.is, Tree.rule?]

-- The walk gathers one draft for each command of a text, in their order.
-- Each says what the command's own children say and nothing else.
theorem gather_describes (text : String) (occasion : Occasion) :
    (ofText text).gather occasion = ((ofText text).extractedCommands occasion).map .ofCommand ∧
      List.Forall₂ (Draft.Describes (ofText text).index occasion)
        ((ofText text).gather occasion) ((ofText text).tree.nodesOf .command) := by
  refine ⟨gather_eq text occasion, ?_⟩
  rw [gather_eq, extractedCommands, List.map_map, List.forall₂_map_left_iff, List.forall₂_same]
  intro node hnode
  have hlexed := ((commandNodes text).2 node hnode).lexed
  apply Draft.describes_ofCommand
  · rw [nodesOf_command] at hnode
    obtain ⟨hnode, hrule⟩ := List.mem_filter.mp hnode
    cases Syntax.commandList_listItems _ node hnode with
    | command hmembers => exact hmembers
    | emptyCommand => simp [Tree.is, Tree.rule?] at hrule
    | skipped => simp [Tree.is, Tree.rule?] at hrule
  · exact fun token htoken => chars_ne_nil_of_mem_lex (hlexed token htoken)

end Pad

end QueryPad
