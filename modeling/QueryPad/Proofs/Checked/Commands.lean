import QueryPad.Proofs.Checked.Embedded
import QueryPad.Proofs.Checked.Values
import QueryPad.Proofs.Command.Gathering
import QueryPad.Proofs.Command.Placement

-- The commands of a text are filled by the numbers of its nodes, and every
-- mistake is laid where there is a command or room for one.
namespace QueryPad

open Text

section Folds

variable {index : LineIndex} {occasion : Occasion}

-- A walk that fills commands passes what it has from child to child.
theorem Gathering.visitAll_eq_foldl (parent : Focus) (first : Nat) (trees : List Tree)
    (state : Gathering) :
    state.visitAll index occasion parent first trees =
      (trees.mapIdx fun number tree =>
        (⟨tree, (parent.tree, first + number) :: parent.above⟩ : Focus)).foldl
        (fun state child => state.visit index occasion child.above child.tree) state := by
  induction trees generalizing first state with
  | nil => rfl
  | cons tree trees ih =>
    rw [visitAll, ih, List.mapIdx_cons, List.foldl_cons]
    simp only [Nat.add_assoc, Nat.add_comm 1]
    rfl

theorem Gathering.visit_eq_foldl (focus : Focus) (state : Gathering) :
    state.visit index occasion focus.above focus.tree =
      (focus.children.foldl
        (fun state child => state.visit index occasion child.above child.tree)
        (state.enter index occasion focus)).leave state.current focus := by
  obtain ⟨tree, above⟩ := focus
  cases tree with
  | terminal | error => rw [visit]; rfl
  | node rule start children =>
    have hfold := @visitAll_eq_foldl index occasion ⟨.node rule start children, above⟩ 0 children
      (state.enter index occasion ⟨.node rule start children, above⟩)
    simp only [Nat.zero_add] at hfold
    rw [visit, hfold]
    rfl

end Folds

theorem Draft.command_ofCommand (command : Command) : (ofCommand command).command = command := by
  obtain ⟨range, text, collection, name, arguments, chained, errors⟩ := command
  have hzip : ∀ arguments : List Argument,
      List.zipWith Argument.mk (arguments.map (·.text)) (arguments.map (·.value)) = arguments := by
    intro arguments
    rw [List.zipWith_map, List.zipWith_self]
    exact List.map_id' arguments
  rw [ofCommand, Draft.command]
  dsimp only
  rw [hzip]

namespace Checked

theorem place_eq (finish : Position) (commands : List Command) (error : Diagnostic) :
    place finish commands error = .ok (Command.place finish commands error) := by
  rcases Command.carriesAt_or_noneCarries commands error.range.start
    (error.range.start = finish) with ⟨before, command, after, rfl, hcarries⟩ | hnone
  · rw [place, Command.place, hcarries.carrier?_eq]
    exact modify_eq (by simp) _
  · rw [place, Command.place, hnone.carrier?_eq]
    dsimp only
    generalize (fun command : Command => decide (command.range.start ≤ error.range.start)) = before
    have hlead := List.takeWhile_prefix (l := commands) before
    have hsplit := List.takeWhile_append_dropWhile (p := before) (l := commands)
    have hdrop : commands.drop (commands.takeWhile before).length = commands.dropWhile before :=
      (congrArg (List.drop _) hsplit).symm.trans List.drop_left
    rw [insert_eq hlead.length_le, ← List.prefix_iff_eq_take.mp hlead, hdrop]

end Checked

namespace Pad

variable {text : String} {focus : Focus} (h : Focus.Under (.root (ofText text).tree) focus)
  (occasion : Occasion)

theorem table_valueDiagnostic (report : ValueReport) :
    (ofText text).nodes.lines.valueDiagnostic report =
      .ok (.ofValueReport (ofText text).index report) := by
  rw [LineTable.valueDiagnostic,
    show (ofText text).nodes.lines = (LineIndex.ofChars text.toList).table from rfl,
    LineIndex.table_range]
  rfl

include h

theorem nodes_draft : (ofText text).nodes.draft focus.number =
    .ok (.ofNode (ofText text).index focus.tree) := by
  have hcalls := congrArg List.length (Focus.map_tree_childrenOf focus .functionCall)
  rw [List.length_map] at hcalls
  rw [NodeTable.draft, nodes_range h, Checked.ok_bind, nodes_text h, Checked.ok_bind,
    nodes_childrenOf h, Checked.ok_bind, List.length_map, hcalls]
  rfl

theorem nodes_calledName :
    (ofText text).nodes.calledName focus.number = .ok focus.tree.calledName := by
  rw [NodeTable.calledName, nodes_child? h, Checked.ok_bind, Tree.calledName,
    ← Focus.map_tree_children, List.head?_eq_getElem?, List.getElem?_map]
  cases hname : focus.children[0]? with
  | none => rfl
  | some name => exact nodes_text (h.mem_children (List.mem_of_getElem? hname))

theorem nodes_calledBy (draft : Draft) : (ofText text).nodes.calledBy focus.number draft =
    .ok (draft.calledBy focus.tree) := by
  rw [NodeTable.calledBy, nodes_calledName h, Draft.calledBy]
  split <;> rfl

theorem nodes_isRecorded :
    (ofText text).nodes.isRecorded focus.number = .ok focus.isRecorded := by
  have hparent {inner outer : Focus} (hinner : Focus.Under (.root (ofText text).tree) inner)
      (houter : inner.parent? = some outer) : Focus.Under (.root (ofText text).tree) outer :=
    (hinner.parent? houter).1
  rw [NodeTable.isRecorded, nodes_parentOf? h, Checked.ok_bind, Focus.isRecorded]
  cases hlist : focus.parent? with
  | none => rfl
  | some list =>
    have hlist := hparent h hlist
    rw [Option.filter_some, Option.any_some]
    cases list.tree.is .arguments with
    | false => rfl
    | true =>
      simp only [if_true, Option.map_some, Bool.true_and]
      rw [nodes_parentOf? hlist, Checked.ok_bind]
      cases hcall : list.parent? with
      | none => rfl
      | some call =>
        have hcall := hparent hlist hcall
        rw [Option.filter_some, Option.any_some]
        cases call.tree.is .functionCall with
        | false => rfl
        | true =>
          simp only [if_true, Option.map_some, Bool.true_and]
          rw [nodes_parentOf? hcall, Checked.ok_bind]
          cases hcommand : call.parent? with
          | none => rfl
          | some command =>
            have hcommand := hparent hcall hcommand
            rw [Option.filter_some, Option.any_some]
            cases command.tree.is .command with
            | false => rfl
            | true =>
              simp only [if_true, Option.map_some, Bool.true_and]
              rw [nodes_childOf? hcommand, Checked.ok_bind]
              cases command.childOf? .functionCall with
              | none => rfl
              | some first => simp

theorem nodes_record (draft : Draft) :
    (ofText text).nodes.record occasion focus.number draft =
      .ok (draft.record (ofText text).index occasion focus.tree) := by
  rw [NodeTable.record, nodes_convert h occasion _ (fits_rows h).1, Checked.ok_bind,
    Checked.mapM_eq fun report _ => table_valueDiagnostic report, Checked.ok_bind, Draft.record]
  cases Bson.ofExtendedText (.ofList (Regex.halveEscapes
    (focus.tree.convert occasion).value.render.toList)) with
  | ok value => rfl
  | error error =>
    dsimp only
    rw [nodes_span h, Checked.ok_bind, table_valueDiagnostic]
    rfl

omit h in
theorem fill_eq {change : Draft → Checked Draft} {f : Draft → Draft}
    (hchange : ∀ draft, change draft = .ok (f draft)) (state : Gathering) :
    state.fill change = .ok (state.write f) := by
  obtain ⟨complete, current⟩ := state
  cases current with
  | none => rfl
  | some draft =>
    rw [Gathering.fill]
    dsimp only
    rw [hchange]
    rfl

theorem nodes_enter (state : Gathering) :
    (ofText text).nodes.enter occasion focus.number state =
      .ok (state.enter (ofText text).index occasion focus) := by
  rw [NodeTable.enter, nodes_kind h, Checked.ok_bind, Gathering.enter]
  cases htree : focus.tree with
  | terminal | error => rfl
  | node rule start children =>
    dsimp only [Tree.nodeKind, Tree.rule?]
    rw [← htree]
    cases rule with
    | command =>
      dsimp only
      rw [nodes_draft h]
      rfl
    | collection =>
      exact fill_eq (fun draft => by rw [nodes_text h]; rfl) state
    | functionCall =>
      dsimp only
      rw [nodes_parentOf? h, Checked.ok_bind]
      cases focus.parent? with
      | none => rfl
      | some parent =>
        rw [Option.filter_some, Option.any_some]
        cases parent.tree.is .command with
        | false => rfl
        | true => exact fill_eq (nodes_calledBy h) state
    | argument =>
      dsimp only
      rw [nodes_isRecorded h, Checked.ok_bind]
      split
      · exact fill_eq (nodes_record h occasion) state
      · rfl
    | _ => rfl

-- A depth of as many nodes as there are below a place is enough for it.
theorem nodes_gather (depth : Nat) (hdepth : focus.tree.count ≤ depth) (state : Gathering) :
    (ofText text).nodes.gather occasion depth state focus.number =
      .ok (state.visit (ofText text).index occasion focus.above focus.tree) := by
  induction depth generalizing focus state with
  | zero =>
    have := focus.tree.count_pos
    omega
  | succ depth ih =>
    have hchild (child : Focus) (hchild : child ∈ focus.children) (state : Gathering)
        (_ : True) : (ofText text).nodes.gather occasion depth state child.number =
          .ok (state.visit (ofText text).index occasion child.above child.tree) ∧ True := by
      have hlt := Focus.count_lt_of_mem_children hchild
      exact ⟨ih (h.mem_children hchild) (by omega) state, trivial⟩
    have hchildren := (@Checked.foldlM_hom _ _ _ _ focus.children Focus.number id _ _ _ hchild
      (state.enter (ofText text).index occasion focus) trivial).1
    dsimp only [id] at hchildren
    rw [NodeTable.gather, nodes_enter h, Checked.ok_bind, nodes_children h, Checked.ok_bind,
      hchildren, Checked.ok_bind, nodes_isRule h, Checked.ok_bind, Gathering.visit_eq_foldl,
      Gathering.leave]
    split <;> rfl

omit h

theorem nodes_commands (text : String) :
    (ofText text).nodes.commands occasion = .ok ((ofText text).commands occasion) := by
  have hroot : Focus.Under (.root (ofText text).tree) (.root (ofText text).tree) := .refl
  have hgather := nodes_gather hroot occasion _ (fits_rows hroot).1 .empty
  have hdrafts : ((ofText text).gather occasion).map Draft.command =
      (ofText text).extractedCommands occasion := by
    rw [gather_eq, List.map_map]
    exact (List.map_congr_left fun command _ => Draft.command_ofCommand command).trans
      (List.map_id' _)
  have hplaced := (@Checked.foldlM_eq _ _ (ofText text).syntaxDiagnostics
    (Checked.place (ofText text).finish) (Command.place (ofText text).finish) (fun _ => True)
    (fun error _ commands _ => ⟨Checked.place_eq _ commands error, trivial⟩)
    ((ofText text).extractedCommands occasion) trivial).1
  have hfinish : (ofText text).nodes.lines.positionAt (ofText text).nodes.lines.size =
      .ok (ofText text).finish := LineIndex.table_positionAt _ _
  rw [NodeTable.commands, show 0 = (Focus.root (ofText text).tree).number from rfl, hgather,
    Checked.ok_bind, hfinish, Checked.ok_bind]
  rw [← hdrafts] at hplaced
  rw [commands, ← hdrafts]
  exact hplaced

end Pad

end QueryPad

-- What is done with a text by number, by difference and by cut never leaves
-- its range, and it leads to what the pad says of the text.
namespace QueryPad

open Text

namespace Pad

variable (text : String)

-- Whatever number a node has, what it covers can be cut out of the text.
theorem nodes_contents (id : Fin (ofText text).nodes.rows.length) :
    ∃ focus : Focus, Focus.Under (.root (ofText text).tree) focus ∧ focus.number = id ∧
      (ofText text).nodes.span id = .ok focus.tree.span ∧
      (ofText text).nodes.range id = .ok ((ofText text).rangeOf focus.tree) ∧
      (ofText text).nodes.text id = .ok focus.tree.text ∧
      ∃ source, (ofText text).nodes.source id = .ok source ∧
        (ofText text).source? focus.tree.span = some source := by
  obtain ⟨focus, hfocus, hid⟩ := exists_place text id
  rw [← hid]
  exact ⟨focus, hfocus, rfl, nodes_span hfocus, nodes_range hfocus, nodes_text hfocus,
    nodes_source hfocus⟩

-- Reading the text, looking up its places and its nodes, taking its commands
-- out with their values and their mistakes, and completing at any line and
-- column: no step of it breaks a bound.
theorem nodes_break_nothing :
    NodeTable.ofChars text.toList = .ok (ofText text).nodes ∧
      (∀ place, ∃ token, Checked.current (ofText text).nodes.tokens place = .ok token) ∧
      (∀ offset, (ofText text).nodes.lines.positionAt offset =
        .ok ((ofText text).index.positionAt offset)) ∧
      (∀ p, (ofText text).nodes.lines.offsetAt p = .ok ((ofText text).index.offsetAt p)) ∧
      (∀ id : Fin (ofText text).nodes.rows.length, ∃ focus : Focus,
        Focus.Under (.root (ofText text).tree) focus ∧ focus.number = id ∧
          (ofText text).nodes.span id = .ok focus.tree.span ∧
          (ofText text).nodes.range id = .ok ((ofText text).rangeOf focus.tree) ∧
          (ofText text).nodes.text id = .ok focus.tree.text ∧
          ∃ source, (ofText text).nodes.source id = .ok source ∧
            (ofText text).source? focus.tree.span = some source) ∧
      (∀ occasion, (ofText text).nodes.commands occasion =
        .ok ((ofText text).commands occasion)) ∧
      ∀ p, (ofText text).nodes.contextAt p = .ok ((ofText text).contextAt p) ∧
        ∀ names schemas, (ofText text).nodes.completions names schemas p =
          .ok ((ofText text).completions names schemas p) := by
  have hcurrent (place : Nat) :
      ∃ token, Checked.current (ofText text).nodes.tokens place = .ok token := by
    rw [nodes_tokens]
    exact ⟨_, Checked.current_eq (by simp [allTokens_eq]) place⟩
  exact ⟨ofChars_nodes text.toList, hcurrent, LineIndex.table_positionAt _,
    LineIndex.table_offsetAt _, nodes_contents text, fun occasion => nodes_commands occasion text,
    fun p => ⟨nodes_contextAt text p,
      fun names schemas => nodes_completions text names schemas p⟩⟩

end Pad

end QueryPad
