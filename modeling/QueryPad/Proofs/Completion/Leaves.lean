import QueryPad.Proofs.Completion.Context

-- What a command decides if its last leaf before the cursor is a point, or a
-- name behind one.
namespace QueryPad

open Text

namespace CompletionContext

-- With nothing behind the node, the range is empty.
theorem rangeAfter_of_stop {cursor : Cursor} {focus : Focus}
    (h : focus.tree.span.stop = cursor.offset) :
    cursor.rangeAfter focus = cursor.rangeFrom cursor.offset := by
  rw [Cursor.rangeAfter, h, Nat.min_self, slice?_self]
  simp

section Leaves

variable {cursor : Cursor}

theorem ofLeaf_point {leaf before : Focus} {token : Token} (htoken : leaf.tree.token? = some token)
    (hkind : token.kind = .dot) (hbefore : leaf.previousSibling? = some before) :
    ofLeaf cursor leaf = afterDot before (cursor.rangeAfter leaf) := by
  simp only [ofLeaf, htoken, hkind, hbefore]

theorem ofCall_named {call point before name : Focus} (hpoint : call.previousSibling? = some point)
    (hkind : point.tree.isTerminal .dot) (hbefore : point.previousSibling? = some before)
    (hname : call.child? 0 = some name) (hstop : name.tree.span.stop ≤ cursor.offset) :
    ofCall cursor call = afterDot before (cursor.rangeOf name) := by
  simp only [ofCall, hpoint, hkind, hname, hbefore, Bool.not_true, Bool.false_eq_true, if_false]
  rw [if_neg (Nat.not_lt.mpr hstop)]

end Leaves

section Decides

variable {cursor : Cursor} {point name : Token} {before arguments : Tree}
  {above : List (Tree × Nat)} {start begin : Nat} {first closing : List Tree}
  {context : CompletionContext}

-- The context that the nodes decide from the last leaf of a tree upwards.
def Decides (cursor : Cursor) (above : List (Tree × Nat)) (tree : Tree)
    (context : CompletionContext) : Prop :=
  ∃ found, Focus.lastLeafIn? cursor.offset above tree = some found ∧
    upwards cursor found.tree found.above = context

theorem upwards_of_decided {tree : Tree} (h : decidedAt? cursor ⟨tree, above⟩ = some context) :
    upwards cursor tree above = context := by
  cases above with
  | nil => rw [upwards, h, Option.getD_some]
  | cons parent above => rw [upwards, h]

-- A leaf leaves it to the node above.
theorem upwards_terminal {token : Token} {parent : Tree} {index : Nat} :
    upwards cursor (.terminal token) ((parent, index) :: above) = upwards cursor parent above := rfl

-- The last leaf of a node is a name that it begins with, if nothing more stands in it.
theorem lastLeafIn?_name {rule : Rule} {behind : List Tree} (hname : name.kind = .identifier)
    (hstop : name.stop = cursor.offset) (hbehind : Tree.tokensOf behind = [])
    (above : List (Tree × Nat)) :
    Focus.lastLeafIn? cursor.offset above (.node rule begin (.terminal name :: behind)) =
      some ⟨.terminal name, (.node rule begin (.terminal name :: behind), 0) :: above⟩ := by
  have hends : Focus.endsBy name cursor.offset := by simp [Focus.endsBy, hname, hstop]
  apply @Focus.lastLeafIn?_of_child cursor.offset _ rule begin (.terminal name) []
  · simp [hbehind]
  · rw [Focus.lastLeafIn?, if_pos hends]
    rfl

-- At a point the command decides, by what stands in front of the point.
theorem decides_point (hpoint : point.kind = .dot) (hstop : point.stop = cursor.offset)
    (hclosing : ∀ token ∈ Tree.tokensOf closing, ¬ Focus.endsBy token cursor.offset) :
    Decides cursor above
      (.node .command start (first ++ before :: .terminal point :: closing))
      (afterDot (.root before) (cursor.rangeFrom cursor.offset)) := by
  generalize hcommand : Tree.node .command start
    (first ++ before :: .terminal point :: closing) = command
  have hends : Focus.endsBy point cursor.offset := by simp [Focus.endsBy, hpoint, hstop]
  have hlast : Focus.lastLeafIn? cursor.offset above command =
      some ⟨.terminal point, (command, first.length + 1) :: above⟩ := by
    have hsplit : command =
        .node .command start ((first ++ [before]) ++ .terminal point :: closing) := by
      simp [← hcommand]
    rw [hsplit]
    apply Focus.lastLeafIn?_of_child hclosing
    rw [Focus.lastLeafIn?, if_pos hends, List.length_append, List.length_singleton]
  have hbefore : command.children[first.length]? = some before := by
    simp [← hcommand, Tree.children]
  have hleaf := @ofLeaf_point cursor ⟨.terminal point, (command, first.length + 1) :: above⟩ _ point
    rfl hpoint (Focus.previousSibling?_eq_some hbefore)
  rw [@rangeAfter_of_stop cursor ⟨.terminal point, _⟩ hstop] at hleaf
  refine ⟨_, hlast, ?_⟩
  rw [upwards_terminal]
  apply upwards_of_decided
  subst hcommand
  rw [decidedAt?]
  dsimp only [Focus.lastLeafBefore?]
  rw [hlast]
  exact congrArg some hleaf

-- In the name of a call the call decides, by what stands in front of the point.
theorem decides_call (hpoint : point.kind = .dot) (hname : name.kind = .identifier)
    (hstop : name.stop = cursor.offset) (harguments : arguments.tokens = [])
    (hclosing : ∀ token ∈ Tree.tokensOf closing, ¬ Focus.endsBy token cursor.offset) :
    Decides cursor above
      (.node .command start (first ++ before :: .terminal point ::
        .node .functionCall begin [.terminal name, arguments] :: closing))
      (afterDot (.root before) (cursor.rangeFrom name.start)) := by
  generalize hcall : Tree.node .functionCall begin [.terminal name, arguments] = call
  generalize hcommand : Tree.node .command start
    (first ++ before :: .terminal point :: call :: closing) = command
  have hinside : Focus.lastLeafIn? cursor.offset ((command, first.length + 2) :: above) call =
      some ⟨.terminal name, (call, 0) :: (command, first.length + 2) :: above⟩ := by
    subst hcall
    exact lastLeafIn?_name hname hstop (by simp [Tree.tokensOf, harguments]) _
  have hlast : Focus.lastLeafIn? cursor.offset above command =
      some ⟨.terminal name, (call, 0) :: (command, first.length + 2) :: above⟩ := by
    have hsplit : command =
        .node .command start ((first ++ [before, .terminal point]) ++ call :: closing) := by
      simp [← hcommand]
    rw [hsplit] at hinside ⊢
    apply Focus.lastLeafIn?_of_child hclosing
    rwa [List.length_append]
  have hbefore : command.children[first.length]? = some before := by
    simp [← hcommand, Tree.children]
  have hdot : command.children[first.length + 1]? = some (.terminal point) := by
    simp [← hcommand, Tree.children]
  have hnamed := @ofCall_named cursor ⟨call, (command, first.length + 2) :: above⟩ _ _
    ⟨.terminal name, (call, 0) :: (command, first.length + 2) :: above⟩
    (Focus.previousSibling?_eq_some hdot) (by simp [Tree.isTerminal, hpoint])
    (Focus.previousSibling?_eq_some hbefore) (by rw [← hcall]; rfl) (Nat.le_of_eq hstop)
  refine ⟨_, hlast, ?_⟩
  rw [upwards_terminal]
  apply upwards_of_decided
  subst hcall
  exact congrArg some hnamed

-- In the name of a collection it is the collection that decides.
theorem decides_collection (hname : name.kind = .identifier) (hstop : name.stop = cursor.offset)
    (hclosing : ∀ token ∈ Tree.tokensOf closing, ¬ Focus.endsBy token cursor.offset) :
    Decides cursor above
      (.node .command start (first ++ .node .collection name.start [.terminal name] :: closing))
      (members (cursor.rangeFrom name.start)) := by
  have hinside := @lastLeafIn?_name cursor name name.start .collection [] hname hstop rfl
  refine ⟨_, Focus.lastLeafIn?_of_child hclosing (hinside _), ?_⟩
  rw [upwards_terminal]
  exact upwards_of_decided rfl

end Decides

end CompletionContext

namespace Pad

variable {text : String} {p : Position} {command : Tree} {items more : List Tree}
  {context : CompletionContext}

-- Of the commands of a text the last one decides in which a leaf ends before the cursor.
theorem contextAt_of_decides
    (htrees : (Syntax.commandList ⟨(lex text.toList).all, false⟩).trees = items ++ command :: more)
    (hmore : ∀ token ∈ Tree.tokensOf more,
      ¬ Focus.endsBy token ((ofText text).cursorAt p).offset)
    (hdecides : ∀ above,
      CompletionContext.Decides ((ofText text).cursorAt p) above command context) :
    (ofText text).contextAt p = context := by
  obtain ⟨found, hfound, hcontext⟩ := hdecides
    (((commandsFocus text).tree, items.length) :: (commandsFocus text).above)
  have hlast : (commandsFocus text).lastLeafBefore? ((ofText text).cursorAt p).offset =
      some found := by
    rw [commandsFocus, htrees] at hfound ⊢
    exact Focus.lastLeafIn?_of_child hmore hfound
  rw [contextAt_eq, hlast]
  exact hcontext

end Pad

end QueryPad
