import QueryPad.Checked.Nodes
import QueryPad.Proofs.Checked.Lines
import QueryPad.Proofs.Syntax.Builder
import QueryPad.Proofs.Token.Lexer

-- Reading a text into its table of nodes breaks nothing.
namespace QueryPad

open Text

namespace Checked

section Tokens

variable {text : List Char} {piece : Piece}

theorem charsOf_eq (h : piece ∈ piecesFrom 0 text) : charsOf text piece = .ok piece.chars := by
  obtain ⟨before, after, htext, hstart⟩ := exists_split_of_mem_piecesFrom h
  apply cut_eq
  rw [slice?_eq_some_iff]
  refine ⟨before, after, htext, by omega, ?_⟩
  rw [byteSize_append]
  omega

theorem token?_eq (h : piece ∈ piecesFrom 0 text) : token? text piece = .ok piece.token? := by
  rw [token?, Piece.token?]
  cases piece.kind with
  | token kind =>
    dsimp only
    rw [charsOf_eq h, ok_bind]
    rfl
  | _ => rfl

theorem report?_eq (h : piece ∈ piecesFrom 0 text) : report? text piece = .ok piece.report? := by
  rw [report?]
  split
  · next hkind =>
    rw [charsOf_eq h, ok_bind, Piece.report?, Piece.faultyChars?, hkind]
    rfl
  · rfl

theorem lex_eq (text : List Char) : lex text = .ok (QueryPad.lex text) := by
  rw [lex, mapM_eq fun _ h => token?_eq h, ok_bind, mapM_eq fun _ h => report?_eq h, ok_bind,
    List.filterMap_map, List.filterMap_map]
  rfl

end Tokens

-- Wherever the grammar stands, there is a token: past the last one, the last.
theorem current_eq {tokens : List Token} (h : tokens ≠ []) (place : Nat) :
    current tokens place = .ok ((tokens.drop place).headD (tokens.getLast h)) := by
  have hlength := List.length_pos_iff.mpr h
  rw [current, minus_eq hlength, ok_bind]
  apply item_eq
  by_cases hplace : place < tokens.length
  · rw [Nat.min_eq_left (by omega), List.drop_eq_getElem_cons hplace, List.headD_cons,
      List.getElem?_eq_getElem hplace]
  · rw [Nat.min_eq_right (by omega), List.drop_eq_nil_of_le (by omega), List.headD_nil,
      List.getElem?_eq_getElem (by omega), List.getLast_eq_getElem]

theorem itemBefore?_eq {numbers : List Nat} {number index : Nat}
    (hincreasing : numbers.Pairwise (· < ·)) (h : numbers[index]? = some number) :
    itemBefore? numbers number =
      .ok (if index = 0 then none else numbers[index - 1]?) := by
  obtain ⟨hlt, hget⟩ := List.getElem?_eq_some_iff.mp h
  have hindex : numbers.findIdx? (· = number) = some index := by
    refine List.findIdx?_eq_some_iff_getElem.mpr ⟨hlt, by simp [hget], fun other hother => ?_⟩
    have hless := List.pairwise_iff_getElem.mp hincreasing other index (by omega) hlt hother
    rw [hget] at hless
    simpa using Nat.ne_of_lt hless
  rw [itemBefore?, hindex]
  cases index with
  | zero => rfl
  | succ index =>
    have hbefore := List.getElem?_eq_getElem (l := numbers) (i := index) (by omega)
    dsimp only
    rw [item_eq hbefore, if_neg (Nat.succ_ne_zero _), Nat.add_sub_cancel, hbefore]
    rfl

section Building

variable {b : Builder}

-- The nodes still open are in the table.
def IsSound (b : Builder) : Prop := ∀ id ∈ b.stack, id < b.rows.length

theorem push_eq (h : IsSound b) (kind : NodeKind) (first : Nat) (last : Option Nat) :
    push b kind first last = .ok (b.push kind first last) := by
  rw [push, Builder.push]
  cases hhead : b.stack.head? with
  | none => rfl
  | some parent =>
    have hlt := h parent (List.mem_of_head? hhead)
    dsimp only
    rw [modify_eq (by rw [List.length_append]; omega), ok_bind]
    rfl

theorem leave_eq (h : IsSound b) : leave b = .ok b.leave := by
  rw [leave, Builder.leave]
  cases hstack : b.stack with
  | nil => rfl
  | cons id stack =>
    have hlt : id < b.rows.length := h id (by simp [hstack])
    have hrow := List.getElem?_eq_getElem hlt
    dsimp only
    rw [item_eq hrow, ok_bind, modify_eq hlt, ok_bind, List.modify_eq_set_getElem?,
      List.modify_eq_set_getElem?, hrow]
    rfl

theorem isSound_push (h : IsSound b) (kind : NodeKind) (first : Nat) (last : Option Nat) :
    IsSound (b.push kind first last) ∧ (b.push kind first last).stack = b.stack ∧
      b.rows.length < (b.push kind first last).rows.length := by
  have hrows : (b.push kind first last).rows.length = b.rows.length + 1 := by
    simp [Builder.push, Builder.length_adopt]
  refine ⟨fun id hid => ?_, rfl, by omega⟩
  have := h id hid
  omega

theorem isSound_leave (h : IsSound b) : IsSound b.leave := by
  rw [Builder.leave]
  split
  · exact h
  · next id stack hstack =>
    intro other hother
    have hlt := h other (by simp [hstack, hother])
    simpa using hlt

theorem build_eq (h : IsSound b) (event : Event) :
    build b event = .ok (b.step event) ∧ IsSound (b.step event) := by
  cases event with
  | opened rule first =>
    obtain ⟨hsound, hstack, hrows⟩ := isSound_push h (.rule rule) first none
    refine ⟨?_, List.forall_mem_cons.mpr ⟨hrows, hsound⟩⟩
    rw [build, push_eq h, ok_bind]
    rfl
  | closed => exact ⟨leave_eq h, isSound_leave h⟩
  | taken kind token =>
    refine ⟨?_, (isSound_push h kind token (some token)).1⟩
    rw [build, push_eq h, ok_bind]
    rfl

theorem finish_eq (h : IsSound b) : finish b = .ok b.finish := by
  obtain ⟨hclosed, hsound⟩ :=
    @foldlM_eq _ _ b.stack _ _ IsSound (fun _ _ _ h => ⟨leave_eq h, isSound_leave h⟩) _ h
  rw [finish, hclosed, ok_bind, Builder.finish]
  split
  · rw [push_eq hsound, ok_bind]
    rfl
  · rfl

end Building

end Checked

namespace Pad

-- What reading a text leaves behind, as tables.
def nodes (pad : Pad) : NodeTable :=
  ⟨pad.lexed.all, pad.tree.table, pad.index.table, pad.syntaxDiagnostics⟩

theorem table_diagnostic (text : List Char) (report : SyntaxReport) :
    (LineIndex.ofChars text).table.diagnostic report = .ok (.ofReport (.ofChars text) report) := by
  rw [LineTable.diagnostic, LineIndex.table_emptyRange, Checked.ok_bind]
  rfl

theorem ofChars_nodes (text : List Char) : NodeTable.ofChars text = .ok (ofChars text).nodes := by
  have hempty : Checked.IsSound .empty := fun id hid => by simp [Builder.empty] at hid
  obtain ⟨hbuilt, hsound⟩ :=
    @Checked.foldlM_eq _ _ ((ofChars text).tree.eventsFrom 0) _ _ Checked.IsSound
      (fun event _ _ h => Checked.build_eq h event) _ hempty
  rw [NodeTable.ofChars, LineIndex.ofChars_table, Checked.ok_bind, Checked.lex_eq, Checked.ok_bind]
  dsimp only
  rw [show (parseTokens (QueryPad.lex text).all).tree = (ofChars text).tree from rfl, hbuilt,
    Checked.ok_bind, Checked.finish_eq hsound, Checked.ok_bind,
    Checked.mapM_eq fun report _ => table_diagnostic text report, Checked.ok_bind, List.map_append]
  rfl

end Pad

end QueryPad
