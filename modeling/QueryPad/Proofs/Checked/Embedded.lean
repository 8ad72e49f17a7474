import QueryPad.Proofs.Checked.Context
import QueryPad.Proofs.Checked.Literal
import QueryPad.Proofs.Completion.Documents
import QueryPad.Proofs.Completion.Embedded

-- A literal is cut out of its text and completed as a text of its own: the key
-- before the cursor, its quote and the brackets around it are all there.
namespace QueryPad

open Text

namespace Checked

open Completion

variable {text before : List Char} {offset : Nat}

section Frames

theorem nextFrame_eq (token : Token) (frame : Frame) :
    nextFrame token frame = .ok (frame.next token) := by
  cases frame with
  | array => rfl
  | object key expectsKey =>
    rw [nextFrame, Frame.next]
    cases token.kind with
    | colon | comma => rfl
    | _ =>
      dsimp only
      rw [unquote_eq, ok_bind, apply_ite Except.ok]
      rfl

theorem readFrame_eq (open_ : List Frame) (token : Token) :
    readFrame open_ token = .ok (Frame.read open_ token) := by
  rw [readFrame.eq_def, Frame.read.eq_def]
  cases token.kind with
  | openBrace | openBracket | closeBrace | closeBracket => rfl
  | _ =>
    cases open_ with
    | nil => rfl
    | cons frame outer =>
      dsimp only
      rw [nextFrame_eq]
      rfl

theorem steps_eq (frame : Frame) (outer : List Frame) :
    steps (frame :: outer) = .ok (outer.reverse.map Frame.step) := by
  have hcount : (frame :: outer).length - 1 = outer.reverse.length := by simp
  rw [steps, minus_eq (by simp), ok_bind, hcount, front_eq (by simp), ok_bind, List.reverse_cons,
    List.take_left]
  rfl

end Frames

-- What the text before a key says of its place.
def keyPlaceAfter (front : List Char) (quoted : Bool) : Option KeyPlace :=
  match (QueryPad.lex front).tokens.foldl Frame.read [] with
  | .object _ true :: outer => some ⟨outer.reverse.map Frame.step, byteSize front, quoted⟩
  | _ => none

-- The key at the end of a text starts inside the text, with or without a quote.
theorem exists_keyStart (before : List Char) : ∃ front behind quoted,
    keyStart before = .ok (byteSize front, quoted) ∧ before = front ++ behind ∧
      Completion.keyPlace? before = keyPlaceAfter front quoted := by
  obtain ⟨rest, word, hsplit, hbefore, -, -⟩ := splitKey_spec before
  have hword : (before.reverse.takeWhile isKeyChar).reverse = word := congrArg Prod.snd hsplit
  have hsize : byteSize before - byteSize word = byteSize rest := by
    rw [hbefore, byteSize_append, Nat.add_sub_cancel]
  have hcut : slice? before 0 (byteSize rest) = some rest := hbefore ▸ slice?_append [] rest word
  rw [keyStart, hword, minus_eq (by rw [hbefore, byteSize_append]; omega), hsize, ok_bind,
    cut_eq hcut, ok_bind, Completion.keyPlace?, hsplit]
  dsimp only
  by_cases hquoted : rest.getLast?.any Literal.isQuote
  · obtain ⟨quote, hquote, hisQuote⟩ := (Option.any_eq_true _ _).mp hquoted
    obtain ⟨front, rfl⟩ := List.getLast?_eq_some_iff.mp hquote
    have hrest : byteSize (front ++ [quote]) = byteSize front + 1 := by
      rw [byteSize_append, byteSize_cons, byteSize_nil, utf8Size_of_isQuote hisQuote]
    refine ⟨front, quote :: word, true, ?_, by rw [hbefore, List.append_assoc]; rfl, ?_⟩
    · rw [if_pos hquoted, hrest, minus_eq (Nat.le_add_left _ _), Nat.add_sub_cancel]
      rfl
    · rw [if_pos hquoted, List.dropLast_concat, hquoted]
      rfl
  · refine ⟨rest, word, false, by rw [if_neg hquoted]; rfl, hbefore, ?_⟩
    rw [if_neg hquoted, eq_false_of_ne_true hquoted]
    rfl

theorem keyPlace?_eq (h : slice? text 0 offset = some before) :
    keyPlace? text offset = .ok (Completion.keyPlace? before) := by
  obtain ⟨none_, after, htext, hnone, hoffset⟩ := slice?_eq_some_iff.mp h
  obtain rfl := eq_nil_of_byteSize hnone.symm
  obtain ⟨front, behind, quoted, hstart, hbefore, hplace⟩ := exists_keyStart before
  have hmin : min offset (byteSize text) = offset := by
    apply Nat.min_eq_left
    rw [htext, hoffset, List.nil_append, List.nil_append, byteSize_append]
    omega
  have hfront : slice? text 0 (byteSize front) = some front := by
    have hslice := slice?_append [] front (behind ++ after)
    rw [htext, hbefore, List.nil_append, List.append_assoc]
    exact hslice
  have hread := @foldlM_eq _ _ (QueryPad.lex front).tokens readFrame Frame.read (fun _ => True)
    (fun token _ open_ _ => ⟨readFrame_eq open_ token, trivial⟩) [] trivial
  rw [keyPlace?, hmin, cut_eq h, ok_bind, hstart, ok_bind]
  dsimp only
  rw [cut_eq hfront, ok_bind, lex_eq, ok_bind, hread.1, ok_bind, hplace, keyPlaceAfter]
  match (QueryPad.lex front).tokens.foldl Frame.read [] with
  | [] | .array :: _ | .object _ false :: _ => rfl
  | .object key true :: outer =>
    dsimp only
    rw [steps_eq]
    rfl

end Checked

namespace Pad

variable {text : String} {span : Span} {p : Position}

section Items

variable (inside : List Char) (uri : String) (start : Nat)

theorem table_completions (schemas : SchemaStore) (p : Position) :
    (LineIndex.ofChars inside).table.completions schemas uri p =
      .ok ((EmbeddedDocument.ofChars uri inside start).completions schemas p) := by
  obtain ⟨before, hbefore⟩ :=
    (IsCut.zero inside).exists_slice? (offsetAt_isCut inside p) (Nat.zero_le _)
  rw [LineTable.completions, EmbeddedDocument.completions]
  simp only [Option.bind_eq_bind]
  rw [← Option.bind_assoc, show (EmbeddedDocument.ofChars uri inside start).uri = uri from rfl]
  cases (Schema.schemaFor? uri).bind schemas.resolve? with
  | none => rfl
  | some root =>
    have hslice : slice? (EmbeddedDocument.ofChars uri inside start).index.text 0
        ((EmbeddedDocument.ofChars uri inside start).index.offsetAt p) = some before := hbefore
    dsimp only
    rw [LineIndex.table_offsetAt, Checked.ok_bind,
      show (LineIndex.ofChars inside).table.text = inside from rfl, Checked.keyPlace?_eq hbefore,
      Checked.ok_bind, Option.bind_some, hslice, Option.bind_some]
    cases Completion.keyPlace? before with
    | none => rfl
    | some place =>
      dsimp only
      rw [Option.bind_some]
      cases Schema.along? root place.path with
      | none => rfl
      | some schema =>
        dsimp only
        rw [LineIndex.table_range]
        rfl

theorem nodes_rangeIn (range : Range) :
    (ofText text).nodes.rangeIn (LineIndex.ofChars inside).table start range =
      .ok ((EmbeddedDocument.ofChars uri inside start).rangeIn (ofText text).index range) := by
  rw [NodeTable.rangeIn, LineIndex.table_offsetAt, Checked.ok_bind, LineIndex.table_offsetAt,
    Checked.ok_bind]
  exact LineIndex.table_range _ _

theorem nodes_itemIn (item : CompletionItem) :
    (ofText text).nodes.itemIn (LineIndex.ofChars inside).table start item =
      .ok (item.mapRanges
        ((EmbeddedDocument.ofChars uri inside start).rangeIn (ofText text).index)) := by
  obtain ⟨label, kind, detail, documentation, sortText, filterText, edit⟩ := item
  match edit with
  | none => rfl
  | some (.replace range newText) =>
    rw [NodeTable.itemIn]
    dsimp only [NodeTable.editIn]
    rw [nodes_rangeIn inside uri]
    rfl
  | some (.insertOrReplace insert range newText) =>
    rw [NodeTable.itemIn]
    dsimp only [NodeTable.editIn]
    rw [nodes_rangeIn inside uri, Checked.ok_bind, nodes_rangeIn inside uri]
    rfl

end Items

theorem nodes_embeddedItems (hstart : IsCut text.toList span.start)
    (hstop : IsCut text.toList span.stop) (hle : span.start ≤ span.stop)
    (schemas : SchemaStore) (uri : String) (p : Position) :
    (ofText text).nodes.embeddedItems schemas uri span p =
      .ok ((ofText text).embeddedItems schemas uri span p) := by
  obtain ⟨inside, hinside⟩ := hstart.exists_slice? hstop hle
  have hend : min span.stop (byteSize text.toList) = span.stop := Nat.min_eq_left hstop.le_size
  have hdocument : (ofText text).embedded uri span = .ofChars uri inside span.start := by
    rw [embedded, show (ofText text).index.size = byteSize text.toList from rfl, hend,
      show (ofText text).index.text = text.toList from rfl, hinside]
    rfl
  have hoffset : (ofText text).nodes.lines.offsetAt p = .ok ((ofText text).index.offsetAt p) :=
    LineIndex.table_offsetAt _ _
  rw [NodeTable.embeddedItems, show (ofText text).nodes.lines.size = byteSize text.toList from rfl,
    hend, show (ofText text).nodes.lines.text = text.toList from rfl, Checked.cut_eq hinside,
    Checked.ok_bind, LineIndex.ofChars_table, Checked.ok_bind, hoffset, Checked.ok_bind, LineIndex.table_positionAt, Checked.ok_bind,
    table_completions inside uri span.start, Checked.ok_bind, embeddedItems, hdocument]
  exact Checked.mapM_eq fun item _ => nodes_itemIn inside uri span.start item

-- A literal that is completed as a document reaches from the start of a node
-- to its end or to the cursor.
theorem embedded_isCut {context : CompletionContext} {collection : String}
    (hcontext : context = .query collection span ∨ context = .pipeline collection span)
    (h : (ofText text).contextAt p = context) :
    IsCut text.toList span.start ∧ IsCut text.toList span.stop ∧ span.start ≤ span.stop := by
  have hembedded : context.isEmbedded := by rcases hcontext with rfl | rfl <;> rfl
  cases hleaf : (Focus.root (ofText text).tree).lastLeafBefore?
      ((ofText text).cursorAt p).offset with
  | none =>
    rw [lastLeafBefore?_root] at hleaf
    rw [contextAt_eq, hleaf] at h
    obtain rfl := h
    contradiction
  | some leaf =>
    have hne : context ≠ .nothing := by
      rintro rfl
      contradiction
    obtain ⟨before, node, after, hsplit, hdecided, -⟩ := exists_decided_of_contextAt hleaf h hne
    have hmem : node ∈ leaf :: leaf.ancestors := by simp [hsplit]
    have hself : span = CompletionContext.openSpan ((ofText text).cursorAt p) node := by
      rcases hcontext with rfl | rfl
      · exact ((CompletionContext.queries.decided _ _ _ _).mp hdecided).2.2
      · exact ((CompletionContext.pipelines.decided _ _ _ _).mp hdecided).2.2
    have hunder := (Focus.lastLeafIn?_under hleaf).1.of_mem_lineage hmem
    obtain ⟨hstart, hstop, hle⟩ := span_isCut hunder
    rw [hself]
    exact ⟨hstart, hstop.max (offsetAt_isCut text.toList p),
      Nat.le_trans hle (Nat.le_max_left _ _)⟩

theorem nodes_completions (text : String) (names : Except PadError (List String))
    (schemas : SchemaStore) (p : Position) :
    (ofText text).nodes.completions names schemas p =
      .ok ((ofText text).completions names schemas p) := by
  rw [NodeTable.completions, nodes_contextAt, Checked.ok_bind, completions]
  cases hcontext : (ofText text).contextAt p with
  | query collection span =>
    obtain ⟨hstart, hstop, hle⟩ := embedded_isCut (.inl rfl) hcontext
    dsimp only
    rw [nodes_embeddedItems hstart hstop hle]
    rfl
  | pipeline collection span =>
    obtain ⟨hstart, hstop, hle⟩ := embedded_isCut (.inr rfl) hcontext
    dsimp only
    rw [nodes_embeddedItems hstart hstop hle]
    rfl
  | _ => rfl

end Pad

end QueryPad
