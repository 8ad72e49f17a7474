import QueryPad.Proofs.Completion.Context
import QueryPad.Proofs.Completion.Embedded
import QueryPad.Proofs.Token.Neighbours

-- Every item that is offered at a place edits one line, up to that place.
namespace QueryPad

open Text Completion

theorem Completion.isKeyChar_eq (c : Char) :
    isKeyChar c = (Scan.isWordPart c || decide (c = '.')) := rfl

-- A bracket is no part of a key.
theorem Piece.bracket_of_markKind {c : Char} {kind : TokenKind}
    (hkind : kind = .openBrace ∨ kind = .openBracket) (h : markKind c = some kind) :
    ¬ isKeyChar c ∧ ¬ Literal.isQuote c := by
  have hword : Scan.isWordPart c = false := (of_markKind h).2.1
  have hother : ∀ d, markKind d ≠ some kind → c ≠ d := by
    rintro d hd rfl
    exact hd h
  have hdot : c ≠ '.' := hother '.' (by rcases hkind with rfl | rfl <;> decide)
  have hdouble : c ≠ '"' := hother '"' (by rcases hkind with rfl | rfl <;> decide)
  have hsingle : c ≠ '\'' := hother '\'' (by rcases hkind with rfl | rfl <;> decide)
  simp [isKeyChar_eq, Literal.isQuote, hword, hdot, hdouble, hsingle]

namespace Pad

section Embedded

variable {text : List Char} {p : Position} {span : Span}

-- A token that may end behind a part of a text ends where another part does.
theorem exists_split_max {token : Token} {typed behind : List Char}
    (htoken : token ∈ (lex text).tokens) (htext : text = typed ++ behind) :
    ∃ rest after, behind = rest ++ after ∧
      max token.stop (byteSize typed) = byteSize (typed ++ rest) := by
  obtain ⟨before, after, hsplit, hstart⟩ := exists_split_of_mem_lex htoken
  have hstop : token.stop = byteSize (before ++ token.chars) := by
    rw [byteSize_append, ← hstart, Token.stop]
  by_cases hbeyond : byteSize typed ≤ token.stop
  · rw [htext, ← List.append_assoc] at hsplit
    obtain ⟨rest, hrest, hbehind⟩ := LineIndex.exists_append_of_byteSize_le hsplit (hstop ▸ hbeyond)
    exact ⟨rest, after, hbehind, by rw [Nat.max_eq_left hbeyond, hstop, hrest]⟩
  · exact ⟨[], behind, rfl, by rw [Nat.max_eq_right (by omega), List.append_nil]⟩

theorem embedded_eq {before inside after : List Char} (htext : text = before ++ (inside ++ after))
    (hstart : span.start = byteSize before) (hstop : span.stop = byteSize (before ++ inside))
    (uri : String) :
    (ofChars text).embedded uri span = .ofChars uri inside (byteSize before) := by
  have hend : min span.stop (ofChars text).index.size = byteSize (before ++ inside) := by
    change min span.stop (byteSize text) = _
    rw [hstop, htext]
    simp only [byteSize_append]
    omega
  have hslice : slice? (ofChars text).index.text (byteSize before) (byteSize (before ++ inside)) =
      some inside := by
    change slice? text _ _ = _
    rw [htext]
    exact slice?_append before inside after
  rw [embedded, hend, hstart, hslice, Option.getD_some]

-- A literal around a place is cut by it, behind its bracket.
theorem exists_cut (hspan : CompletionContext.SpansLiteral ((ofChars text).cursorAt p)
    (lex text).tokens span) (uri : String) :
    ∃ before inside rest after c, text = before ++ (inside ++ (rest ++ after)) ∧
      inside.head? = some c ∧ ¬ isKeyChar c ∧ ¬ Literal.isQuote c ∧
      (LineIndex.ofChars text).offsetAt p = byteSize (before ++ inside) ∧
      ¬ ((before ++ inside).getLast? = some '\r' ∧ (rest ++ after).head? = some '\n') ∧
      (ofChars text).embedded uri span = .ofChars uri (inside ++ rest) (byteSize before) := by
  obtain ⟨first, hfirst, last, hlast, hkind, hstart, hopened, hstop⟩ := hspan
  obtain ⟨typed, behind, htext, hoffset, hbetween⟩ := LineIndex.offsetAt_isBoundary text p
  obtain ⟨before, tail, hbefore, hfirstStart⟩ := exists_split_of_mem_lex hfirst
  obtain ⟨rest, after, rfl, hsize⟩ := exists_split_max hlast htext
  have hcursor : ((ofChars text).cursorAt p).offset = byteSize typed := hoffset
  rw [hcursor, hsize] at hstop
  -- the literal begins before the cursor
  have hcut : byteSize (before ++ first.chars) ≤ byteSize typed := by
    rw [byteSize_append, ← hfirstStart, ← hcursor]
    exact hopened
  obtain ⟨more, rfl, _⟩ := LineIndex.exists_append_of_byteSize_le
    (by rw [List.append_assoc, ← hbefore, htext]) hcut
  rw [List.append_assoc] at hoffset hbetween
  have hmark : first.kind.isMark := by rcases hkind with hkind | hkind <;> rw [hkind] <;> rfl
  obtain ⟨c, firstRest, hchars, hmarked⟩ := exists_mark_of_mem_lex hfirst hmark
  obtain ⟨hkey, hquote⟩ := Piece.bracket_of_markKind hkind hmarked
  have hparts : text = before ++ ((first.chars ++ more) ++ (rest ++ after)) := by
    rw [htext, List.append_assoc, List.append_assoc, List.append_assoc]
  refine ⟨before, first.chars ++ more, rest, after, c, hparts, by simp [hchars], hkey, hquote,
    hoffset, hbetween, ?_⟩
  apply @embedded_eq _ _ before ((first.chars ++ more) ++ rest) after
  · rw [hparts, List.append_assoc _ rest]
  · exact hstart.trans hfirstStart
  · simp only [hstop, List.append_assoc]

-- A range that takes the key before a place, and nothing else.
def TakesKey (text : List Char) (p : Position) (range : Range) : Prop :=
  ∃ front key, slice? text 0 ((LineIndex.ofChars text).offsetAt p) = some (front ++ key) ∧
    EndsWithKey front key ∧
    slice? text ((LineIndex.ofChars text).offsetAt range.start)
      ((LineIndex.ofChars text).offsetAt range.stop) = some key

-- What an edit has to be at a place of a text.
structure IsEditAt (p : Position) (range : Range) : Prop where
  line : range.start.line = p.line
  stop : range.stop = p
  start_le : range.start ≤ p

theorem isEditAt_key {front key behind : List Char}
    (hplace : (LineIndex.ofChars (front ++ (key ++ behind))).IsPlace p)
    (hkey : EndsWithKey front key)
    (hbetween : ¬ ((front ++ key).getLast? = some '\r' ∧ behind.head? = some '\n'))
    (hoffset : (LineIndex.ofChars (front ++ (key ++ behind))).offsetAt p =
      byteSize (front ++ key)) :
    IsEditAt p ((LineIndex.ofChars (front ++ (key ++ behind))).range
        ⟨byteSize front, byteSize (front ++ key)⟩) ∧
      TakesKey (front ++ (key ++ behind)) p ((LineIndex.ofChars (front ++ (key ++ behind))).range
        ⟨byteSize front, byteSize (front ++ key)⟩) := by
  have hline : ((LineIndex.ofChars (front ++ (key ++ behind))).positionAt
        (byteSize (front ++ key))).line =
      ((LineIndex.ofChars (front ++ (key ++ behind))).positionAt (byteSize front)).line :=
    LineIndex.line_positionAt_append rfl hkey.onLine
  have hstart := LineIndex.offsetAt_positionAt (isBoundary_of_key hkey hbetween)
  have hstop : (LineIndex.ofChars (front ++ (key ++ behind))).positionAt (byteSize (front ++ key)) =
      p := by rw [← hoffset, hplace]
  have hle : byteSize front ≤ byteSize (front ++ key) := by
    rw [byteSize_append]
    omega
  refine ⟨⟨?_, hstop, ?_⟩, front, key, ?_, hkey, ?_⟩
  · rw [← hstop]
    exact hline.symm
  · rw [← hstop]
    exact LineIndex.positionAt_mono _ hle
  · rw [hoffset]
    have hall := slice?_append [] (front ++ key) behind
    rwa [List.nil_append, List.nil_append, byteSize_nil, List.append_assoc] at hall
  · rw [LineIndex.range, hstart, hstop, hoffset]
    exact slice?_append front key behind

theorem edit_of_mem_embeddedItems (hplace : (LineIndex.ofChars text).IsPlace p)
    (hspan : CompletionContext.SpansLiteral ((ofChars text).cursorAt p) (lex text).tokens span)
    {schemas : SchemaStore} {uri : String} {item : CompletionItem}
    (h : item ∈ (ofChars text).embeddedItems schemas uri span p) :
    ∃ range newText, item.edit = some (.replace range newText) ∧ IsEditAt p range ∧
      TakesKey text p range := by
  obtain ⟨before, inside, rest, after, c, htext, hhead, hkeyChar, hquote, hoffset, hbetween,
    hembedded⟩ := exists_cut hspan uri
  rw [embeddedItems, hembedded] at h
  obtain ⟨front, key, newText, htyped, hkey, hedit⟩ :=
    EmbeddedDocument.edit_of_mem_itemsIn hhead hkeyChar hquote hbetween hoffset h
  have hparts : text = front ++ (key ++ (rest ++ after)) := by
    rw [htext, ← List.append_assoc, htyped, List.append_assoc]
  rw [htyped] at hoffset hbetween
  rw [hparts] at hplace hoffset
  refine ⟨_, newText, hedit, ?_⟩
  rw [hparts]
  exact isEditAt_key hplace hkey hbetween hoffset

end Embedded

end Pad

namespace Completion

theorem edit_keywordItem (range : Range) :
    (keywordItem range).edit = some (.replace range "db") := rfl

theorem edit_of_mem_collectionItems {names : List String} {range : Range} {item : CompletionItem}
    (h : item ∈ collectionItems names range) :
    ∃ newText, item.edit = some (.replace range newText) := by
  obtain ⟨name, _, rfl⟩ := List.mem_map.mp h
  exact ⟨name, rfl⟩

theorem edit_of_mem_functionItems {range : Range} {item : CompletionItem}
    (h : item ∈ functionItems range) : ∃ newText, item.edit = some (.replace range newText) := by
  obtain ⟨name, _, rfl⟩ := List.mem_map.mp h
  exact ⟨name, rfl⟩

theorem edit_of_mem_methodItems {range : Range} {item : CompletionItem}
    (h : item ∈ methodItems range) : ∃ newText, item.edit = some (.replace range newText) := by
  obtain ⟨name, _, rfl⟩ := List.mem_map.mp h
  exact ⟨name, rfl⟩

end Completion

namespace Pad

theorem isEditAt_of_reaches {text : String} {p : Position} {range : Range}
    (h : ((ofText text).cursorAt p).Reaches range) : IsEditAt p range :=
  ⟨h.line, h.stop, h.start_le⟩

theorem itemsIn_edit {text : String} {p : Position} (hplace : (ofText text).index.IsPlace p)
    {names : Except PadError (List String)} {schemas : SchemaStore} {context : CompletionContext}
    (hfits : context.Fits ((ofText text).cursorAt p) (lex text.toList).tokens)
    {items : List CompletionItem}
    (hitems : (ofText text).itemsIn names schemas p context = .ok items) :
    ∀ item ∈ items, ∃ range newText, item.edit = some (.replace range newText) ∧
      IsEditAt p range ∧ (context.isEmbedded → TakesKey text.toList p range) := by
  intro item hitem
  cases context with
  | keyword range =>
    obtain rfl := Except.ok.inj hitems
    obtain rfl := List.mem_singleton.mp hitem
    exact ⟨range, _, edit_keywordItem range, isEditAt_of_reaches hfits,
      by simp [CompletionContext.isEmbedded]⟩
  | members range =>
    cases names with
    | error error => contradiction
    | ok names =>
      obtain rfl := Except.ok.inj hitems
      have hedit : ∃ newText, item.edit = some (.replace range newText) :=
        (List.mem_append.mp hitem).elim edit_of_mem_collectionItems edit_of_mem_functionItems
      obtain ⟨newText, hedit⟩ := hedit
      exact ⟨range, newText, hedit, isEditAt_of_reaches hfits,
        by simp [CompletionContext.isEmbedded]⟩
  | methods range =>
    obtain rfl := Except.ok.inj hitems
    obtain ⟨newText, hedit⟩ := edit_of_mem_methodItems hitem
    exact ⟨range, newText, hedit, isEditAt_of_reaches hfits,
      by simp [CompletionContext.isEmbedded]⟩
  | query collection span | pipeline collection span =>
    obtain rfl := Except.ok.inj hitems
    obtain ⟨range, newText, hedit, hat, htakes⟩ :=
      edit_of_mem_embeddedItems hplace hfits hitem
    exact ⟨range, newText, hedit, hat, fun _ => htakes⟩
  | nothing =>
    obtain rfl := Except.ok.inj hitems
    contradiction

-- Whatever is offered at a place of a text edits one line from a place before
-- it up to it. In a literal it is the key being typed that is edited.
theorem completions_edit (text : String) (p : Position) (hplace : (ofText text).index.IsPlace p)
    (names : Except PadError (List String)) (schemas : SchemaStore) (items : List CompletionItem)
    (hitems : (ofText text).completions names schemas p = .ok items) :
    ∀ item ∈ items, ∃ range newText, item.edit = some (.replace range newText) ∧
      IsEditAt p range ∧
      (((ofText text).contextAt p).isEmbedded → TakesKey text.toList p range) :=
  itemsIn_edit hplace (contextAt_fits text hplace) hitems

-- A key with its quote, in a query that is still open.
theorem completions_edit_openKey :
    (ofText "db.c.find(\x7b'na").index.IsPlace ⟨0, 14⟩ ∧
      ∃ items, (ofText "db.c.find(\x7b'na").completions (.ok []) (SchemaStore.empty.register
          (Schema.querySchema "c") (.object [("properties", .object [("name", .object [])])]))
          ⟨0, 14⟩ = .ok items ∧
        ∃ item ∈ items, ∃ range newText, item.edit = some (.replace range newText) ∧
          IsEditAt ⟨0, 14⟩ range ∧ TakesKey "db.c.find(\x7b'na".toList ⟨0, 14⟩ range := by
  have hplace : (ofText "db.c.find(\x7b'na").index.IsPlace ⟨0, 14⟩ := by
    unfold LineIndex.IsPlace
    decide +kernel
  have hembedded : ((ofText "db.c.find(\x7b'na").contextAt ⟨0, 14⟩).isEmbedded = true := by
    decide +kernel
  have hlabels : ((ofText "db.c.find(\x7b'na").completions (.ok []) (SchemaStore.empty.register
      (Schema.querySchema "c") (.object [("properties", .object [("name", .object [])])]))
      ⟨0, 14⟩).toOption.map (·.map CompletionItem.label) = some ["name"] := by
    decide +kernel
  refine ⟨hplace, ?_⟩
  generalize hitems : (ofText "db.c.find(\x7b'na").completions (.ok []) (SchemaStore.empty.register
    (Schema.querySchema "c") (.object [("properties", .object [("name", .object [])])]))
    ⟨0, 14⟩ = result at hlabels
  cases result with
  | error => contradiction
  | ok items =>
    obtain ⟨item, rfl, _⟩ := List.map_eq_singleton_iff.mp (Option.some.inj hlabels)
    obtain ⟨range, newText, hedit, hat, htakes⟩ :=
      completions_edit _ _ hplace _ _ _ hitems item (by simp)
    exact ⟨_, rfl, item, by simp, range, newText, hedit, hat, htakes hembedded⟩

end Pad

end QueryPad
