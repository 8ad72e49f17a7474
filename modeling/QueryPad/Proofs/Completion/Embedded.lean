import Mathlib.Data.List.Basic
import Mathlib.Data.List.TakeWhile
import QueryPad.Completion
import QueryPad.Completion.Key
import QueryPad.Proofs.Text.Galois
import QueryPad.Proofs.Text.Lines

-- The key being typed before a cursor, and where it begins.
namespace QueryPad.Completion

open Text

-- A text in two parts of which the second is a key being typed: all the key
-- characters that the text ends with, and the quote right before them.
structure EndsWithKey (rest key : List Char) : Prop where
  split : ∃ quote word, key = quote ++ word ∧ (∀ c ∈ word, isKeyChar c) ∧
    (∀ c ∈ (rest ++ quote).getLast?, ¬ isKeyChar c) ∧
    ((∃ c, quote = [c] ∧ Literal.isQuote c) ∨
      quote = [] ∧ ∀ c ∈ rest.getLast?, ¬ Literal.isQuote c)

-- Characters of a key do not end a line.
theorem EndsWithKey.onLine {rest key : List Char} (h : EndsWithKey rest key) :
    ∀ c ∈ key, c ≠ '\n' ∧ c ≠ '\r' := by
  obtain ⟨quote, word, rfl, hword, _, hquote⟩ := h.split
  have hbreaks : (isKeyChar '\n' = false ∧ isKeyChar '\r' = false) ∧
      Literal.isQuote '\n' = false ∧ Literal.isQuote '\r' = false := by decide +kernel
  intro c hc
  rcases List.mem_append.mp hc with hc | hc
  · rcases hquote with ⟨d, rfl, hd⟩ | ⟨rfl, _⟩
    · obtain rfl := List.mem_singleton.mp hc
      constructor <;> rintro rfl <;> simp [hbreaks.2] at hd
    · simp at hc
  · have hkey := hword c hc
    constructor <;> rintro rfl <;> simp [hbreaks.1] at hkey

-- What stands before a text changes nothing in what the text ends with.
theorem EndsWithKey.append {rest key : List Char} (h : EndsWithKey rest key) (hne : rest ≠ [])
    (before : List Char) : EndsWithKey (before ++ rest) key := by
  obtain ⟨quote, word, hkey, hword, hlast, hquote⟩ := h.split
  have hkept : ∀ more, (before ++ (rest ++ more)).getLast? = (rest ++ more).getLast? := by
    intro more
    have hsome := List.getLast?_eq_some_getLast (List.append_ne_nil_of_left_ne_nil hne more)
    rw [List.getLast?_append, hsome, Option.some_or]
  refine ⟨quote, word, hkey, hword, ?_, ?_⟩
  · rwa [List.append_assoc, hkept]
  · have hrest := hkept []
    rw [List.append_nil] at hrest
    rwa [hrest]

-- A text that begins with neither a quote nor a key character is no key.
theorem EndsWithKey.rest_ne_nil {rest key : List Char} {c : Char} (h : EndsWithKey rest key)
    (hhead : (rest ++ key).head? = some c) (hkey : ¬ isKeyChar c) (hquote : ¬ Literal.isQuote c) :
    rest ≠ [] := by
  rintro rfl
  obtain ⟨quote, word, rfl, hword, _, ⟨d, rfl, hd⟩ | ⟨rfl, _⟩⟩ := h.split
  · obtain rfl : d = c := by simpa using hhead
    exact hquote hd
  · exact hkey (hword c (List.mem_of_head? hhead))

-- The key characters that a text ends with, taken from the end.
theorem splitKey_spec (before : List Char) :
    ∃ rest word, splitKey before = (rest, word) ∧ before = rest ++ word ∧
      (∀ c ∈ word, isKeyChar c) ∧ ∀ c ∈ rest.getLast?, ¬ isKeyChar c := by
  generalize hword : (before.reverse.takeWhile isKeyChar).reverse = word
  generalize hrest : (before.reverse.dropWhile isKeyChar).reverse = rest
  have hbefore : before = rest ++ word := by
    rw [← hword, ← hrest, ← List.reverse_append, List.takeWhile_append_dropWhile,
      List.reverse_reverse]
  have htaken : before.take (before.length - word.length) = rest := by
    rw [hbefore, List.length_append, Nat.add_sub_cancel, List.take_left]
  refine ⟨rest, word, ?_, hbefore, ?_, ?_⟩
  · rw [splitKey, hword, htaken]
  · intro c hc
    rw [← hword, List.mem_reverse] at hc
    exact List.mem_takeWhile_imp hc
  · intro c hc
    rw [← hrest, List.getLast?_reverse] at hc
    simpa using not_of_mem_head?_dropWhile hc

theorem keyPlace?_start {before : List Char} {place : KeyPlace}
    (h : keyPlace? before = some place) :
    ∃ rest key, before = rest ++ key ∧ place.start = byteSize rest ∧ EndsWithKey rest key := by
  obtain ⟨rest, word, hsplit, hbefore, hword, hlast⟩ := splitKey_spec before
  rw [keyPlace?, hsplit] at h
  dsimp only at h
  by_cases hquoted : rest.getLast?.any Literal.isQuote
  · obtain ⟨quote, hquote, hisQuote⟩ :
        ∃ quote, rest.getLast? = some quote ∧ Literal.isQuote quote := by
      simpa [Option.any_eq_true] using hquoted
    obtain ⟨before', rfl⟩ := List.getLast?_eq_some_iff.mp hquote
    rw [if_pos hquoted] at h
    split at h
    · obtain rfl := Option.some.inj h
      refine ⟨before', quote :: word, by simp [hbefore], by simp, ?_⟩
      exact ⟨[quote], word, rfl, hword, hlast, .inl ⟨quote, rfl, hisQuote⟩⟩
    · contradiction
  · rw [if_neg hquoted] at h
    split at h
    · obtain rfl := Option.some.inj h
      refine ⟨rest, word, hbefore, rfl, ?_⟩
      refine ⟨[], word, rfl, hword, by simpa using hlast, .inr ⟨rfl, ?_⟩⟩
      intro c hc hisQuote
      exact hquoted (by simp [Option.mem_def.mp hc, hisQuote])
    · contradiction

end QueryPad.Completion

-- A part of a text has lines and columns of its own. A place inside the part
-- is named in the coordinates of the part or in those of the text, and either
-- name leads to the other. So what is completed in a literal replaces the key
-- before the cursor, in the coordinates of the whole text.
namespace QueryPad

open Text Completion

namespace Text

variable {front key behind : List Char}

-- No line end is parted in front of a key.
theorem isBoundary_of_key (hkey : EndsWithKey front key)
    (hbetween : ¬ ((front ++ key).getLast? = some '\r' ∧ behind.head? = some '\n')) :
    IsBoundary (front ++ (key ++ behind)) (byteSize front) := by
  refine ⟨front, key ++ behind, rfl, rfl, fun hparted => ?_⟩
  cases key with
  | nil => exact hbetween (by simpa using hparted)
  | cons c key =>
    have hc : c = '\n' := by simpa using hparted.2
    exact (hkey.onLine c (by simp)).1 hc

end Text

namespace EmbeddedDocument

variable {document : EmbeddedDocument} {schemas : SchemaStore} {item : CompletionItem}

theorem exists_of_mem_getD {items : Option (List CompletionItem)} (h : item ∈ items.getD []) :
    ∃ found, items = some found ∧ item ∈ found := by
  cases items with
  | none => simp at h
  | some found => exact ⟨found, rfl, h⟩

theorem edit_of_mem_completions {p : Position} (h : item ∈ document.completions schemas p) :
    ∃ before place newText, slice? document.index.text 0 (document.index.offsetAt p) = some before ∧
      keyPlace? before = some place ∧
      item.edit = some (.replace
        (document.index.range ⟨place.start, document.index.offsetAt p⟩) newText) := by
  rw [completions] at h
  obtain ⟨items, hitems, hmem⟩ := exists_of_mem_getD h
  simp only [Option.bind_eq_bind, Option.bind_eq_some_iff] at hitems
  obtain ⟨uri, _, root, _, before, hbefore, place, hplace, schema, _, hself⟩ := hitems
  obtain rfl := Option.some.inj hself
  obtain ⟨property, _, rfl⟩ := List.mem_map.mp hmem
  exact ⟨before, place, _, hbefore, hplace, rfl⟩

section Mapping

variable {uri : String} {chars : List Char} {start first last : Nat} {parent : LineIndex}

theorem positionFrom_eq {p : Position} (h : parent.offsetAt p = start + first) :
    (ofChars uri chars start).positionFrom parent p =
      (LineIndex.ofChars chars).positionAt first := by
  have hinside : parent.offsetAt p - start = first := by omega
  exact congrArg (LineIndex.ofChars chars).positionAt hinside

-- A range between characters keeps its place when it is moved to the text around.
theorem rangeIn_range (hfirst : IsBoundary chars first) (hlast : IsBoundary chars last) :
    (ofChars uri chars start).rangeIn parent ((LineIndex.ofChars chars).range ⟨first, last⟩) =
      parent.range ⟨first + start, last + start⟩ := by
  have hstart := LineIndex.offsetAt_positionAt hfirst
  have hstop := LineIndex.offsetAt_positionAt hlast
  rw [rangeIn]
  change parent.range ⟨(LineIndex.ofChars chars).offsetAt
      ((LineIndex.ofChars chars).positionAt first) + start,
    (LineIndex.ofChars chars).offsetAt ((LineIndex.ofChars chars).positionAt last) + start⟩ = _
  rw [hstart, hstop]

end Mapping

-- In a document that goes on behind the cursor, each item replaces the key
-- that stands before the cursor.
theorem edit_of_typed {uri : String} {start : Nat} {typed rest : List Char}
    (hcut : ¬ (typed.getLast? = some '\r' ∧ rest.head? = some '\n'))
    (h : item ∈ (ofChars uri (typed ++ rest) start).completions schemas
      ((LineIndex.ofChars (typed ++ rest)).positionAt (byteSize typed))) :
    ∃ front key newText, typed = front ++ key ∧ EndsWithKey front key ∧
      item.edit = some (.replace
        ((LineIndex.ofChars (typed ++ rest)).range ⟨byteSize front, byteSize typed⟩) newText) := by
  have hboundary : IsBoundary (typed ++ rest) (byteSize typed) := ⟨typed, rest, rfl, rfl, hcut⟩
  have hreturn := LineIndex.offsetAt_positionAt hboundary
  obtain ⟨before, place, newText, hbefore, hplace, hedit⟩ := edit_of_mem_completions h
  change slice? (typed ++ rest) 0 ((LineIndex.ofChars (typed ++ rest)).offsetAt _) = _ at hbefore
  change item.edit = some (.replace ((LineIndex.ofChars (typed ++ rest)).range
    ⟨place.start, (LineIndex.ofChars (typed ++ rest)).offsetAt _⟩) newText) at hedit
  rw [hreturn] at hbefore hedit
  have hall := slice?_append [] typed rest
  rw [List.nil_append, List.nil_append, byteSize_nil] at hall
  obtain rfl := Option.some.inj (hbefore.symm.trans hall)
  obtain ⟨front, key, hsplit, hstart, hkey⟩ := keyPlace?_start hplace
  rw [hstart] at hedit
  exact ⟨front, key, newText, hsplit, hkey, hedit⟩

-- The same for a literal of a text, in the coordinates of that text.
theorem edit_of_mem_itemsIn {uri : String} {before inside rest after : List Char} {p : Position}
    {c : Char} (hhead : inside.head? = some c) (hkeyChar : ¬ isKeyChar c)
    (hquote : ¬ Literal.isQuote c)
    (hbetween : ¬ ((before ++ inside).getLast? = some '\r' ∧ (rest ++ after).head? = some '\n'))
    {parent : LineIndex} (hoffset : parent.offsetAt p = byteSize (before ++ inside))
    (h : item ∈ (ofChars uri (inside ++ rest) (byteSize before)).itemsIn parent
      ((ofChars uri (inside ++ rest) (byteSize before)).completions schemas
        ((ofChars uri (inside ++ rest) (byteSize before)).positionFrom parent p))) :
    ∃ front key newText, before ++ inside = front ++ key ∧ EndsWithKey front key ∧
      item.edit =
        some (.replace (parent.range ⟨byteSize front, byteSize (front ++ key)⟩) newText) := by
  have hinside : inside ≠ [] := by
    rintro rfl
    contradiction
  have hlast : (before ++ inside).getLast? = inside.getLast? := by
    rw [List.getLast?_append, List.getLast?_eq_some_getLast hinside, Option.some_or]
  have hcut : ¬ (inside.getLast? = some '\r' ∧ rest.head? = some '\n') := by
    rintro ⟨hcr, hlf⟩
    refine hbetween ⟨hlast.trans hcr, ?_⟩
    rw [List.head?_append, hlf, Option.some_or]
  rw [byteSize_append] at hoffset
  rw [positionFrom_eq hoffset] at h
  obtain ⟨inner, hinner, rfl⟩ := List.mem_map.mp h
  obtain ⟨front, key, newText, rfl, hkey, hedit⟩ := edit_of_typed hcut hinner
  have hfront := hkey.rest_ne_nil hhead hkeyChar hquote
  have hstart : IsBoundary ((front ++ key) ++ rest) (byteSize front) := by
    rw [List.append_assoc]
    exact isBoundary_of_key hkey hcut
  have hstop : IsBoundary ((front ++ key) ++ rest) (byteSize (front ++ key)) :=
    ⟨_, rest, rfl, rfl, hcut⟩
  refine ⟨before ++ front, key, newText, (List.append_assoc _ _ _).symm,
    hkey.append hfront before, ?_⟩
  have hmoved : (ofChars uri (front ++ key ++ rest) (byteSize before)).rangeIn parent
      ((LineIndex.ofChars (front ++ key ++ rest)).range ⟨byteSize front, byteSize (front ++ key)⟩) =
        parent.range
          ⟨byteSize front + byteSize before, byteSize (front ++ key) + byteSize before⟩ :=
    rangeIn_range hstart hstop
  have hsums : byteSize front + byteSize before = byteSize (before ++ front) ∧
      byteSize (front ++ key) + byteSize before = byteSize (before ++ front ++ key) := by
    simp only [byteSize_append]
    omega
  rw [CompletionItem.mapRanges, hedit, Option.map_some, ItemEdit.mapRanges, hmoved, hsums.1,
    hsums.2]

end EmbeddedDocument

namespace Text

variable {text inside : List Char} {start stop first last : Nat}

-- What is cut out of a part is cut out of the text that the part belongs to.
theorem slice?_slice? (hslice : slice? text start stop = some inside) (hfirst : IsCut inside first)
    (hlast : IsCut inside last) (hle : first ≤ last) :
    slice? text (start + first) (start + last) = slice? inside first last := by
  obtain ⟨before, after, rfl, rfl, -⟩ := slice?_eq_some_iff.mp hslice
  obtain ⟨front, middle, back, rfl, rfl, rfl⟩ := hfirst.exists_split hlast hle
  rw [slice?_append]
  apply slice?_eq_some_iff.mpr
  refine ⟨before ++ front, back ++ after, by simp only [List.append_assoc], ?_, ?_⟩
  · rw [byteSize_append]
  · simp only [byteSize_append]
    omega

theorem IsBoundary.isCut {offset : Nat} (h : IsBoundary text offset) : IsCut text offset := by
  obtain ⟨before, after, htext, hoffset, -⟩ := h
  exact ⟨before, after, htext, hoffset⟩

-- Only at its own ends can a part divide a line end of the text.
theorem IsBoundary.of_slice? (h : IsBoundary inside first)
    (hslice : slice? text start stop = some inside) (hpos : 0 < first)
    (hlt : first < byteSize inside) : IsBoundary text (start + first) := by
  obtain ⟨before, after, rfl, rfl, -⟩ := slice?_eq_some_iff.mp hslice
  obtain ⟨front, back, rfl, rfl, hbetween⟩ := h
  have hfront : front ≠ [] := by
    rintro rfl
    exact Nat.lt_irrefl 0 hpos
  have hback : back ≠ [] := by
    rintro rfl
    rw [List.append_nil] at hlt
    exact Nat.lt_irrefl _ hlt
  refine ⟨before ++ front, back ++ after, by simp only [List.append_assoc],
    by rw [byteSize_append], ?_⟩
  rwa [List.getLast?_append_of_ne_nil before hfront, List.head?_append_of_ne_nil back hback]

end Text

namespace EmbeddedDocument

variable {uri : String} {text inside : List Char} {start stop first last : Nat}

-- The ends of a part may divide a line end of the text. Such a place of the
-- text is taken for the end of its line, and so does not lead back.
theorem coordinates_translate (hslice : slice? text start stop = some inside)
    (hle : first ≤ last) (hfirst : IsBoundary inside first) (hlast : IsBoundary inside last) :
    (ofChars uri inside start).rangeIn (.ofChars text)
        ((ofChars uri inside start).index.range ⟨first, last⟩) =
      (LineIndex.ofChars text).range ⟨start + first, start + last⟩ ∧
    (IsBoundary text (start + first) →
      (ofChars uri inside start).positionFrom (.ofChars text)
          ((LineIndex.ofChars text).positionAt (start + first)) =
        (ofChars uri inside start).index.positionAt first) ∧
    slice? text (start + first) (start + last) = slice? inside first last := by
  refine ⟨?_, fun hboundary => ?_, slice?_slice? hslice hfirst.isCut hlast.isCut hle⟩
  · rw [Nat.add_comm start, Nat.add_comm start]
    exact rangeIn_range hfirst hlast
  · exact positionFrom_eq (LineIndex.offsetAt_positionAt hboundary)

-- A part between a CR and its LF, with line ends of its own at both ends and a
-- character of four bytes on its second line.
theorem coordinates_translate_dividedLineEnds :
    slice? "é\r\n\x7b😀:\r\n1\x7d\r\nz".toList 3 15 = some "\n\x7b😀:\r\n1\x7d\r".toList ∧
      IsBoundary "\n\x7b😀:\r\n1\x7d\r".toList 0 ∧ IsBoundary "\n\x7b😀:\r\n1\x7d\r".toList 6 ∧
      IsBoundary "\n\x7b😀:\r\n1\x7d\r".toList 12 ∧
      (ofChars "" "\n\x7b😀:\r\n1\x7d\r".toList 3).rangeIn
          (.ofText "é\r\n\x7b😀:\r\n1\x7d\r\nz") ⟨⟨0, 0⟩, ⟨3, 0⟩⟩ = ⟨⟨0, 2⟩, ⟨2, 3⟩⟩ ∧
      (ofChars "" "\n\x7b😀:\r\n1\x7d\r".toList 3).positionFrom
          (.ofText "é\r\n\x7b😀:\r\n1\x7d\r\nz") ⟨1, 3⟩ = ⟨1, 3⟩ := by
  have hslice : slice? "é\r\n\x7b😀:\r\n1\x7d\r\nz".toList 3 15 =
      some "\n\x7b😀:\r\n1\x7d\r".toList := by decide
  have hfirst : IsBoundary "\n\x7b😀:\r\n1\x7d\r".toList 0 := ⟨[], _, rfl, rfl, by decide⟩
  have hinner : IsBoundary "\n\x7b😀:\r\n1\x7d\r".toList 6 :=
    ⟨['\n', '\x7b', '😀'], _, rfl, by decide, by decide⟩
  have hlast : IsBoundary "\n\x7b😀:\r\n1\x7d\r".toList 12 :=
    ⟨"\n\x7b😀:\r\n1\x7d\r".toList, [], by decide, by decide, by decide⟩
  have hwhole := (@coordinates_translate "" _ _ _ _ _ _ hslice (by decide) hfirst hlast).1
  have hplace := (@coordinates_translate "" _ _ _ _ _ _ hslice (by decide) hinner hlast).2.1
    (hinner.of_slice? hslice (by decide) (by decide))
  exact ⟨hslice, hfirst, hinner, hlast, hwhole, hplace⟩

end EmbeddedDocument

end QueryPad
