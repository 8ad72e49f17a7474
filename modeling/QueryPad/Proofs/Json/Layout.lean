import Mathlib
import QueryPad.Proofs.Json.Rereading
import QueryPad.Proofs.Token.Neighbours
import QueryPad.Token

-- JSON texts without escapes and without fractions: how they may be laid out, and
-- what they are printed and read back as.
namespace QueryPad

namespace Json

open Number

def stringChars (text : String) : List Char := '"' :: (text.toList ++ ['"'])

mutual

-- The words that a value is written with, whatever the blanks between them.
def words : Json → List (TokenKind × List Char)
  | null => [(.null, "null".toList)]
  | bool value => [(.boolean, if value then "true".toList else "false".toList)]
  | number value => [(.number, value.render.toList)]
  | string value => [(.string, stringChars value)]
  | array items => (.openBracket, ['[']) :: (wordsOfItems items ++ [(.closeBracket, [']'])])
  | object fields => (.openBrace, ['{']) :: (wordsOfFields fields ++ [(.closeBrace, ['}'])])

def wordsOfItems : List Json → List (TokenKind × List Char)
  | [] => []
  | item :: items => item.words ++ wordsBehindItem items

def wordsBehindItem : List Json → List (TokenKind × List Char)
  | [] => []
  | item :: items => (.comma, [',']) :: (item.words ++ wordsBehindItem items)

def wordsOfFields : List (String × Json) → List (TokenKind × List Char)
  | [] => []
  | (key, field) :: fields =>
    (.string, stringChars key) :: (.colon, [':']) :: (field.words ++ wordsBehindField fields)

def wordsBehindField : List (String × Json) → List (TokenKind × List Char)
  | [] => []
  | (key, field) :: fields =>
    (.comma, [',']) :: (.string, stringChars key) :: (.colon, [':']) ::
      (field.words ++ wordsBehindField fields)

end

-- Words with blanks between them, before them and behind them, or with none.
inductive LaidOut : List (TokenKind × List Char) → List Char → Prop where
  | done : LaidOut [] []
  | blank {c : Char} {words : List (TokenKind × List Char)} {text : List Char}
    (hc : c ∈ [' ', '\t', '\n', '\r']) (tail : LaidOut words text) : LaidOut words (c :: text)
  | word {kind : TokenKind} {chars : List Char} {words : List (TokenKind × List Char)}
    {text : List Char} (tail : LaidOut words text) :
    LaidOut ((kind, chars) :: words) (chars ++ text)

theorem LaidOut.append {front back : List (TokenKind × List Char)} {text behind : List Char}
    (h : LaidOut front text) (hback : LaidOut back behind) :
    LaidOut (front ++ back) (text ++ behind) := by
  induction h with
  | done => exact hback
  | blank hc _ ih => exact .blank hc ih
  | word _ ih =>
    rw [List.cons_append, List.append_assoc]
    exact .word ih

-- The text without any blank.
def compact (json : Json) : String := .ofList (json.words.flatMap (·.2))

-- A character that a string holds as it is, and that ends no line.
def isPlainChar (c : Char) : Bool :=
  32 ≤ c.toNat && c ≠ '"' && c ≠ '\\' && c ≠ '\u2028' && c ≠ '\u2029'

def IsPlainText (text : String) : Prop := ∀ c ∈ text.toList, isPlainChar c

-- Keys of objects that stand for something else.
def markerKeys : List String := ["$oid", "$date", "$regex"]

-- Integers of 64 bits, plain strings, and objects that stand for themselves.
inductive IsPlain : Json → Prop where
  | null : IsPlain null
  | bool (value : Bool) : IsPlain (bool value)
  | integer {value : Int} (low : -2 ^ 63 ≤ value) (high : value < 2 ^ 63) : IsPlain (int value)
  | string {text : String} (h : IsPlainText text) : IsPlain (string text)
  | array {items : List Json} (h : ∀ item ∈ items, IsPlain item) : IsPlain (array items)
  | object {fields : List (String × Json)}
    (keys : ∀ field ∈ fields, IsPlainText field.1 ∧ field.1 ∉ markerKeys)
    (h : ∀ field ∈ fields, IsPlain field.2) : IsPlain (object fields)

mutual

-- How many brackets are open at once.
def depth : Json → Nat
  | array items => depthOfItems items + 1
  | object fields => depthOfFields fields + 1
  | _ => 0

def depthOfItems : List Json → Nat
  | [] => 0
  | item :: items => max item.depth (depthOfItems items)

def depthOfFields : List (String × Json) → Nat
  | [] => 0
  | (_, field) :: fields => max field.depth (depthOfFields fields)

end

-- Merging takes fields away and adds none.
theorem exists_written {fields : List (String × Json)} {field : String × Json}
    (h : field ∈ mergeFields (mergedFields fields)) :
    ∃ written ∈ fields, (written.1, written.2.merged) = field := by
  rw [mergedFields_eq] at h
  exact List.mem_map.mp (mem_of_mem_mergeFields h)

section Plain

variable {json : Json} {text : String}

theorem IsPlainText.notMem_backslash (h : IsPlainText text) : '\\' ∉ text.toList := fun hmem =>
  absurd (h '\\' hmem) (by decide)

theorem IsPlainText.thinText_eq (h : IsPlainText text) : thinText text = text := by
  refine (thinText_eq_self_iff text).mpr fun c hpair => ?_
  exact absurd (hpair.subset (by simp)) h.notMem_backslash

theorem escape_of_isPlainChar {c : Char} (h : isPlainChar c) : escape c = [c] := by
  simp only [isPlainChar, Bool.and_eq_true, decide_eq_true_eq] at h
  obtain ⟨⟨⟨⟨hlow, hquote⟩, hback⟩, _⟩, _⟩ := h
  have hcontrol : ∀ d : Char, d.toNat < 32 → c ≠ d := by
    rintro d hd rfl
    omega
  rw [escape, if_neg hquote, if_neg hback, if_neg (hcontrol '\n' (by decide)),
    if_neg (hcontrol '\r' (by decide)), if_neg (hcontrol '\t' (by decide)),
    if_neg (hcontrol '\x08' (by decide)), if_neg (hcontrol '\x0c' (by decide)),
    if_neg (by omega)]

theorem IsPlainText.toList_quote (h : IsPlainText text) :
    (quote text).toList = stringChars text := by
  have hescape : text.toList.flatMap escape = text.toList := by
    rw [List.flatMap_congr fun c hc => escape_of_isPlainChar (h c hc), List.flatMap_singleton']
  rw [Json.toList_quote, hescape, stringChars]

namespace IsPlain

theorem sparesEscapes (h : json.IsPlain) : json.SparesEscapes := by
  induction h with
  | string h => exact List.forall_mem_singleton.mpr h.thinText_eq
  | array h ih =>
    intro text htext
    obtain ⟨item, hitem, htext⟩ := mem_textsOfItems.mp htext
    exact ih item hitem text htext
  | object keys h ih =>
    intro text htext
    obtain ⟨field, hfield, rfl | htext⟩ := mem_textsOfFields.mp htext
    · exact (keys field hfield).1.thinText_eq
    · exact ih field hfield text htext
  | _ => exact fun _ htext => absurd htext List.not_mem_nil

theorem merged (h : json.IsPlain) : json.merged.IsPlain := by
  induction h with
  | array h ih =>
    rw [Json.merged, mergedItems_eq]
    exact .array (List.forall_mem_map.mpr ih)
  | @object fields keys h ih =>
    rw [Json.merged]
    refine .object (fun field hfield => ?_) fun field hfield => ?_
    · obtain ⟨written, hwritten, rfl⟩ := exists_written hfield
      exact keys written hwritten
    · obtain ⟨written, hwritten, rfl⟩ := exists_written hfield
      exact ih written hwritten
  | null => exact .null
  | bool value => exact .bool value
  | integer low high => exact .integer low high
  | string h => exact .string h

end IsPlain

section Depth

theorem depthOfItems_le_iff {items : List Json} {levels : Nat} :
    depthOfItems items ≤ levels ↔ ∀ item ∈ items, item.depth ≤ levels := by
  induction items with
  | nil => simp [depthOfItems]
  | cons item items ih => rw [depthOfItems, Nat.max_le, ih, List.forall_mem_cons]

theorem depthOfFields_le_iff {fields : List (String × Json)} {levels : Nat} :
    depthOfFields fields ≤ levels ↔ ∀ field ∈ fields, field.2.depth ≤ levels := by
  induction fields with
  | nil => simp [depthOfFields]
  | cons field fields ih => rw [depthOfFields, Nat.max_le, ih, List.forall_mem_cons]

theorem reread?_of_bounds {value : Int} (low : -2 ^ 63 ≤ value) (high : value < 2 ^ 63) :
    (JsonNumber.integer value).reread? = some (.integer value) := by
  have hcounts : wordCount 63 = 2 ^ 63 ∧ wordCount 64 = 2 ^ 64 := ⟨rfl, rfl⟩
  exact JsonNumber.reread?_integer (by omega) (by omega)

theorem IsPlain.reread? {json : Json} (h : json.IsPlain) {room : Nat} (hroom : json.depth ≤ room) :
    json.reread? room = some json.merged := by
  induction h generalizing room with
  | null => rfl
  | bool value => rfl
  | integer low high =>
    rw [int, Json.reread?, reread?_of_bounds low high]
    rfl
  | string h => rfl
  | @array items h ih =>
    cases room with
    | zero => contradiction
    | succ room =>
      have hitems := depthOfItems_le_iff.mp (Nat.le_of_succ_le_succ hroom)
      have hread : rereadItems? room items = some (mergedItems items) := by
        rw [mergedItems_eq]
        exact rereadItems?_eq_some_iff.mpr (List.forall₂_map_right_iff.mpr
          (List.forall₂_same.mpr fun item hitem => ih item hitem (hitems item hitem)))
      rw [Json.reread?, hread]
      rfl
  | @object fields keys h ih =>
    cases room with
    | zero => contradiction
    | succ room =>
      have hfields := depthOfFields_le_iff.mp (Nat.le_of_succ_le_succ hroom)
      have hread : rereadFields? room fields = some (mergedFields fields) := by
        rw [mergedFields_eq]
        exact rereadFields?_eq_some_iff.mpr (List.forall₂_map_right_iff.mpr
          (List.forall₂_same.mpr fun field hfield => ⟨rfl, ih field hfield (hfields field hfield)⟩))
      rw [Json.reread?, hread]
      rfl

theorem depth_merged_le (json : Json) : json.merged.depth ≤ json.depth := by
  induction json using induct with
  | array items ih =>
    rw [merged, mergedItems_eq, depth, depth]
    refine Nat.succ_le_succ (depthOfItems_le_iff.mpr (List.forall_mem_map.mpr fun item hitem => ?_))
    exact (ih item hitem).trans (depthOfItems_le_iff.mp le_rfl item hitem)
  | object fields ih =>
    rw [merged, depth, depth]
    refine Nat.succ_le_succ (depthOfFields_le_iff.mpr fun field hfield => ?_)
    obtain ⟨written, hwritten, rfl⟩ := exists_written hfield
    exact (ih written hwritten).trans (depthOfFields_le_iff.mp le_rfl written hwritten)
  | _ => exact le_rfl

end Depth

section Printing

theorem chars_wordsBehindItem {items : List Json}
    (h : ∀ item ∈ items, item.render.toList = item.words.flatMap (·.2)) :
    (wordsBehindItem items).flatMap (·.2) = itemsBehind items := by
  induction items with
  | nil => rfl
  | cons item items ih =>
    obtain ⟨hitem, hitems⟩ := List.forall_mem_cons.mp h
    rw [wordsBehindItem, List.flatMap_cons, List.flatMap_append, ← hitem, ih hitems,
      itemsBehind_cons, List.singleton_append]

theorem chars_wordsBehindField {fields : List (String × Json)}
    (keys : ∀ field ∈ fields, IsPlainText field.1)
    (h : ∀ field ∈ fields, field.2.render.toList = field.2.words.flatMap (·.2)) :
    (wordsBehindField fields).flatMap (·.2) = fieldsBehind fields := by
  induction fields with
  | nil => rfl
  | cons field fields ih =>
    obtain ⟨hkey, hkeys⟩ := List.forall_mem_cons.mp keys
    obtain ⟨hfield, hfields⟩ := List.forall_mem_cons.mp h
    simp only [wordsBehindField, List.flatMap_cons, List.flatMap_append, ← hfield, ih hkeys hfields,
      fieldsBehind_cons, fieldChars, hkey.toList_quote, List.append_assoc, List.cons_append,
      List.nil_append]

-- Printing leaves out the blanks and changes nothing else.
theorem IsPlain.render_eq {json : Json} (h : json.IsPlain) : json.render = json.compact := by
  refine String.toList_inj.mp ?_
  rw [compact, String.toList_ofList]
  induction h with
  | null => rfl
  | bool value => cases value <;> rfl
  | integer low high => exact (List.append_nil _).symm
  | string h => rw [render, h.toList_quote, words, List.flatMap_singleton]
  | @array items h ih =>
    cases items with
    | nil => rfl
    | cons item items =>
      obtain ⟨hitem, hitems⟩ := List.forall_mem_cons.mp ih
      simp only [toList_array_cons, words, wordsOfItems, List.flatMap_cons, List.flatMap_append,
        List.flatMap_nil, chars_wordsBehindItem hitems, ← hitem, List.append_assoc, List.append_nil,
        List.cons_append, List.nil_append]
  | @object fields keys h ih =>
    cases fields with
    | nil => rfl
    | cons field fields =>
      obtain ⟨hfield, hfields⟩ := List.forall_mem_cons.mp ih
      obtain ⟨⟨hkey, _⟩, hkeys⟩ := List.forall_mem_cons.mp keys
      simp only [toList_object_cons, words, wordsOfFields, List.flatMap_cons, List.flatMap_append,
        List.flatMap_nil, chars_wordsBehindField (fun field hmem => (hkeys field hmem).1) hfields,
        ← hfield, fieldChars, hkey.toList_quote, List.append_assoc, List.append_nil,
        List.cons_append, List.nil_append]

end Printing

end Plain

end Json

end QueryPad

-- Plain values are spelled in words of pads.
namespace QueryPad

open Text

theorem quoted_plain {cs : List Char} (h : ∀ c ∈ cs, Json.isPlainChar c) :
    Scan.quoted '"' (cs ++ ['"']) = (true, cs ++ ['"'], []) := by
  induction cs with
  | nil =>
    unfold Scan.quoted
    rfl
  | cons c cs ih =>
    obtain ⟨hc, hcs⟩ := List.forall_mem_cons.mp h
    have hother : ∀ d, Json.isPlainChar d = false → c ≠ d := by
      rintro d hd rfl
      simp [hc] at hd
    have hline : ¬ isLineTerminator c := by
      simp only [isLineTerminator, Bool.or_eq_true, decide_eq_true_eq, not_or]
      exact ⟨⟨⟨hother _ (by decide), hother _ (by decide)⟩, hother _ (by decide)⟩,
        hother _ (by decide)⟩
    unfold Scan.quoted
    simp only [List.cons_append, if_neg (hother '"' (by decide)), if_neg hline,
      if_neg (hother '\\' (by decide)), ih hcs]

theorem isWord_stringChars {text : String} (h : Json.IsPlainText text) :
    IsWord .string (Json.stringChars text) :=
  isWord_quoted (.inr rfl) (quoted_plain h)

theorem number_signChars (negative : Bool) {ds : List Char} (hne : ds ≠ [])
    (hds : ∀ c ∈ ds, c.isDigit) : Scan.number (NumberText.signChars negative ++ ds) =
      (NumberText.signChars negative ++ ds, []) := by
  have hdigits : Scan.digits (ds ++ []) = (ds, []) := Scan.digits_append_eq hds (by simp)
  obtain ⟨d, more, rfl⟩ := List.exists_cons_of_ne_nil hne
  have hd : d ≠ '-' := by
    rintro rfl
    exact absurd (hds '-' (by simp)) (by decide)
  rw [List.append_nil] at hdigits
  cases negative <;>
    simp [NumberText.signChars, Scan.number, Scan.optionalChar, hd, hdigits, Scan.fraction,
      Scan.exponent]

theorem isWord_signed (negative : Bool) {ds : List Char} (hne : ds ≠ [])
    (hds : ∀ c ∈ ds, c.isDigit) : IsWord .number (NumberText.signChars negative ++ ds) := by
  have hnumber := number_signChars negative hne hds
  obtain ⟨d, more, rfl⟩ := List.exists_cons_of_ne_nil hne
  have hd : d.isDigit := hds d (by simp)
  cases negative with
  | false =>
    have hbegins : Piece.beginsNumber d more := by simp [Piece.beginsNumber, hd]
    have hword := isWord_number hbegins
    rw [show Scan.number (d :: more) = (d :: more, []) from hnumber] at hword
    refine hword fun hsign => ?_
    obtain ⟨rfl, _⟩ := List.cons.inj hsign
    contradiction
  | true =>
    have hbegins : Piece.beginsNumber '-' (d :: more) := by simp [Piece.beginsNumber, hd]
    have hword := isWord_number hbegins
    rw [show Scan.number ('-' :: d :: more) = ('-' :: d :: more, []) from hnumber] at hword
    exact hword (by simp)

theorem isWord_integer (value : Int) :
    IsWord .number (JsonNumber.integer value).render.toList := by
  have hchars : (JsonNumber.integer value).render.toList =
      NumberText.signChars (value < 0) ++ Nat.toDigits 10 value.natAbs := by
    rw [JsonNumber.render, JsonNumber.integer_chars, NumberText.chars, NumberText.fractionChars,
      NumberText.exponentChars, List.append_nil, List.append_nil]
  rw [hchars]
  exact isWord_signed _ Nat.toDigits_ne_nil (isDigit_toDigits value.natAbs)

theorem isWord_null : IsWord .null "null".toList := by
  have hword : IsWord (Piece.wordKind ['n', 'u', 'l', 'l']) ['n', 'u', 'l', 'l'] :=
    isWord_word (by decide) (List.all_eq_true.mp (by decide))
  exact hword

theorem isWord_bool (value : Bool) :
    IsWord .boolean (if value then "true".toList else "false".toList) := by
  cases value with
  | true =>
    have hword : IsWord (Piece.wordKind ['t', 'r', 'u', 'e']) ['t', 'r', 'u', 'e'] :=
      isWord_word (by decide) (List.all_eq_true.mp (by decide))
    exact hword
  | false =>
    have hword : IsWord (Piece.wordKind ['f', 'a', 'l', 's', 'e']) ['f', 'a', 'l', 's', 'e'] :=
      isWord_word (by decide) (List.all_eq_true.mp (by decide))
    exact hword

namespace Json

theorem isWord_wordsBehindItem {items : List Json}
    (h : ∀ item ∈ items, ∀ word ∈ item.words, IsWord word.1 word.2) :
    ∀ word ∈ wordsBehindItem items, IsWord word.1 word.2 := by
  induction items with
  | nil => simp [wordsBehindItem]
  | cons item items ih =>
    obtain ⟨hitem, hitems⟩ := List.forall_mem_cons.mp h
    rw [wordsBehindItem, List.forall_mem_cons, List.forall_mem_append]
    exact ⟨isWord_mark rfl, hitem, ih hitems⟩

theorem isWord_wordsBehindField {fields : List (String × Json)}
    (keys : ∀ field ∈ fields, IsPlainText field.1)
    (h : ∀ field ∈ fields, ∀ word ∈ field.2.words, IsWord word.1 word.2) :
    ∀ word ∈ wordsBehindField fields, IsWord word.1 word.2 := by
  induction fields with
  | nil => simp [wordsBehindField]
  | cons field fields ih =>
    obtain ⟨hkey, hkeys⟩ := List.forall_mem_cons.mp keys
    obtain ⟨hfield, hfields⟩ := List.forall_mem_cons.mp h
    rw [wordsBehindField, List.forall_mem_cons, List.forall_mem_cons, List.forall_mem_cons,
      List.forall_mem_append]
    exact ⟨isWord_mark rfl, isWord_stringChars hkey, isWord_mark rfl, hfield, ih hkeys hfields⟩

theorem IsPlain.isWord {json : Json} (h : json.IsPlain) :
    ∀ word ∈ json.words, IsWord word.1 word.2 := by
  induction h with
  | null => exact List.forall_mem_singleton.mpr isWord_null
  | bool value => exact List.forall_mem_singleton.mpr (isWord_bool value)
  | integer => exact List.forall_mem_singleton.mpr (isWord_integer _)
  | string h => exact List.forall_mem_singleton.mpr (isWord_stringChars h)
  | @array items h ih =>
    rw [words, List.forall_mem_cons, List.forall_mem_append, List.forall_mem_singleton]
    refine ⟨isWord_mark rfl, ?_, isWord_mark rfl⟩
    cases items with
    | nil => simp [wordsOfItems]
    | cons item items =>
      obtain ⟨hitem, hitems⟩ := List.forall_mem_cons.mp ih
      rw [wordsOfItems, List.forall_mem_append]
      exact ⟨hitem, isWord_wordsBehindItem hitems⟩
  | @object fields keys h ih =>
    rw [words, List.forall_mem_cons, List.forall_mem_append, List.forall_mem_singleton]
    refine ⟨isWord_mark rfl, ?_, isWord_mark rfl⟩
    cases fields with
    | nil => simp [wordsOfFields]
    | cons field fields =>
      obtain ⟨⟨hkey, _⟩, hkeys⟩ := List.forall_mem_cons.mp keys
      obtain ⟨hfield, hfields⟩ := List.forall_mem_cons.mp ih
      rw [wordsOfFields, List.forall_mem_cons, List.forall_mem_cons, List.forall_mem_append]
      exact ⟨isWord_stringChars hkey, isWord_mark rfl, hfield,
        isWord_wordsBehindField (fun field hmem => (hkeys field hmem).1) hfields⟩

-- Words that stay apart may be laid out in any way.
theorem LaidOut.spells {words : List (TokenKind × List Char)} {text : List Char}
    (h : LaidOut words text) (hwords : ∀ word ∈ words, IsWord word.1 word.2)
    (hapart : words.IsChain fun before after => before.1.apart after.1) : Spells words text := by
  induction h with
  | done => exact .done
  | blank hc _ ih =>
    refine .blank ?_ (ih hwords hapart)
    fin_cases hc <;> decide +kernel
  | word _ ih =>
    obtain ⟨hword, hwords⟩ := List.forall_mem_cons.mp hwords
    obtain ⟨hnext, hapart⟩ := List.isChain_cons.mp hapart
    have hspells := ih hwords hapart
    exact .word hword (hspells.ends hnext) hspells

end Json

end QueryPad
