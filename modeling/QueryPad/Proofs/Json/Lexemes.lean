import QueryPad.Proofs.Json.Rereading
import Mathlib.Data.List.Forall2

-- JSON texts by their lexemes. When the escapes of a printed value are halved,
-- its strings are thinned one by one, and all else is as it was.
namespace QueryPad

namespace Regex

-- From each run of two or more backslashes before a soft character one goes. A
-- run begins at the start or behind another character, and ends before one.
inductive Thins : List Char → List Char → Prop where
  | last (count : Nat) : Thins (List.replicate count '\\') (List.replicate count '\\')
  | run (count : Nat) {c : Char} {rest thinned : List Char} (hc : c ≠ '\\')
      (h : Thins rest thinned) :
      Thins (List.replicate count '\\' ++ c :: rest)
        (List.replicate (if 2 ≤ count ∧ isSoft c then count - 1 else count) '\\' ++ c :: thinned)

section Runs

variable {c : Char} {rest : List Char}

theorem exists_run (cs : List Char) : (∃ count, cs = List.replicate count '\\') ∨
    ∃ count c rest, c ≠ '\\' ∧ cs = List.replicate count '\\' ++ c :: rest := by
  induction cs with
  | nil => exact .inl ⟨0, rfl⟩
  | cons c cs ih =>
    by_cases hc : c = '\\'
    · subst hc
      rcases ih with ⟨count, rfl⟩ | ⟨count, d, rest, hd, rfl⟩
      · exact .inl ⟨count + 1, rfl⟩
      · exact .inr ⟨count + 1, d, rest, hd, rfl⟩
    · exact .inr ⟨0, c, cs, hc, rfl⟩

theorem thin_replicate (count : Nat) :
    thin (List.replicate count '\\') = List.replicate count '\\' := by
  refine thin_eq_self_iff.mpr fun c hthree hsoft => ne_backslash_of_isSoft hsoft ?_
  exact List.eq_of_mem_replicate (hthree.subset (by simp))

-- The first of three backslashes stays.
theorem thin_three : thin ('\\' :: '\\' :: '\\' :: rest) = '\\' :: thin ('\\' :: '\\' :: rest) := by
  refine thin_cons fun d more heq => ?_
  obtain ⟨rfl, -⟩ : '\\' = d ∧ rest = more := by simpa using heq
  decide

theorem thin_run (count : Nat) (hc : c ≠ '\\') :
    thin (List.replicate count '\\' ++ c :: rest) =
      List.replicate (if 2 ≤ count ∧ isSoft c then count - 1 else count) '\\' ++
        c :: thin rest := by
  have hlone : thin (c :: rest) = c :: thin rest := thin_cons (by simp [hc])
  have hone : thin ('\\' :: c :: rest) = '\\' :: c :: thin rest := by
    rw [thin_cons (by simp [hc]), hlone]
  have htwo : ¬ isSoft c → thin ('\\' :: '\\' :: c :: rest) = '\\' :: '\\' :: c :: thin rest := by
    intro hsoft
    rw [thin_cons (by simp [hsoft]), hone]
  induction count with
  | zero => simpa using hlone
  | succ count ih =>
    match count with
    | 0 => simpa using hone
    | 1 =>
      by_cases hsoft : isSoft c
      · simpa [hsoft] using thin_soft hsoft
      · simpa [hsoft] using htwo hsoft
    | count + 2 =>
      have hfirst : thin (List.replicate (count + 3) '\\' ++ c :: rest) =
          '\\' :: thin (List.replicate (count + 2) '\\' ++ c :: rest) := thin_three
      rw [hfirst, ih, ← List.cons_append, ← List.replicate_succ]
      by_cases hsoft : isSoft c <;> simp [hsoft]

theorem thins_thin (cs : List Char) : Thins cs (thin cs) := by
  rcases exists_run cs with ⟨count, rfl⟩ | ⟨count, c, rest, hc, hcs⟩
  · rw [thin_replicate]
    exact .last count
  · have hshorter := congrArg List.length hcs
    rw [List.length_append, List.length_cons] at hshorter
    rw [hcs, thin_run count hc]
    exact .run count hc (thins_thin rest)
termination_by cs.length

end Runs

end Regex

-- A piece of JSON text that means something by itself.
inductive Lexeme where
  -- A bracket, a comma or a colon.
  | mark (c : Char)
  -- A number or a keyword, as it is written.
  | word (chars : List Char)
  -- A string, by what it says.
  | text (content : List Char)
  deriving DecidableEq

namespace Lexeme

def marks : List Char := ['[', ']', '{', '}', ',', ':']

def keywords : List (List Char) := ["null".toList, "true".toList, "false".toList]

-- A number or a keyword, and the text behind it.
def word? (cs : List Char) : Option (Lexeme × List Char) :=
  match keywords.find? (·.isPrefixOf cs) with
  | some keyword => some (.word keyword, cs.drop keyword.length)
  | none => (NumberText.split? cs).map fun (_, rest) =>
    (.word (cs.take (cs.length - rest.length)), rest)

def next? : List Char → Option (Lexeme × List Char)
  | [] => none
  | c :: rest =>
    if c ∈ marks then some (.mark c, rest)
    else if c = '"' then
      (JsonReader.stringBody none rest).map fun (content, rest) => (.text content, rest)
    else word? (c :: rest)

theorem word?_length {cs rest : List Char} {lexeme : Lexeme} (hcs : cs ≠ [])
    (h : word? cs = some (lexeme, rest)) : rest.length < cs.length := by
  rw [word?] at h
  split at h
  · next keyword hkeyword =>
    obtain ⟨-, rfl⟩ := Prod.mk.inj (Option.some.inj h)
    have hpos : ∀ keyword ∈ keywords, 0 < keyword.length := by decide
    have := hpos keyword (List.mem_of_find?_eq_some hkeyword)
    have := List.length_pos_iff.mpr hcs
    rw [List.length_drop]
    omega
  · obtain ⟨⟨number, after⟩, hsplit, hpair⟩ := Option.map_eq_some_iff.mp h
    obtain ⟨-, rfl⟩ := Prod.mk.inj hpair
    exact NumberText.split?_length hsplit

theorem next?_length {cs rest : List Char} {lexeme : Lexeme} (h : next? cs = some (lexeme, rest)) :
    rest.length < cs.length := by
  cases cs with
  | nil => contradiction
  | cons c cs =>
    rw [next?] at h
    split at h
    · obtain ⟨-, rfl⟩ := Prod.mk.inj (Option.some.inj h)
      exact Nat.lt_succ_self _
    · split at h
      · obtain ⟨⟨content, after⟩, hbody, hpair⟩ := Option.map_eq_some_iff.mp h
        obtain ⟨-, rfl⟩ := Prod.mk.inj hpair
        exact (JsonReader.stringBody_length hbody).trans (Nat.lt_succ_self _)
      · exact word?_length (List.cons_ne_nil c cs) h

-- Brackets, commas, colons, numbers and keywords are the same. Of a string the
-- runs of backslashes are thinned.
inductive Thins : Lexeme → Lexeme → Prop where
  | mark (c : Char) : Thins (.mark c) (.mark c)
  | word (chars : List Char) : Thins (.word chars) (.word chars)
  | text {content thinned : List Char} (h : Regex.Thins content thinned) :
      Thins (.text content) (.text thinned)

end Lexeme

-- The lexemes of a text, whatever the blanks between them.
def lexemes? (cs : List Char) : Option (List Lexeme) :=
  if JsonReader.skipBlank cs = [] then some []
  else
    match h : Lexeme.next? (JsonReader.skipBlank cs) with
    | none => none
    | some (lexeme, rest) =>
      have := (Lexeme.next?_length h).trans_le (JsonReader.skipBlank_length cs)
      (lexemes? rest).map (lexeme :: ·)
termination_by cs.length

mutual

-- The grammar of JSON texts, over the lexemes that are read from them.
inductive IsJson : List Lexeme → Prop where
  | word (chars : List Char) : IsJson [.word chars]
  | text (content : List Char) : IsJson [.text content]
  | emptyArray : IsJson [.mark '[', .mark ']']
  | array {items : List Lexeme} (h : AreItems items) :
      IsJson (.mark '[' :: (items ++ [.mark ']']))
  | emptyObject : IsJson [.mark '{', .mark '}']
  | object {fields : List Lexeme} (h : AreFields fields) :
      IsJson (.mark '{' :: (fields ++ [.mark '}']))

inductive AreItems : List Lexeme → Prop where
  | one {item : List Lexeme} (h : IsJson item) : AreItems item
  | more {item items : List Lexeme} (hitem : IsJson item) (hitems : AreItems items) :
      AreItems (item ++ .mark ',' :: items)

inductive AreFields : List Lexeme → Prop where
  | one (key : List Char) {value : List Lexeme} (h : IsJson value) :
      AreFields (.text key :: .mark ':' :: value)
  | more (key : List Char) {value fields : List Lexeme} (hvalue : IsJson value)
      (hfields : AreFields fields) :
      AreFields (.text key :: .mark ':' :: (value ++ .mark ',' :: fields))

end

namespace Json

mutual

-- What a value is written with.
def lexemes : Json → List Lexeme
  | null => [.word "null".toList]
  | bool value => [.word (if value then "true".toList else "false".toList)]
  | number value => [.word value.render.toList]
  | string value => [.text value.toList]
  | array items => .mark '[' :: (lexemesOfItems items ++ [.mark ']'])
  | object fields => .mark '{' :: (lexemesOfFields fields ++ [.mark '}'])

def lexemesOfItems : List Json → List Lexeme
  | [] => []
  | item :: items => item.lexemes ++ lexemesBehindItem items

def lexemesBehindItem : List Json → List Lexeme
  | [] => []
  | item :: items => .mark ',' :: (item.lexemes ++ lexemesBehindItem items)

def lexemesOfFields : List (String × Json) → List Lexeme
  | [] => []
  | (key, field) :: fields =>
    .text key.toList :: .mark ':' :: (field.lexemes ++ lexemesBehindField fields)

def lexemesBehindField : List (String × Json) → List Lexeme
  | [] => []
  | (key, field) :: fields =>
    .mark ',' :: .text key.toList :: .mark ':' :: (field.lexemes ++ lexemesBehindField fields)

end

section Reading

variable {c : Char} {cs rest : List Char} {lexeme : Lexeme}

theorem lexemes?_of_next (hblank : ¬ JsonReader.isBlank c)
    (h : Lexeme.next? (c :: cs) = some (lexeme, rest)) :
    lexemes? (c :: cs) = (lexemes? rest).map (lexeme :: ·) := by
  have hskip : JsonReader.skipBlank (c :: cs) = c :: cs := JsonReader.skipBlank_cons hblank
  rw [lexemes?, if_neg (by simp [hskip])]
  split
  · next hnone => simp [hskip, h] at hnone
  · next heq =>
    rw [hskip, h] at heq
    obtain ⟨rfl, rfl⟩ := Prod.mk.inj (Option.some.inj heq)
    rfl

theorem lexemes?_mark (h : c ∈ Lexeme.marks) :
    lexemes? (c :: rest) = (lexemes? rest).map (.mark c :: ·) := by
  have hmarks : Lexeme.marks.all (! JsonReader.isBlank ·) := rfl
  have hblank : ¬ JsonReader.isBlank c := by simpa using List.all_eq_true.mp hmarks c h
  exact lexemes?_of_next hblank (by rw [Lexeme.next?, if_pos h])

theorem lexemes?_quote (text : String) (rest : List Char) :
    lexemes? ((quote text).toList ++ rest) = (lexemes? rest).map (.text text.toList :: ·) := by
  rw [toList_quote, List.cons_append, List.append_assoc, List.singleton_append]
  refine lexemes?_of_next (by decide) ?_
  rw [Lexeme.next?, if_neg (by decide), if_pos rfl, JsonReader.stringBody_body]
  rfl

theorem lexemes?_word (hblank : ¬ JsonReader.isBlank c)
    (hc : c ∉ Lexeme.marks ∧ c ≠ '"') (h : Lexeme.word? (c :: cs) = some (lexeme, rest)) :
    lexemes? (c :: cs) = (lexemes? rest).map (lexeme :: ·) :=
  lexemes?_of_next hblank (by rw [Lexeme.next?, if_neg hc.1, if_neg hc.2, h])

theorem lexemes?_number (number : JsonNumber) (hrest : EndsNumber rest) :
    lexemes? (number.render.toList ++ rest) =
      (lexemes? rest).map (.word number.render.toList :: ·) := by
  obtain ⟨text, hsplit, -⟩ := number.split?_render hrest
  obtain ⟨c, cs, hchars, hc⟩ := number.exists_head
  have hother := fun d => ne_of_numberStart hc (d := d)
  have hkeyword : Lexeme.keywords.find? (·.isPrefixOf (number.render.toList ++ rest)) = none := by
    rw [hchars]
    simp [Lexeme.keywords, (hother _ _).symm]
  have hword : Lexeme.word? (number.render.toList ++ rest) =
      some (.word number.render.toList, rest) := by
    rw [Lexeme.word?, hkeyword, hsplit]
    simp
  rw [hchars] at hword ⊢
  refine lexemes?_word (not_isBlank_numberStart hc) ⟨?_, hother '"' (by decide)⟩ hword
  simp [Lexeme.marks, hother]

end Reading

-- What is shown of the text of each value.
def Lexes (json : Json) : Prop :=
  ∀ rest, EndsNumber rest →
    lexemes? (json.render.toList ++ rest) = (lexemes? rest).map (json.lexemes ++ ·)

section Printed

variable {rest : List Char}

theorem endsNumber_itemsBehind (items : List Json) (hrest : EndsNumber rest) :
    EndsNumber (itemsBehind items ++ rest) := by
  cases items with
  | nil => exact hrest
  | cons item items => simp [EndsNumber, isNumberPart]

theorem endsNumber_fieldsBehind (fields : List (String × Json)) (hrest : EndsNumber rest) :
    EndsNumber (fieldsBehind fields ++ rest) := by
  cases fields with
  | nil => exact hrest
  | cons field fields => simp [EndsNumber, isNumberPart]

theorem lexemes?_itemsBehind {items : List Json} (h : ∀ item ∈ items, item.Lexes)
    (hrest : EndsNumber rest) :
    lexemes? (itemsBehind items ++ rest) = (lexemes? rest).map (lexemesBehindItem items ++ ·) := by
  induction items with
  | nil => simp [lexemesBehindItem]
  | cons item items ih =>
    obtain ⟨hitem, hitems⟩ := List.forall_mem_cons.mp h
    rw [itemsBehind_cons, List.cons_append, List.append_assoc, lexemes?_mark (by decide),
      hitem _ (endsNumber_itemsBehind items hrest), ih hitems, Option.map_map, Option.map_map]
    simp [lexemesBehindItem, Function.comp_def]

theorem lexemes?_field {field : String × Json} (h : field.2.Lexes) (hrest : EndsNumber rest) :
    lexemes? (fieldChars field ++ rest) = (lexemes? rest).map fun lexemes =>
      .text field.1.toList :: .mark ':' :: (field.2.lexemes ++ lexemes) := by
  rw [fieldChars, List.append_assoc, List.cons_append, lexemes?_quote, lexemes?_mark (by decide),
    h rest hrest, Option.map_map, Option.map_map]
  rfl

theorem lexemes?_fieldsBehind {fields : List (String × Json)} (h : ∀ field ∈ fields, field.2.Lexes)
    (hrest : EndsNumber rest) :
    lexemes? (fieldsBehind fields ++ rest) =
      (lexemes? rest).map (lexemesBehindField fields ++ ·) := by
  induction fields with
  | nil => simp [lexemesBehindField]
  | cons field fields ih =>
    obtain ⟨hfield, hfields⟩ := List.forall_mem_cons.mp h
    rw [fieldsBehind_cons, List.cons_append, List.append_assoc, lexemes?_mark (by decide),
      lexemes?_field hfield (endsNumber_fieldsBehind fields hrest), ih hfields, Option.map_map,
      Option.map_map]
    simp [lexemesBehindField, Function.comp_def]

theorem lexes (json : Json) : json.Lexes := by
  have hclose (c : Char) (hc : c ∈ Lexeme.marks) (rest : List Char) : EndsNumber (c :: rest) := by
    have hmarks : Lexeme.marks.all (! isNumberPart ·) := rfl
    simpa [EndsNumber] using List.all_eq_true.mp hmarks c hc
  induction json using induct with
  | null => exact fun rest _ => lexemes?_word (by decide) (by decide) rfl
  | bool value =>
    cases value <;> exact fun rest _ => lexemes?_word (by decide) (by decide) rfl
  | number value => exact fun rest hrest => lexemes?_number value hrest
  | string value => exact fun rest _ => lexemes?_quote value rest
  | array items ih =>
    intro rest _
    cases items with
    | nil =>
      rw [show (array []).render.toList ++ rest = '[' :: ']' :: rest from rfl,
        lexemes?_mark (by decide), lexemes?_mark (by decide), Option.map_map]
      rfl
    | cons item items =>
      obtain ⟨hitem, hitems⟩ := List.forall_mem_cons.mp ih
      have hend := hclose ']' (by decide) rest
      rw [toList_array_cons, List.cons_append, List.append_assoc, List.append_assoc,
        List.singleton_append, lexemes?_mark (by decide),
        hitem _ (endsNumber_itemsBehind items hend), lexemes?_itemsBehind hitems hend,
        lexemes?_mark (by decide), Option.map_map, Option.map_map, Option.map_map]
      simp [lexemes, lexemesOfItems, Function.comp_def]
  | object fields ih =>
    intro rest _
    cases fields with
    | nil =>
      rw [show (object []).render.toList ++ rest = '{' :: '}' :: rest from rfl,
        lexemes?_mark (by decide), lexemes?_mark (by decide), Option.map_map]
      rfl
    | cons field fields =>
      obtain ⟨hfield, hfields⟩ := List.forall_mem_cons.mp ih
      have hend := hclose '}' (by decide) rest
      rw [toList_object_cons, List.cons_append, List.append_assoc, List.append_assoc,
        List.singleton_append, lexemes?_mark (by decide),
        lexemes?_field hfield (endsNumber_fieldsBehind fields hend),
        lexemes?_fieldsBehind hfields hend, lexemes?_mark (by decide), Option.map_map,
        Option.map_map, Option.map_map]
      simp [lexemes, lexemesOfFields, Function.comp_def]

theorem lexemes?_render (json : Json) : lexemes? json.render.toList = some json.lexemes := by
  have h := json.lexes [] (by simp [EndsNumber])
  have hnil : lexemes? [] = some [] := by
    rw [lexemes?]
    rfl
  simpa [hnil] using h

end Printed

section Grammar

theorem areItems_lexemes {item : Json} {items : List Json} (hitem : IsJson item.lexemes)
    (hitems : ∀ item ∈ items, IsJson item.lexemes) :
    AreItems (item.lexemes ++ lexemesBehindItem items) := by
  induction items generalizing item with
  | nil => simpa [lexemesBehindItem] using AreItems.one hitem
  | cons next items ih =>
    obtain ⟨hnext, hitems⟩ := List.forall_mem_cons.mp hitems
    exact .more hitem (ih hnext hitems)

theorem areFields_lexemes {field : String × Json} {fields : List (String × Json)}
    (hfield : IsJson field.2.lexemes) (hfields : ∀ field ∈ fields, IsJson field.2.lexemes) :
    AreFields (lexemesOfFields (field :: fields)) := by
  induction fields generalizing field with
  | nil => simpa [lexemesOfFields, lexemesBehindField] using AreFields.one _ hfield
  | cons next fields ih =>
    obtain ⟨hnext, hfields⟩ := List.forall_mem_cons.mp hfields
    exact .more _ hfield (ih hnext hfields)

theorem isJson_lexemes (json : Json) : IsJson json.lexemes := by
  induction json using induct with
  | null => exact .word _
  | bool value => exact .word _
  | number value => exact .word _
  | string value => exact .text _
  | array items ih =>
    cases items with
    | nil => exact .emptyArray
    | cons item items =>
      obtain ⟨hitem, hitems⟩ := List.forall_mem_cons.mp ih
      exact .array (areItems_lexemes hitem hitems)
  | object fields ih =>
    cases fields with
    | nil => exact .emptyObject
    | cons field fields =>
      obtain ⟨hfield, hfields⟩ := List.forall_mem_cons.mp ih
      exact .object (areFields_lexemes hfield hfields)

end Grammar

section Halving

open Regex

theorem thins_text (text : String) :
    Lexeme.Thins (.text text.toList) (.text (thinText text).toList) := by
  rw [thinText, String.toList_ofList]
  exact .text (thins_thin text.toList)

theorem thins_lexemesBehindItem {items : List Json}
    (h : ∀ item ∈ items, List.Forall₂ Lexeme.Thins item.lexemes item.thinned.lexemes) :
    List.Forall₂ Lexeme.Thins (lexemesBehindItem items)
      (lexemesBehindItem (thinnedItems items)) := by
  induction items with
  | nil => exact .nil
  | cons item items ih =>
    obtain ⟨hitem, hitems⟩ := List.forall_mem_cons.mp h
    exact .cons (.mark ',') (List.rel_append hitem (ih hitems))

theorem thins_lexemesBehindField {fields : List (String × Json)}
    (h : ∀ field ∈ fields, List.Forall₂ Lexeme.Thins field.2.lexemes field.2.thinned.lexemes) :
    List.Forall₂ Lexeme.Thins (lexemesBehindField fields)
      (lexemesBehindField (thinnedFields fields)) := by
  induction fields with
  | nil => exact .nil
  | cons field fields ih =>
    obtain ⟨hfield, hfields⟩ := List.forall_mem_cons.mp h
    exact .cons (.mark ',') (.cons (thins_text field.1)
      (.cons (.mark ':') (List.rel_append hfield (ih hfields))))

theorem thins_lexemes (json : Json) :
    List.Forall₂ Lexeme.Thins json.lexemes json.thinned.lexemes := by
  induction json using induct with
  | null => exact .cons (.word _) .nil
  | bool value => exact .cons (.word _) .nil
  | number value => exact .cons (.word _) .nil
  | string value => exact .cons (thins_text value) .nil
  | array items ih =>
    refine .cons (.mark '[') (List.rel_append ?_ (.cons (.mark ']') .nil))
    cases items with
    | nil => exact .nil
    | cons item items =>
      obtain ⟨hitem, hitems⟩ := List.forall_mem_cons.mp ih
      exact List.rel_append hitem (thins_lexemesBehindItem hitems)
  | object fields ih =>
    refine .cons (.mark '\x7b') (List.rel_append ?_ (.cons (.mark '\x7d') .nil))
    cases fields with
    | nil => exact .nil
    | cons field fields =>
      obtain ⟨hfield, hfields⟩ := List.forall_mem_cons.mp ih
      exact .cons (thins_text field.1)
        (.cons (.mark ':') (List.rel_append hfield (thins_lexemesBehindField hfields)))

-- A printed value whose escapes are halved is JSON text again, with the lexemes
-- it had. Only its strings, keys included, are thinned.
theorem halveEscapes_lexemes (json : Json) :
    lexemes? json.render.toList = some json.lexemes ∧
      ∃ lexemes, lexemes? (halveEscapes json.render.toList) = some lexemes ∧ IsJson lexemes ∧
        List.Forall₂ Lexeme.Thins json.lexemes lexemes := by
  refine ⟨json.lexemes?_render, json.thinned.lexemes, ?_, json.thinned.isJson_lexemes,
    json.thins_lexemes⟩
  rw [json.halveEscapes_render]
  exact json.thinned.lexemes?_render

end Halving

end Json

end QueryPad
