import QueryPad.Json.Reader
import QueryPad.Proofs.Json.Thinning

-- What the reader makes of a printed value: the value with its numbers read
-- back and its keys merged, as long as there is room for its brackets.
namespace QueryPad

namespace JsonReader

section Text

open Json

theorem hex4?_hexDigits {n : Nat} (h : n < 32) :
    ∃ a b c d, hexDigits n = [a, b, c, d] ∧ hex4? a b c d = some n := by
  have hdigits : ∀ n < 32, hexDigits n = ['0', '0', (n / 16).digitChar, (n % 16).digitChar] ∧
      hex4? '0' '0' (n / 16).digitChar (n % 16).digitChar = some n := by decide
  exact ⟨_, _, _, _, hdigits n h⟩

theorem stringBody_escaped (e : Char) {c : Char} (h : escaped? e = some c) (rest : List Char) :
    stringBody none ('\\' :: e :: rest) = withChar c (stringBody none rest) := by
  have hu : e ≠ 'u' := by
    rintro rfl
    contradiction
  simp [stringBody, hu, h]

theorem stringBody_plain {c : Char} (hquote : c ≠ '"') (hback : c ≠ '\\') (h : ¬ c.toNat < 32)
    (rest : List Char) : stringBody none (c :: rest) = withChar c (stringBody none rest) := by
  simp [stringBody, hback, h]

theorem stringBody_escape (c : Char) (rest : List Char) :
    stringBody none (escape c ++ rest) = withChar c (stringBody none rest) := by
  by_cases hquote : c = '"'
  · exact hquote ▸ stringBody_escaped '"' rfl rest
  by_cases hback : c = '\\'
  · exact hback ▸ stringBody_escaped '\\' rfl rest
  by_cases hline : c = '\n'
  · exact hline ▸ stringBody_escaped 'n' rfl rest
  by_cases hreturn : c = '\r'
  · exact hreturn ▸ stringBody_escaped 'r' rfl rest
  by_cases htab : c = '\t'
  · exact htab ▸ stringBody_escaped 't' rfl rest
  by_cases hbackspace : c = '\x08'
  · exact hbackspace ▸ stringBody_escaped 'b' rfl rest
  by_cases hfeed : c = '\x0c'
  · exact hfeed ▸ stringBody_escaped 'f' rfl rest
  rw [escape, if_neg hquote, if_neg hback, if_neg hline, if_neg hreturn, if_neg htab,
    if_neg hbackspace, if_neg hfeed]
  split
  · next hcontrol =>
    obtain ⟨a, b, d, e, hdigits, hvalue⟩ := hex4?_hexDigits hcontrol
    have hhigh : isHighSurrogate c.toNat = false := by simp [isHighSurrogate]; omega
    have hlow : isLowSurrogate c.toNat = false := by simp [isLowSurrogate]; omega
    simp [hdigits, stringBody, hvalue, hhigh, hlow]
  · next hplain => exact stringBody_plain hquote hback hplain rest

theorem stringBody_body (cs rest : List Char) :
    stringBody none (cs.flatMap escape ++ '"' :: rest) = some (cs, rest) := by
  induction cs with
  | nil => rfl
  | cons c cs ih =>
    rw [List.flatMap_cons, List.append_assoc, stringBody_escape, ih]
    rfl

end Text

-- What was read and what is left, without how much shorter that is.
def accepted {α : Type} {cs : List Char} : Result α cs → Option (α × List Char)
  | .ok (read, rest) => some (read, rest.1)
  | .error _ => none

section Reading

variable {c : Char} {cs rest : List Char} {room : Nat}

theorem skipBlank_cons (h : ¬ isBlank c) : skipBlank (c :: cs) = c :: cs := by
  rw [skipBlank, List.dropWhile_cons_of_neg h]

theorem skipTo_cons (h : ¬ isBlank c) : skipTo (c :: cs) = some (c, ⟨cs, Nat.lt_succ_self _⟩) := by
  have hskip : skipBlank (c :: cs) = c :: cs := skipBlank_cons h
  rw [skipTo]
  split
  · next hnil => simp [hskip] at hnil
  · next d more heq =>
    obtain ⟨rfl, rfl⟩ := List.cons.inj (hskip.symm.trans heq)
    rfl

theorem accepted_string {chars : List Char} (h : stringBody none cs = some (chars, rest)) :
    accepted (value room ('"' :: cs)) = some (.string (.ofList chars), rest) := by
  rw [value, skipTo_cons (by decide)]
  dsimp only
  rw [if_pos rfl]
  split
  · next heq =>
    obtain ⟨rfl, rfl⟩ := Prod.mk.inj (Option.some.inj (h.symm.trans heq))
    rfl
  · next hnone => simp [h] at hnone

theorem accepted_plain {read : Option (Json × List Char)} (hblank : ¬ isBlank c)
    (hquote : c ≠ '"') (hbracket : ¬ (c = '[' || c = '{')) (h : plain (c :: cs) = read) :
    accepted (value room (c :: cs)) = read := by
  rw [value, skipTo_cons hblank]
  dsimp only
  rw [if_neg hquote, if_neg hbracket]
  split
  · next heq => exact heq.symm.trans h
  · next hnone => exact hnone.symm.trans h

theorem accepted_tooDeep (h : c = '[' ∨ c = '{') :
    accepted (value 0 (c :: cs)) = none := by
  rcases h with rfl | rfl
  all_goals
    rw [value, skipTo_cons (by decide)]
    rfl

theorem accepted_emptyArray :
    accepted (value (room + 1) ('[' :: ']' :: rest)) = some (.array [], rest) := by
  rw [value, skipTo_cons (by decide)]
  dsimp only
  rw [if_neg (by decide), if_pos (by decide), if_pos (by decide), skipTo_cons (by decide)]
  rfl

theorem accepted_array (hblank : ¬ isBlank c) (hclose : c ≠ ']') :
    accepted (value (room + 1) ('[' :: c :: cs)) =
      (accepted (items room (c :: cs))).map fun (items, rest) => (.array items, rest) := by
  rw [value, skipTo_cons (by decide)]
  dsimp only
  rw [if_neg (by decide), if_pos (by decide), if_pos (by decide), skipTo_cons hblank]
  split
  · next heq => exact absurd (congrArg Prod.fst (Option.some.inj heq)) hclose
  · cases items room (c :: cs) <;> rfl

theorem accepted_emptyObject :
    accepted (value (room + 1) ('{' :: '}' :: rest)) = some (.object [], rest) := by
  rw [value, skipTo_cons (by decide)]
  dsimp only
  rw [if_neg (by decide), if_pos (by decide), if_neg (by decide), skipTo_cons (by decide)]
  rfl

theorem accepted_object (hblank : ¬ isBlank c) (hclose : c ≠ '}') :
    accepted (value (room + 1) ('{' :: c :: cs)) =
      (accepted (fields room (c :: cs))).map
        fun (fields, rest) => (.object (mergeFields fields), rest) := by
  rw [value, skipTo_cons (by decide)]
  dsimp only
  rw [if_neg (by decide), if_pos (by decide), if_neg (by decide), skipTo_cons hblank]
  split
  · next heq => exact absurd (congrArg Prod.fst (Option.some.inj heq)) hclose
  · cases fields room (c :: cs) <;> rfl

theorem exists_of_accepted {α : Type} {result : Result α cs} {read : α}
    (h : accepted result = some (read, rest)) : ∃ hlt, result = .ok (read, ⟨rest, hlt⟩) := by
  cases result with
  | error => contradiction
  | ok pair =>
    obtain ⟨first, after, hlt⟩ := pair
    obtain ⟨rfl, rfl⟩ := Prod.mk.inj (Option.some.inj h)
    exact ⟨hlt, rfl⟩

theorem exists_of_refused {α : Type} {result : Result α cs} (h : accepted result = none) :
    ∃ stop, result = .error stop := by
  cases result with
  | error stop => exact ⟨stop, rfl⟩
  | ok => contradiction

theorem refused_items (h : accepted (value room cs) = none) : accepted (items room cs) = none := by
  obtain ⟨stop, hvalue⟩ := exists_of_refused h
  rw [items, hvalue]
  rfl

theorem accepted_items_more {read : Option Json}
    (h : accepted (value room cs) = read.map (·, ',' :: rest)) :
    accepted (items room cs) = read.bind fun item =>
      (accepted (items room rest)).map fun (more, after) => (item :: more, after) := by
  cases read with
  | none => exact refused_items h
  | some item =>
    obtain ⟨hlt, hvalue⟩ := exists_of_accepted h
    rw [items, hvalue]
    simp only [bind, Except.bind]
    rw [skipTo_cons (by decide)]
    split
    · next heq =>
      obtain rfl := Subtype.mk.inj (Prod.mk.inj (Option.some.inj heq)).2
      cases items room rest <;> rfl
    · next heq => exact absurd (Prod.mk.inj (Option.some.inj heq)).1 (by decide)
    · next hcomma _ => exact absurd rfl (hcomma rest _)

theorem accepted_items_last {read : Option Json}
    (h : accepted (value room cs) = read.map (·, ']' :: rest)) :
    accepted (items room cs) = read.map fun item => ([item], rest) := by
  cases read with
  | none => exact refused_items h
  | some item =>
    obtain ⟨hlt, hvalue⟩ := exists_of_accepted h
    rw [items, hvalue]
    simp only [bind, Except.bind]
    rw [skipTo_cons (by decide)]
    rfl

theorem accepted_key {chars : List Char} (h : stringBody none cs = some (chars, ':' :: rest)) :
    accepted (key ('"' :: cs)) = some (.ofList chars, rest) := by
  rw [key, skipTo_cons (by decide)]
  split
  · next heq =>
    obtain ⟨-, hcs⟩ := Prod.mk.inj (Option.some.inj heq)
    obtain rfl := Subtype.mk.inj hcs
    split
    · next heq =>
      obtain ⟨rfl, rfl⟩ := Prod.mk.inj (Option.some.inj (h.symm.trans heq))
      rw [skipTo_cons (by decide)]
      rfl
    · next hnone => simp [h] at hnone
  · next hnone => exact absurd rfl (hnone cs _)

variable {mid : List Char} {name : String}

theorem refused_fields (hkey : accepted (key cs) = some (name, mid))
    (h : accepted (value room mid) = none) : accepted (fields room cs) = none := by
  obtain ⟨hmid, hkey⟩ := exists_of_accepted hkey
  obtain ⟨stop, hvalue⟩ := exists_of_refused h
  rw [fields, hkey]
  simp only [bind, Except.bind]
  rw [hvalue]
  rfl

theorem accepted_fields_more {read : Option Json} (hkey : accepted (key cs) = some (name, mid))
    (h : accepted (value room mid) = read.map (·, ',' :: rest)) :
    accepted (fields room cs) = read.bind fun field =>
      (accepted (fields room rest)).map fun (more, after) => ((name, field) :: more, after) := by
  cases read with
  | none => exact refused_fields hkey h
  | some field =>
    obtain ⟨hmid, hkey⟩ := exists_of_accepted hkey
    obtain ⟨hlt, hvalue⟩ := exists_of_accepted h
    rw [fields, hkey]
    simp only [bind, Except.bind]
    rw [hvalue]
    dsimp only
    rw [skipTo_cons (by decide)]
    split
    · next heq =>
      obtain rfl := Subtype.mk.inj (Prod.mk.inj (Option.some.inj heq)).2
      cases fields room rest <;> rfl
    · next heq => exact absurd (Prod.mk.inj (Option.some.inj heq)).1 (by decide)
    · next hcomma _ => exact absurd rfl (hcomma rest _)

theorem accepted_fields_last {read : Option Json} (hkey : accepted (key cs) = some (name, mid))
    (h : accepted (value room mid) = read.map (·, '}' :: rest)) :
    accepted (fields room cs) = read.map fun field => ([(name, field)], rest) := by
  cases read with
  | none => exact refused_fields hkey h
  | some field =>
    obtain ⟨hmid, hkey⟩ := exists_of_accepted hkey
    obtain ⟨hlt, hvalue⟩ := exists_of_accepted h
    rw [fields, hkey]
    simp only [bind, Except.bind]
    rw [hvalue]
    dsimp only
    rw [skipTo_cons (by decide)]
    rfl

end Reading

end JsonReader

namespace Json

mutual

-- What is read back of a value that is printed, if there is room for so many
-- levels of brackets.
def reread? (room : Nat) : Json → Option Json
  | null => some null
  | bool value => some (bool value)
  | number value => value.reread?.map number
  | string value => some (string value)
  | array items =>
    match room with
    | 0 => none
    | room + 1 => (rereadItems? room items).map array
  | object fields =>
    match room with
    | 0 => none
    | room + 1 => (rereadFields? room fields).map fun fields => object (mergeFields fields)

def rereadItems? (room : Nat) : List Json → Option (List Json)
  | [] => some []
  | item :: items =>
    (item.reread? room).bind fun item => (rereadItems? room items).map (item :: ·)

def rereadFields? (room : Nat) : List (String × Json) → Option (List (String × Json))
  | [] => some []
  | (key, field) :: fields =>
    (field.reread? room).bind fun field => (rereadFields? room fields).map ((key, field) :: ·)

end

open JsonReader

section Rereading

variable {room : Nat} {rest : List Char}

-- What is shown of each value.
def Rereads (json : Json) : Prop :=
  ∀ room rest, EndsNumber rest →
    accepted (value room (json.render.toList ++ rest)) = (json.reread? room).map (·, rest)

theorem rereads_null : Rereads null := by
  intro room rest hrest
  exact accepted_plain (by decide) (by decide) (by decide) rfl

theorem rereads_bool (value : Bool) : Rereads (bool value) := by
  intro room rest hrest
  cases value <;> exact accepted_plain (by decide) (by decide) (by decide) rfl

theorem rereads_string (text : String) : Rereads (string text) := by
  intro room rest hrest
  rw [toList_string, List.cons_append, List.append_assoc, List.singleton_append,
    accepted_string (stringBody_body _ _), String.ofList_toList]
  rfl

-- No other character begins a number.
theorem ne_of_numberStart {c d : Char} (hc : c.isDigit ∨ c = '-') (hd : ¬ (d.isDigit ∨ d = '-')) :
    c ≠ d := fun heq => hd (heq ▸ hc)

theorem plain_number {c : Char} {cs : List Char} (hc : c.isDigit ∨ c = '-') :
    plain (c :: cs) = (NumberText.split? (c :: cs)).bind fun (text, rest) =>
      text.value?.map fun value => (.number value, rest) := by
  have hword : c ≠ 'n' ∧ c ≠ 't' ∧ c ≠ 'f' :=
    ⟨ne_of_numberStart hc (by decide), ne_of_numberStart hc (by decide),
      ne_of_numberStart hc (by decide)⟩
  rw [plain]
  · simp only [bind, Option.map_eq_bind]
    rfl
  · simp [hword]
  · simp [hword]
  · simp [hword]

theorem not_isBlank_numberStart {c : Char} (hc : c.isDigit ∨ c = '-') : ¬ isBlank c := by
  have hother := fun d => ne_of_numberStart hc (d := d)
  simp [isBlank, hother]

theorem rereads_number (value : JsonNumber) : Rereads (number value) := by
  intro room rest hrest
  obtain ⟨text, hsplit, hvalue⟩ := value.split?_render hrest
  obtain ⟨c, cs, hchars, hc⟩ := value.exists_head
  have hquote : c ≠ '"' := ne_of_numberStart hc (by decide)
  have hbracket : ¬ (c = '[' || c = '{') := by
    simp [ne_of_numberStart hc (d := '['), ne_of_numberStart hc (d := '{')]
  rw [hchars, List.cons_append] at hsplit
  rw [render, hchars, List.cons_append,
    accepted_plain (not_isBlank_numberStart hc) hquote hbracket rfl, plain_number hc, hsplit,
    reread?, hvalue]
  rw [Option.bind_some, Option.map_map]
  rfl

theorem exists_head (json : Json) :
    ∃ c cs, json.render.toList = c :: cs ∧ ¬ isBlank c ∧ c ≠ ']' := by
  cases json with
  | null => exact ⟨'n', _, rfl, by decide, by decide⟩
  | bool value => cases value <;> exact ⟨_, _, rfl, by decide, by decide⟩
  | number value =>
    obtain ⟨c, cs, hchars, hc⟩ := value.exists_head
    exact ⟨c, cs, hchars, not_isBlank_numberStart hc, ne_of_numberStart hc (by decide)⟩
  | string value => exact ⟨'"', _, toList_string value, by decide, by decide⟩
  | array items =>
    cases items with
    | nil => exact ⟨'[', _, rfl, by decide, by decide⟩
    | cons item items => exact ⟨'[', _, toList_array_cons item items, by decide, by decide⟩
  | object fields =>
    cases fields with
    | nil => exact ⟨'{', _, rfl, by decide, by decide⟩
    | cons field fields => exact ⟨'{', _, toList_object_cons field fields, by decide, by decide⟩

theorem accepted_itemChars {item : Json} {items : List Json} (hitem : item.Rereads)
    (hitems : ∀ item ∈ items, item.Rereads) (room : Nat) (rest : List Char) :
    accepted (JsonReader.items room (item.render.toList ++ (itemsBehind items ++ ']' :: rest))) =
      (rereadItems? room (item :: items)).map (·, rest) := by
  induction items generalizing item with
  | nil =>
    have hread := hitem room (']' :: rest) (by simp [EndsNumber, isNumberPart])
    rw [itemsBehind_nil, List.nil_append, accepted_items_last hread, rereadItems?]
    cases item.reread? room <;> rfl
  | cons next items ih =>
    obtain ⟨hnext, hitems⟩ := List.forall_mem_cons.mp hitems
    have hread := hitem room (',' :: (next.render.toList ++ (itemsBehind items ++ ']' :: rest)))
      (by simp [EndsNumber, isNumberPart])
    rw [itemsBehind_cons, List.cons_append, List.append_assoc, rereadItems?,
      accepted_items_more hread, ih hnext hitems, Option.map_bind]
    congr 1
    funext item
    rw [Option.map_map, Function.comp_apply, Option.map_map]
    rfl

theorem accepted_fieldKey (name : String) (rest : List Char) :
    accepted (key ((quote name).toList ++ ':' :: rest)) = some (name, rest) := by
  rw [toList_quote, List.cons_append, List.append_assoc, List.singleton_append,
    accepted_key (stringBody_body _ _), String.ofList_toList]

theorem accepted_fieldChars {field : String × Json} {fields : List (String × Json)}
    (hfield : field.2.Rereads) (hfields : ∀ field ∈ fields, field.2.Rereads) (room : Nat)
    (rest : List Char) :
    accepted (JsonReader.fields room (fieldChars field ++ (fieldsBehind fields ++ '}' :: rest))) =
      (rereadFields? room (field :: fields)).map (·, rest) := by
  induction fields generalizing field with
  | nil =>
    obtain ⟨name, field⟩ := field
    have hread := hfield room ('}' :: rest) (by simp [EndsNumber, isNumberPart])
    have hkey := accepted_fieldKey name (field.render.toList ++ '}' :: rest)
    rw [fieldsBehind_nil, List.nil_append, fieldChars, List.append_assoc, List.cons_append,
      accepted_fields_last hkey hread, rereadFields?]
    cases field.reread? room <;> rfl
  | cons next fields ih =>
    obtain ⟨hnext, hfields⟩ := List.forall_mem_cons.mp hfields
    obtain ⟨name, field⟩ := field
    have hread := hfield room (',' :: (fieldChars next ++ (fieldsBehind fields ++ '}' :: rest)))
      (by simp [EndsNumber, isNumberPart])
    have hkey := accepted_fieldKey name (field.render.toList ++
      ',' :: (fieldChars next ++ (fieldsBehind fields ++ '}' :: rest)))
    rw [fieldsBehind_cons, List.cons_append, List.append_assoc, rereadFields?, fieldChars,
      List.append_assoc, List.cons_append, accepted_fields_more hkey hread, ih hnext hfields,
      Option.map_bind]
    congr 1
    funext field
    rw [Option.map_map, Function.comp_apply, Option.map_map]
    rfl

theorem rereads_array {items : List Json} (h : ∀ item ∈ items, item.Rereads) :
    Rereads (array items) := by
  intro room rest hrest
  cases room with
  | zero =>
    cases items with
    | nil => exact accepted_tooDeep (.inl rfl)
    | cons item items =>
      rw [toList_array_cons]
      exact accepted_tooDeep (.inl rfl)
  | succ room =>
    cases items with
    | nil => exact accepted_emptyArray
    | cons item items =>
      obtain ⟨hitem, hitems⟩ := List.forall_mem_cons.mp h
      obtain ⟨c, cs, hchars, hblank, hclose⟩ := item.exists_head
      have hread := accepted_itemChars hitem hitems room rest
      rw [hchars, List.cons_append] at hread
      rw [toList_array_cons, hchars, List.cons_append, List.cons_append, List.cons_append,
        List.append_assoc, List.append_assoc, List.singleton_append,
        accepted_array hblank hclose, hread, reread?, Option.map_map, Option.map_map]
      rfl

theorem rereads_object {fields : List (String × Json)} (h : ∀ field ∈ fields, field.2.Rereads) :
    Rereads (object fields) := by
  intro room rest hrest
  cases room with
  | zero =>
    cases fields with
    | nil => exact accepted_tooDeep (.inr rfl)
    | cons field fields =>
      rw [toList_object_cons]
      exact accepted_tooDeep (.inr rfl)
  | succ room =>
    cases fields with
    | nil => exact accepted_emptyObject
    | cons field fields =>
      obtain ⟨hfield, hfields⟩ := List.forall_mem_cons.mp h
      obtain ⟨cs, hchars⟩ : ∃ cs, fieldChars field = '"' :: cs := by
        rw [fieldChars, toList_quote]
        exact ⟨_, rfl⟩
      have hread := accepted_fieldChars hfield hfields room rest
      rw [hchars, List.cons_append] at hread
      rw [toList_object_cons, hchars, List.cons_append, List.cons_append, List.cons_append,
        List.append_assoc, List.append_assoc, List.singleton_append,
        accepted_object (by decide) (by decide), hread, reread?, Option.map_map, Option.map_map]
      rfl

theorem rereads (json : Json) : json.Rereads := by
  induction json using induct with
  | null => exact rereads_null
  | bool value => exact rereads_bool value
  | number value => exact rereads_number value
  | string value => exact rereads_string value
  | array items ih => exact rereads_array ih
  | object fields ih => exact rereads_object ih

-- A printed value is accepted as what is read back of it, or not at all.
theorem ofText_render (json : Json) :
    (ofText json.render).toOption = json.reread? levels := by
  have hread := json.rereads levels [] (by simp [EndsNumber])
  rw [List.append_nil] at hread
  rw [ofText, ofChars]
  cases hvalue : json.reread? levels with
  | none =>
    rw [hvalue] at hread
    obtain ⟨stop, herror⟩ := exists_of_refused hread
    rw [herror]
    cases stop <;> rfl
  | some value =>
    rw [hvalue] at hread
    obtain ⟨hlt, hok⟩ := exists_of_accepted hread
    rw [hok]
    rfl

theorem ofText_render_eq {json read : Json} (h : json.reread? levels = some read) :
    ofText json.render = .ok read := by
  have hread := ofText_render json
  rw [h] at hread
  cases hresult : ofText json.render with
  | ok value =>
    rw [hresult] at hread
    exact congrArg Except.ok (Option.some.inj hread)
  | error fault =>
    rw [hresult] at hread
    contradiction

theorem rereadItems?_eq_some_iff {items read : List Json} :
    rereadItems? room items = some read ↔
      List.Forall₂ (fun item value => item.reread? room = some value) items read := by
  constructor
  · intro h
    induction items generalizing read with
    | nil =>
      cases h
      exact .nil
    | cons item items ih =>
      obtain ⟨value, hvalue, hread⟩ := Option.bind_eq_some_iff.mp h
      obtain ⟨more, hmore, rfl⟩ := Option.map_eq_some_iff.mp hread
      exact .cons hvalue (ih hmore)
  · intro h
    induction h with
    | nil => rfl
    | cons hitem _ ih => rw [rereadItems?, hitem, Option.bind_some, ih, Option.map_some]

theorem rereadFields?_eq_some_iff {fields read : List (String × Json)} :
    rereadFields? room fields = some read ↔
      FieldsMatch (fun field value => field.reread? room = some value) fields read := by
  constructor
  · intro h
    induction fields generalizing read with
    | nil =>
      cases h
      exact .nil
    | cons field fields ih =>
      obtain ⟨value, hvalue, hread⟩ := Option.bind_eq_some_iff.mp h
      obtain ⟨more, hmore, rfl⟩ := Option.map_eq_some_iff.mp hread
      exact .cons ⟨rfl, hvalue⟩ (ih hmore)
  · intro h
    induction h with
    | nil => rfl
    | @cons field value fields read hfield _ ih =>
      obtain ⟨key, field⟩ := field
      obtain ⟨_, value⟩ := value
      obtain ⟨rfl, hvalue⟩ : key = _ ∧ field.reread? room = some value := hfield
      rw [rereadFields?, hvalue, Option.bind_some, ih, Option.map_some]

theorem distinctKeys_of_reread? {json read : Json} (h : json.reread? room = some read) :
    read.DistinctKeys := by
  induction json using induct generalizing room read with
  | null =>
    cases h
    exact .null
  | bool value =>
    cases h
    exact .bool value
  | number value =>
    obtain ⟨value, _, rfl⟩ := Option.map_eq_some_iff.mp h
    exact .number value
  | string value =>
    cases h
    exact .string value
  | array items ih =>
    cases room with
    | zero => contradiction
    | succ room =>
      obtain ⟨items, hitems, rfl⟩ := Option.map_eq_some_iff.mp h
      refine .array fun value hvalue => ?_
      obtain ⟨item, hitem, hread⟩ :=
        forall₂_exists_left (rereadItems?_eq_some_iff.mp hitems) hvalue
      exact ih item hitem hread
  | object fields ih =>
    cases room with
    | zero => contradiction
    | succ room =>
      obtain ⟨fields, hfields, rfl⟩ := Option.map_eq_some_iff.mp h
      refine .object_mergeFields fun field hfield => ?_
      obtain ⟨before, hbefore, _, hread⟩ :=
        forall₂_exists_left (rereadFields?_eq_some_iff.mp hfields) hfield
      exact ih before hbefore hread

theorem rereadItems?_thinned {items : List Json}
    (h : ∀ item ∈ items, item.thinned.reread? room =
      (item.reread? room).map fun value => value.thinned.merged) :
    rereadItems? room (thinnedItems items) =
      (rereadItems? room items).map fun read => mergedItems (thinnedItems read) := by
  induction items with
  | nil => rfl
  | cons item items ih =>
    obtain ⟨hitem, hitems⟩ := List.forall_mem_cons.mp h
    rw [thinnedItems, rereadItems?, rereadItems?, hitem, ih hitems]
    cases item.reread? room with
    | none => rfl
    | some value =>
      simp only [Option.map_some, Option.bind_some, Option.map_map]
      rfl

theorem rereadFields?_thinned {fields : List (String × Json)}
    (h : ∀ field ∈ fields, field.2.thinned.reread? room =
      (field.2.reread? room).map fun value => value.thinned.merged) :
    rereadFields? room (thinnedFields fields) =
      (rereadFields? room fields).map fun read => mergedFields (thinnedFields read) := by
  induction fields with
  | nil => rfl
  | cons field fields ih =>
    obtain ⟨hfield, hfields⟩ := List.forall_mem_cons.mp h
    rw [thinnedFields, rereadFields?, rereadFields?, hfield, ih hfields]
    cases field.2.reread? room with
    | none => rfl
    | some value =>
      simp only [Option.map_some, Option.bind_some, Option.map_map]
      rfl

-- Thinned strings are read back as such. Keys that were different may meet,
-- and their fields are merged.
theorem reread?_thinned {json : Json} (h : json.DistinctKeys) (room : Nat) :
    json.thinned.reread? room = (json.reread? room).map fun value => value.thinned.merged := by
  induction h generalizing room with
  | null => rfl
  | bool value => rfl
  | number value =>
    rw [thinned, reread?, Option.map_map]
    rfl
  | string value => rfl
  | array h ih =>
    cases room with
    | zero => rfl
    | succ room =>
      rw [thinned, reread?, reread?, rereadItems?_thinned fun item hitem => ih item hitem room,
        Option.map_map, Option.map_map]
      rfl
  | object keys h ih =>
    cases room with
    | zero => rfl
    | succ room =>
      rw [thinned, reread?, reread?, rereadFields?_thinned fun field hfield => ih field hfield room,
        Option.map_map, Option.map_map]
      refine Option.map_congr fun read hread => ?_
      have hkeys := mergeFields_eq_self ((rereadFields?_eq_some_iff.mp hread).keys ▸ keys)
      simp only [Function.comp_apply, hkeys]
      rfl

end Rereading

end Json

end QueryPad
