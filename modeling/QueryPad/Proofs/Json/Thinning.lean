import QueryPad.Proofs.Json.Number
import QueryPad.Proofs.Json.Value
import QueryPad.Proofs.Regex.Escapes

-- Halving the escapes of a printed value gives a printed value again: the one
-- whose strings and keys are thinned.
namespace QueryPad.Json

open Regex

def thinText (text : String) : String := .ofList (thin text.toList)

mutual

def thinned : Json → Json
  | null => null
  | bool value => bool value
  | number value => number value
  | string value => string (thinText value)
  | array items => array (thinnedItems items)
  | object fields => object (thinnedFields fields)

def thinnedItems : List Json → List Json
  | [] => []
  | item :: items => item.thinned :: thinnedItems items

def thinnedFields : List (String × Json) → List (String × Json)
  | [] => []
  | (key, field) :: fields => (thinText key, field.thinned) :: thinnedFields fields

end

theorem thinnedItems_eq (items : List Json) : thinnedItems items = items.map thinned := by
  induction items with
  | nil => rfl
  | cons item items ih => rw [thinnedItems, ih, List.map_cons]

theorem thinnedFields_eq (fields : List (String × Json)) :
    thinnedFields fields = fields.map fun field => (thinText field.1, field.2.thinned) := by
  induction fields with
  | nil => rfl
  | cons field fields ih => rw [thinnedFields, ih, List.map_cons]

theorem thinText_eq_self_iff (text : String) :
    thinText text = text ↔ ∀ c, ['\\', '\\', c] <:+: text.toList → ¬ isSoft c := by
  rw [← thin_eq_self_iff, thinText, ← String.toList_inj, String.toList_ofList]

mutual

-- The strings of a value, and the keys of its objects.
def texts : Json → List String
  | string value => [value]
  | array items => textsOfItems items
  | object fields => textsOfFields fields
  | _ => []

def textsOfItems : List Json → List String
  | [] => []
  | item :: items => item.texts ++ textsOfItems items

def textsOfFields : List (String × Json) → List String
  | [] => []
  | (key, field) :: fields => key :: (field.texts ++ textsOfFields fields)

end

theorem mem_textsOfItems {items : List Json} {text : String} :
    text ∈ textsOfItems items ↔ ∃ item ∈ items, text ∈ item.texts := by
  induction items with
  | nil => simp [textsOfItems]
  | cons item items ih => simp [textsOfItems, ih]

theorem mem_textsOfFields {fields : List (String × Json)} {text : String} :
    text ∈ textsOfFields fields ↔ ∃ field ∈ fields, text = field.1 ∨ text ∈ field.2.texts := by
  induction fields with
  | nil => simp [textsOfFields]
  | cons field fields ih => simp [textsOfFields, ih, or_assoc]

-- A value without two backslashes before a soft character.
def SparesEscapes (json : Json) : Prop := ∀ text ∈ json.texts, thinText text = text

theorem thinned_eq_self {json : Json} (h : json.SparesEscapes) : json.thinned = json := by
  induction json using induct with
  | string value => rw [thinned, h value (by simp [texts])]
  | array items ih =>
    have hitems : ∀ item ∈ items, item.thinned = item := fun item hitem =>
      ih item hitem fun text htext => h text (mem_textsOfItems.mpr ⟨item, hitem, htext⟩)
    rw [thinned, thinnedItems_eq, List.map_congr_left hitems, List.map_id']
  | object fields ih =>
    have hfields : fields.map (fun field => (thinText field.1, field.2.thinned)) = fields := by
      refine (List.map_congr_left (g := id) fun field hfield => Prod.ext ?_ ?_).trans
        (List.map_id _)
      · exact h field.1 (mem_textsOfFields.mpr ⟨field, hfield, .inl rfl⟩)
      · exact ih field hfield fun text htext =>
          h text (mem_textsOfFields.mpr ⟨field, hfield, .inr htext⟩)
    rw [thinned, thinnedFields_eq, hfields]
  | _ => rfl

section Printing

theorem toList_quote (text : String) :
    (quote text).toList = '"' :: (text.toList.flatMap escape ++ ['"']) := by
  rw [quote, String.toList_ofList, List.cons_append]

-- What stands behind an item or a field that is not the last.
def itemsBehind (items : List Json) : List Char :=
  items.flatMap fun item => ',' :: item.render.toList

def fieldChars (field : String × Json) : List Char :=
  (quote field.1).toList ++ ':' :: field.2.render.toList

def fieldsBehind (fields : List (String × Json)) : List Char :=
  fields.flatMap fun field => ',' :: fieldChars field

@[simp] theorem itemsBehind_nil : itemsBehind [] = [] := rfl

@[simp] theorem fieldsBehind_nil : fieldsBehind [] = [] := rfl

@[simp] theorem itemsBehind_cons (item : Json) (items : List Json) :
    itemsBehind (item :: items) = ',' :: (item.render.toList ++ itemsBehind items) := rfl

@[simp] theorem fieldsBehind_cons (field : String × Json) (fields : List (String × Json)) :
    fieldsBehind (field :: fields) = ',' :: (fieldChars field ++ fieldsBehind fields) := rfl

theorem toList_renderItems (item : Json) (items : List Json) :
    (renderItems (item :: items)).toList = item.render.toList ++ itemsBehind items := by
  induction items generalizing item with
  | nil => simp [renderItems]
  | cons next items ih => simp [renderItems, ih]

theorem toList_renderFields (field : String × Json) (fields : List (String × Json)) :
    (renderFields (field :: fields)).toList = fieldChars field ++ fieldsBehind fields := by
  induction fields generalizing field with
  | nil => simp [renderFields, fieldChars]
  | cons next fields ih =>
    rw [renderFields, String.toList_append, ih]
    simp [fieldChars]

theorem toList_string (text : String) :
    (string text).render.toList = '"' :: (text.toList.flatMap escape ++ ['"']) := by
  rw [render, toList_quote]

theorem toList_array_cons (item : Json) (items : List Json) :
    (array (item :: items)).render.toList =
      '[' :: (item.render.toList ++ (itemsBehind items ++ [']'])) := by
  rw [render, String.toList_append, String.toList_append, toList_renderItems]
  simp

theorem toList_object_cons (field : String × Json) (fields : List (String × Json)) :
    (object (field :: fields)).render.toList =
      '{' :: (fieldChars field ++ (fieldsBehind fields ++ ['}'])) := by
  rw [render, String.toList_append, String.toList_append, toList_renderFields]
  simp

end Printing

section Halving

theorem halveEscapes_quote (text : String) (rest : List Char) :
    halveEscapes ((quote text).toList ++ rest) =
      (quote (thinText text)).toList ++ halveEscapes rest := by
  rw [toList_quote, toList_quote, thinText, String.toList_ofList, List.cons_append,
    halveEscapes_cons (by decide), List.append_assoc, List.singleton_append, halveEscapes_body]
  simp

theorem halveEscapes_number (number : JsonNumber) (rest : List Char) :
    halveEscapes (number.render.toList ++ rest) = number.render.toList ++ halveEscapes rest := by
  refine halveEscapes_append fun h => ?_
  have := JsonNumber.mem_render h
  revert this
  decide

-- What is shown of the text of each value.
def Halves (json : Json) : Prop :=
  ∀ rest, halveEscapes (json.render.toList ++ rest) =
    json.thinned.render.toList ++ halveEscapes rest

theorem halveEscapes_field {field : String × Json} (h : field.2.Halves) (rest : List Char) :
    halveEscapes (fieldChars field ++ rest) =
      fieldChars (thinText field.1, field.2.thinned) ++ halveEscapes rest := by
  rw [fieldChars, fieldChars, List.append_assoc, halveEscapes_quote, List.cons_append,
    halveEscapes_cons (by decide), h]
  simp

theorem halveEscapes_itemsBehind {items : List Json} (h : ∀ item ∈ items, item.Halves)
    (rest : List Char) :
    halveEscapes (itemsBehind items ++ rest) =
      itemsBehind (thinnedItems items) ++ halveEscapes rest := by
  induction items with
  | nil => rfl
  | cons item items ih =>
    obtain ⟨hitem, hitems⟩ := List.forall_mem_cons.mp h
    rw [thinnedItems, itemsBehind_cons, itemsBehind_cons, List.cons_append,
      halveEscapes_cons (by decide), List.append_assoc, hitem, ih hitems]
    simp

theorem halveEscapes_fieldsBehind {fields : List (String × Json)}
    (h : ∀ field ∈ fields, field.2.Halves) (rest : List Char) :
    halveEscapes (fieldsBehind fields ++ rest) =
      fieldsBehind (thinnedFields fields) ++ halveEscapes rest := by
  induction fields with
  | nil => rfl
  | cons field fields ih =>
    obtain ⟨hfield, hfields⟩ := List.forall_mem_cons.mp h
    rw [thinnedFields, fieldsBehind_cons, fieldsBehind_cons, List.cons_append,
      halveEscapes_cons (by decide), List.append_assoc, halveEscapes_field hfield, ih hfields]
    simp

theorem halves (json : Json) : json.Halves := by
  induction json using induct with
  | null => exact fun rest => halveEscapes_append (by decide)
  | bool value => cases value <;> exact fun rest => halveEscapes_append (by decide)
  | number value => exact halveEscapes_number value
  | string value => exact halveEscapes_quote value
  | array items ih =>
    cases items with
    | nil => exact fun rest => halveEscapes_append (by decide)
    | cons item items =>
      intro rest
      obtain ⟨hitem, hitems⟩ := List.forall_mem_cons.mp ih
      rw [thinned, thinnedItems, toList_array_cons, toList_array_cons, List.cons_append,
        halveEscapes_cons (by decide), List.append_assoc, hitem, List.append_assoc,
        halveEscapes_itemsBehind hitems, List.singleton_append, halveEscapes_cons (by decide)]
      simp
  | object fields ih =>
    cases fields with
    | nil => exact fun rest => halveEscapes_append (by decide)
    | cons field fields =>
      intro rest
      obtain ⟨hfield, hfields⟩ := List.forall_mem_cons.mp ih
      rw [thinned, thinnedFields, toList_object_cons, toList_object_cons, List.cons_append,
        halveEscapes_cons (by decide), List.append_assoc, halveEscapes_field hfield,
        List.append_assoc, halveEscapes_fieldsBehind hfields, List.singleton_append,
        halveEscapes_cons (by decide)]
      simp

-- The text that is read back is the one of the thinned value.
theorem halveEscapes_render (json : Json) :
    halveEscapes json.render.toList = json.thinned.render.toList := by
  simpa [halveEscapes] using json.halves []

end Halving

end QueryPad.Json
