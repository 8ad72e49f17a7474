import Mathlib.Data.List.Induction
import QueryPad.Json.Value

-- Values by their items and fields, and fields by their keys.
namespace QueryPad

theorem forall₂_exists_left {α β : Type} {corresponds : α → β → Prop} {left : List α}
    {right : List β} (h : List.Forall₂ corresponds left right) {b : β} (hb : b ∈ right) :
    ∃ a ∈ left, corresponds a b := by
  induction h with
  | nil => contradiction
  | @cons a c left right hhead _ ih =>
    rcases List.mem_cons.mp hb with rfl | hb
    · exact ⟨a, by simp, hhead⟩
    · obtain ⟨a, ha, hab⟩ := ih hb
      exact ⟨a, by simp [ha], hab⟩

theorem forall₂_getElem? {α β : Type} {corresponds : α → β → Prop} {left : List α}
    {right : List β} (h : List.Forall₂ corresponds left right) {place : Nat} {a : α}
    (ha : left[place]? = some a) : ∃ b, right[place]? = some b ∧ corresponds a b := by
  induction h generalizing place with
  | nil => contradiction
  | @cons c b left right hhead _ ih =>
    cases place with
    | zero =>
      obtain rfl := Option.some.inj ha
      exact ⟨b, rfl, hhead⟩
    | succ place => exact ih ha

section Lookup

variable {κ α : Type} [BEq κ] [LawfulBEq κ] [DecidableEq κ]

theorem lookup_cons_ite (field : κ × α) (fields : List (κ × α)) (key : κ) :
    (field :: fields).lookup key = if key = field.1 then some field.2 else fields.lookup key := by
  obtain ⟨k, v⟩ := field
  by_cases h : key = k
  · simp [h]
  · have hne : (key == k) = false := by simpa using h
    simp [List.lookup_cons, hne, h]

theorem mem_iff_lookup {fields : List (κ × α)} (h : (fields.map (·.1)).Nodup) {key : κ}
    {value : α} : (key, value) ∈ fields ↔ fields.lookup key = some value := by
  induction fields with
  | nil => simp
  | cons field fields ih =>
    obtain ⟨k, v⟩ := field
    obtain ⟨hfield, hrest⟩ := List.nodup_cons.mp h
    rw [List.mem_cons, lookup_cons_ite, Prod.mk.injEq]
    by_cases hkey : key = k
    · subst hkey
      have hnot : (key, value) ∉ fields := fun hmem =>
        hfield (List.mem_map.mpr ⟨_, hmem, rfl⟩)
      simp [hnot, eq_comm]
    · simp [hkey, ih hrest]

end Lookup

section Fields

variable {α β : Type}

theorem setField_of_notMem {fields : List (String × α)} {key : String} {value : α}
    (h : key ∉ fields.map (·.1)) : setField fields key value = fields ++ [(key, value)] := by
  induction fields with
  | nil => rfl
  | cons field fields ih =>
    obtain ⟨k, v⟩ := field
    rw [List.map_cons, List.mem_cons, not_or] at h
    rw [setField, if_neg (Ne.symm h.1), ih h.2, List.cons_append]

theorem setField_map (f : α → β) (fields : List (String × α)) (key : String) (value : α) :
    setField (fields.map fun field => (field.1, f field.2)) key (f value) =
      (setField fields key value).map fun field => (field.1, f field.2) := by
  induction fields with
  | nil => rfl
  | cons field fields ih =>
    obtain ⟨k, v⟩ := field
    rw [List.map_cons, setField, setField]
    split
    · rfl
    · rw [ih, List.map_cons]

theorem mergeFields_append_singleton (fields : List (String × α)) (field : String × α) :
    mergeFields (fields ++ [field]) = setField (mergeFields fields) field.1 field.2 := by
  rw [mergeFields, List.foldl_append]
  rfl

theorem mergeFields_map (f : α → β) (fields : List (String × α)) :
    mergeFields (fields.map fun field => (field.1, f field.2)) =
      (mergeFields fields).map fun field => (field.1, f field.2) := by
  induction fields using List.reverseRecOn with
  | nil => rfl
  | append_singleton fields field ih =>
    rw [List.map_append, List.map_singleton, mergeFields_append_singleton, ih,
      mergeFields_append_singleton, setField_map]

theorem nodup_setField {fields : List (String × α)} (h : (fields.map (·.1)).Nodup) (key : String)
    (value : α) : ((setField fields key value).map (·.1)).Nodup := by
  rw [setField_keys]
  split
  · exact h
  · next hkey => exact List.nodup_append.mpr ⟨h, by simp, by grind⟩

-- No key is left twice.
theorem nodup_mergeFields (fields : List (String × α)) :
    ((mergeFields fields).map (·.1)).Nodup := by
  induction fields using List.reverseRecOn with
  | nil => exact List.nodup_nil
  | append_singleton fields field ih =>
    rw [mergeFields_append_singleton]
    exact nodup_setField ih field.1 field.2

theorem mergeFields_eq_self {fields : List (String × α)} (h : (fields.map (·.1)).Nodup) :
    mergeFields fields = fields := by
  induction fields using List.reverseRecOn with
  | nil => rfl
  | append_singleton fields field ih =>
    rw [List.map_append, List.map_singleton, List.nodup_append] at h
    rw [mergeFields_append_singleton, ih h.1]
    refine setField_of_notMem fun hmem => ?_
    exact h.2.2 _ hmem _ (by simp) rfl

theorem mem_setField {fields : List (String × α)} {key : String} {value : α} {field : String × α}
    (h : field ∈ setField fields key value) : field ∈ fields ∨ field = (key, value) := by
  induction fields with
  | nil => exact .inr (by simpa [setField] using h)
  | cons other fields ih =>
    obtain ⟨k, v⟩ := other
    rw [setField] at h
    split at h
    · rcases List.mem_cons.mp h with rfl | h
      · exact .inr rfl
      · exact .inl (List.mem_cons_of_mem _ h)
    · rcases List.mem_cons.mp h with rfl | h
      · exact .inl List.mem_cons_self
      · exact (ih h).imp_left (List.mem_cons_of_mem _)

theorem mem_setField_iff {fields : List (String × α)} {key name : String} {value other : α}
    (hname : name ≠ key) : (name, other) ∈ setField fields key value ↔ (name, other) ∈ fields := by
  induction fields with
  | nil => simp [setField, hname]
  | cons field fields ih =>
    obtain ⟨k, v⟩ := field
    rw [setField]
    split
    · next hkey => simp [hname, hkey]
    · rw [List.mem_cons, List.mem_cons, ih]

theorem lookup_setField (fields : List (String × α)) (key name : String) (value : α) :
    (setField fields key value).lookup name =
      if name = key then some value else fields.lookup name := by
  induction fields with
  | nil => rw [setField, lookup_cons_ite]
  | cons field fields ih =>
    obtain ⟨k, v⟩ := field
    rw [setField]
    split
    · next hkey =>
      subst hkey
      rw [lookup_cons_ite, lookup_cons_ite]
      split <;> rfl
    · next hkey =>
      rw [lookup_cons_ite, ih, lookup_cons_ite]
      by_cases hname : name = k
      · rw [if_pos hname, if_pos hname, if_neg fun hsame => hkey (hname.symm.trans hsame)]
      · rw [if_neg hname, if_neg hname]

theorem mem_of_mem_mergeFields {fields : List (String × α)} {field : String × α}
    (h : field ∈ mergeFields fields) : field ∈ fields := by
  induction fields using List.reverseRecOn with
  | nil => exact h
  | append_singleton fields last ih =>
    rw [mergeFields_append_singleton] at h
    rw [List.mem_append, List.mem_singleton]
    exact (mem_setField h).imp_left ih

-- Fields of the same keys in the same order, with values that correspond.
def FieldsMatch (corresponds : α → β → Prop) : List (String × α) → List (String × β) → Prop :=
  List.Forall₂ fun field other => field.1 = other.1 ∧ corresponds field.2 other.2

section Matching

variable {corresponds : α → β → Prop} {fields : List (String × α)} {others : List (String × β)}

theorem FieldsMatch.keys (h : FieldsMatch corresponds fields others) :
    fields.map (·.1) = others.map (·.1) := by
  induction h with
  | nil => rfl
  | cons hfield _ ih => rw [List.map_cons, List.map_cons, hfield.1, ih]

theorem FieldsMatch.setField (h : FieldsMatch corresponds fields others) (key : String) {value : α}
    {other : β} (hvalue : corresponds value other) :
    FieldsMatch corresponds (setField fields key value) (setField others key other) := by
  induction h with
  | nil => exact .cons ⟨rfl, hvalue⟩ .nil
  | @cons field other fields others hfield hfields ih =>
    obtain ⟨k, v⟩ := field
    obtain ⟨l, w⟩ := other
    obtain ⟨rfl, hvalues⟩ : k = l ∧ corresponds v w := hfield
    rw [QueryPad.setField, QueryPad.setField]
    split
    · exact .cons ⟨rfl, hvalue⟩ hfields
    · exact .cons ⟨rfl, hvalues⟩ ih

theorem FieldsMatch.mergeFields (h : FieldsMatch corresponds fields others) :
    FieldsMatch corresponds (mergeFields fields) (mergeFields others) := by
  have hfold : ∀ merged merged', FieldsMatch corresponds merged merged' →
      FieldsMatch corresponds
        (fields.foldl (fun merged field => QueryPad.setField merged field.1 field.2) merged)
        (others.foldl (fun merged field => QueryPad.setField merged field.1 field.2) merged') := by
    induction h with
    | nil => exact fun _ _ hmerged => hmerged
    | @cons field other fields others hfield hfields ih =>
      intro merged merged' hmerged
      obtain ⟨k, v⟩ := field
      obtain ⟨l, w⟩ := other
      obtain ⟨rfl, hvalues⟩ : k = l ∧ corresponds v w := hfield
      exact ih _ _ (hmerged.setField k hvalues)
  exact hfold [] [] .nil

theorem FieldsMatch.lookup (h : FieldsMatch corresponds fields others) {key : String} {value : α}
    (hvalue : fields.lookup key = some value) :
    ∃ other, others.lookup key = some other ∧ corresponds value other := by
  induction h with
  | nil => contradiction
  | @cons field other fields others hfield hfields ih =>
    obtain ⟨k, v⟩ := field
    obtain ⟨l, w⟩ := other
    obtain ⟨rfl, hvalues⟩ : k = l ∧ corresponds v w := hfield
    rw [List.lookup_cons] at hvalue ⊢
    split at hvalue
    · next hkey =>
      obtain rfl := Option.some.inj hvalue
      exact ⟨w, rfl, hvalues⟩
    · exact ih hvalue

end Matching

end Fields

namespace Json

-- A property of all values from that of what they hold.
theorem induct {holds : Json → Prop} (null : holds null) (bool : ∀ value, holds (bool value))
    (number : ∀ value, holds (number value)) (string : ∀ value, holds (string value))
    (array : ∀ items, (∀ item ∈ items, holds item) → holds (array items))
    (object : ∀ fields, (∀ field ∈ fields, holds field.2) → holds (object fields))
    (json : Json) : holds json :=
  @Json.rec holds (fun items => ∀ item ∈ items, holds item)
    (fun fields => ∀ field ∈ fields, holds field.2) (fun field => holds field.2)
    null bool number string array object
    (fun _ h => absurd h List.not_mem_nil)
    (fun _ _ hitem hitems => List.forall_mem_cons.mpr ⟨hitem, hitems⟩)
    (fun _ h => absurd h List.not_mem_nil)
    (fun _ _ hfield hfields => List.forall_mem_cons.mpr ⟨hfield, hfields⟩)
    (fun _ _ h => h) json

-- No object has a key twice.
inductive DistinctKeys : Json → Prop where
  | null : DistinctKeys null
  | bool (value : Bool) : DistinctKeys (bool value)
  | number (value : JsonNumber) : DistinctKeys (number value)
  | string (value : String) : DistinctKeys (string value)
  | array {items : List Json} (h : ∀ item ∈ items, DistinctKeys item) : DistinctKeys (array items)
  | object {fields : List (String × Json)} (keys : (fields.map (·.1)).Nodup)
    (h : ∀ field ∈ fields, DistinctKeys field.2) : DistinctKeys (object fields)

theorem DistinctKeys.object_mergeFields {fields : List (String × Json)}
    (h : ∀ field ∈ fields, field.2.DistinctKeys) :
    DistinctKeys (Json.object (mergeFields fields)) :=
  .object (nodup_mergeFields fields) fun field hfield => h field (mem_of_mem_mergeFields hfield)

mutual

-- The fields of every object merged.
def merged : Json → Json
  | null => null
  | bool value => bool value
  | number value => number value
  | string value => string value
  | array items => array (mergedItems items)
  | object fields => object (mergeFields (mergedFields fields))

def mergedItems : List Json → List Json
  | [] => []
  | item :: items => item.merged :: mergedItems items

def mergedFields : List (String × Json) → List (String × Json)
  | [] => []
  | (key, field) :: fields => (key, field.merged) :: mergedFields fields

end

theorem mergedItems_eq (items : List Json) : mergedItems items = items.map merged := by
  induction items with
  | nil => rfl
  | cons item items ih => rw [mergedItems, ih, List.map_cons]

theorem mergedFields_eq (fields : List (String × Json)) :
    mergedFields fields = fields.map fun field => (field.1, field.2.merged) := by
  induction fields with
  | nil => rfl
  | cons field fields ih => rw [mergedFields, ih, List.map_cons]

theorem merged_eq_self {json : Json} (h : json.DistinctKeys) : json.merged = json := by
  induction h with
  | array h ih => rw [merged, mergedItems_eq, List.map_congr_left ih, List.map_id']
  | @object fields keys h ih =>
    have hfields : fields.map (fun field => (field.1, field.2.merged)) = fields := by
      refine (List.map_congr_left (g := id) fun field hfield => ?_).trans (List.map_id _)
      exact Prod.ext rfl (ih field hfield)
    rw [merged, mergedFields_eq, hfields, mergeFields_eq_self keys]
  | _ => rfl

theorem distinctKeys_merged (json : Json) : json.merged.DistinctKeys := by
  induction json using induct with
  | null => exact .null
  | bool value => exact .bool value
  | number value => exact .number value
  | string value => exact .string value
  | array items ih =>
    rw [merged, mergedItems_eq]
    exact .array (List.forall_mem_map.mpr ih)
  | object fields ih =>
    rw [merged, mergedFields_eq]
    exact .object_mergeFields (List.forall_mem_map.mpr ih)

-- Keys are merged once.
theorem merged_merged (json : Json) : json.merged.merged = json.merged :=
  merged_eq_self (distinctKeys_merged json)

end Json

end QueryPad
