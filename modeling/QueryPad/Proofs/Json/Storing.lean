import Mathlib
import QueryPad.Bson.Extended
import QueryPad.Proofs.Json.Layout

-- What is stored for JSON: item by item and field by field, but for the objects
-- that stand for something else.
namespace QueryPad

namespace Bson

section Reading

variable {fields : List (String × Json)} {result : Except ValueError Bson}

-- An object that stands for another value holds strings, or it is a date.
theorem readWrapped?_cases (h : readWrapped? fields = some result) :
    (∀ field ∈ fields, ∃ text, field.2 = .string text) ∨
      ∃ moment, fields = [("$date", moment)] ∧ result = readDate moment := by
  unfold readWrapped? at h
  split at h
  · exact .inl (by simp)
  · exact .inr ⟨_, rfl, (Option.some.inj h).symm⟩
  · exact .inl (by simp)
  · exact .inl (by simp)
  · exact .inl (by simp)
  · contradiction

-- Only the marker keys make an object stand for something else.
theorem readWrapped?_eq_none (h : ∀ field ∈ fields, field.1 ∉ Json.markerKeys) :
    readWrapped? fields = none := by
  unfold readWrapped?
  split
  case h_6 => rfl
  all_goals simp [Json.markerKeys] at h

theorem eq_date_of_readDate {moment : Json} {value : Bson} (h : readDate moment = .ok value) :
    ∃ millis, value = .date millis := by
  unfold readDate at h
  split at h
  · cases h
    exact ⟨_, rfl⟩
  · contradiction

theorem itemsOfJson_eq_ok_iff {items : List Json} {values : List Bson} :
    itemsOfJson items = .ok values ↔
      List.Forall₂ (fun item value => ofJson item = .ok value) items values := by
  constructor
  · intro h
    induction items generalizing values with
    | nil =>
      cases h
      exact .nil
    | cons item items ih =>
      simp only [itemsOfJson, bind, Except.bind] at h
      split at h
      · contradiction
      · next value hvalue =>
        split at h
        · contradiction
        · next more hmore =>
          cases h
          exact .cons hvalue (ih hmore)
  · intro h
    induction h with
    | nil => rfl
    | cons hitem _ ih =>
      rw [itemsOfJson, hitem, ih]
      rfl

theorem fieldsOfJson_eq_ok_iff {values : List (String × Bson)} :
    fieldsOfJson fields = .ok values ↔
      FieldsMatch (fun field value => ofJson field = .ok value) fields values := by
  constructor
  · intro h
    induction fields generalizing values with
    | nil =>
      cases h
      exact .nil
    | cons field fields ih =>
      simp only [fieldsOfJson, bind, Except.bind] at h
      split at h
      · contradiction
      · next value hvalue =>
        split at h
        · contradiction
        · next more hmore =>
          cases h
          exact .cons ⟨rfl, hvalue⟩ (ih hmore)
  · intro h
    induction h with
    | nil => rfl
    | @cons field value fields values hfield _ ih =>
      obtain ⟨key, field⟩ := field
      obtain ⟨_, value⟩ := value
      obtain ⟨rfl, hvalue⟩ : key = _ ∧ ofJson field = .ok value := hfield
      rw [fieldsOfJson, hvalue, ih]
      rfl

end Reading

end Bson

namespace Json

open Number

mutual

-- The value that is stored. Integers take the narrowest type, and a repeated key
-- keeps its first place and takes its last value.
def image : Json → Bson
  | null => .null
  | bool value => .bool value
  | number (.integer value) => if -2 ^ 31 ≤ value ∧ value < 2 ^ 31 then .int value else .long value
  | number (.double value) => .double value
  | string value => .string value
  | array items => .array (imageOfItems items)
  | object fields => .object (mergeFields (imageOfFields fields))

def imageOfItems : List Json → List Bson
  | [] => []
  | item :: items => item.image :: imageOfItems items

def imageOfFields : List (String × Json) → List (String × Bson)
  | [] => []
  | (key, field) :: fields => (key, field.image) :: imageOfFields fields

end

theorem imageOfItems_eq (items : List Json) : imageOfItems items = items.map image := by
  induction items with
  | nil => rfl
  | cons item items ih => rw [imageOfItems, ih, List.map_cons]

theorem imageOfFields_eq (fields : List (String × Json)) :
    imageOfFields fields = fields.map fun field => (field.1, field.2.image) := by
  induction fields with
  | nil => rfl
  | cons field fields ih => rw [imageOfFields, ih, List.map_cons]

theorem ofJson_integer {value : Int} (low : -2 ^ 63 ≤ value) (high : value < 2 ^ 63) :
    Bson.ofJson (int value) = .ok (int value).image := by
  have hint : Bson.fitsInt value = decide (-2 ^ 31 ≤ value ∧ value < 2 ^ 31) := by
    rw [Bson.fitsInt, fitsSigned, Bool.decide_and]
    rfl
  have hlong : Bson.fitsLong value := by
    have hcount : wordCount (64 - 1) = 2 ^ 63 := rfl
    simp only [Bson.fitsLong, fitsSigned, Bool.and_eq_true, decide_eq_true_eq]
    omega
  rw [int, Bson.ofJson, image, Bson.ofNumber, Bson.ofInt, hint, if_pos hlong]
  simp only [decide_eq_true_eq]

-- A plain value is stored as what it is.
theorem IsPlain.ofJson_merged {json : Json} (h : json.IsPlain) :
    Bson.ofJson json.merged = .ok json.image := by
  induction h with
  | null => rfl
  | bool value => rfl
  | integer low high => exact ofJson_integer low high
  | string h => rfl
  | @array items h ih =>
    have hitems : Bson.itemsOfJson (mergedItems items) = .ok (imageOfItems items) := by
      rw [mergedItems_eq, imageOfItems_eq]
      exact Bson.itemsOfJson_eq_ok_iff.mpr (List.forall₂_map_left_iff.mpr
        (List.forall₂_map_right_iff.mpr (List.forall₂_same.mpr ih)))
    rw [Json.merged, Bson.ofJson, hitems]
    rfl
  | @object fields keys h ih =>
    have hfields : FieldsMatch (fun field value => Bson.ofJson field = .ok value)
        (mergedFields fields) (imageOfFields fields) := by
      rw [mergedFields_eq, imageOfFields_eq]
      exact List.forall₂_map_left_iff.mpr (List.forall₂_map_right_iff.mpr
        (List.forall₂_same.mpr fun field hfield => ⟨rfl, ih field hfield⟩))
    have hunwrapped : Bson.readWrapped? (mergeFields (mergedFields fields)) = none := by
      refine Bson.readWrapped?_eq_none fun field hfield => ?_
      obtain ⟨written, hwritten, rfl⟩ := exists_written hfield
      exact (keys written hwritten).2
    rw [Json.merged, Bson.ofJson, hunwrapped, Bson.fieldsOfJson_eq_ok_iff.mpr hfields.mergeFields]
    rfl

end Json

end QueryPad
