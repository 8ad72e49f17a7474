import QueryPad.Completion.Property
import QueryPad.Proofs.Json.Value
import QueryPad.Proofs.Schema.Alternatives
import QueryPad.Proofs.Schema.Moved

-- The keys that are offered: each name once, and all names that the schemas
-- within reach know.
namespace QueryPad.Completion

open Text Schema

-- The names of the properties that a schema itself speaks of.
def propertyNames (schema : Json) : List String :=
  (((schema.field? "properties").bind Json.fields?).getD []).map (·.1)

section AddFirst

variable {known fields : List (String × Json)}

theorem names_addFirst (known : List (String × Json)) (field : String × Json) :
    (properties.addFirst known field).map (·.1) =
      if field.1 ∈ known.map (·.1) then known.map (·.1) else known.map (·.1) ++ [field.1] := by
  have hany : known.any (·.1 = field.1) ↔ field.1 ∈ known.map (·.1) := by
    simp only [List.any_eq_true, decide_eq_true_eq, List.mem_map]
  rw [properties.addFirst]
  by_cases h : field.1 ∈ known.map (·.1)
  · rw [if_pos (hany.mpr h), if_pos h]
  · rw [if_neg (mt hany.mp h), if_neg h, List.map_append, List.map_singleton]

theorem nodup_foldl_addFirst (h : (known.map (·.1)).Nodup) :
    ((fields.foldl properties.addFirst known).map (·.1)).Nodup := by
  induction fields generalizing known with
  | nil => exact h
  | cons field fields ih =>
    refine ih ?_
    rw [names_addFirst]
    split
    · exact h
    · next hnew => exact List.nodup_append.mpr ⟨h, by simp, by grind⟩

theorem mem_names_foldl_addFirst {name : String} :
    name ∈ (fields.foldl properties.addFirst known).map (·.1) ↔
      name ∈ known.map (·.1) ∨ name ∈ fields.map (·.1) := by
  induction fields generalizing known with
  | nil => simp
  | cons field fields ih =>
    rw [List.foldl_cons, ih, names_addFirst, List.map_cons, List.mem_cons]
    split
    · next hknown =>
      constructor
      · exact Or.imp_right .inr
      · rintro (h | rfl | h)
        · exact .inl h
        · exact .inl hknown
        · exact .inr h
    · rw [List.mem_append, List.mem_singleton, or_assoc]

end AddFirst

variable {root schema : Json}

theorem mem_names_properties {name : String} : name ∈ (properties root schema).map (·.1) ↔
    ∃ found ∈ alternatives root depthLimit schema, name ∈ propertyNames found := by
  rw [properties, mem_names_foldl_addFirst, List.map_flatMap, List.mem_flatMap]
  simp only [List.map_nil, List.not_mem_nil, false_or]
  rfl

theorem labels_propertyItems (range : Range) (quoted : Bool) :
    (propertyItems root schema range quoted).map (·.label) =
      (properties root schema).map (·.1) := by
  rw [propertyItems, List.map_map]
  rfl

-- The search for schemas comes to its end, also where references lead in circles
-- or nowhere. Each name is offered once, and exactly if a schema within reach has
-- a property of that name.
theorem propertyItems_labels (root schema : Json) (range : Range) (quoted : Bool) :
    (∃ turns, Search.run? root turns (.start schema) =
        some ⟨alternatives root depthLimit schema, []⟩) ∧
      ((propertyItems root schema range quoted).map (·.label)).Nodup ∧
      ∀ name, name ∈ (propertyItems root schema range quoted).map (·.label) ↔
        ∃ depth ≤ 16, ∃ found, Reaches root depth schema found ∧ name ∈ propertyNames found := by
  rw [labels_propertyItems]
  refine ⟨⟨_, Search.run?_start root schema⟩, nodup_foldl_addFirst .nil, fun name => ?_⟩
  rw [mem_names_properties]
  constructor
  · rintro ⟨found, hfound, hname⟩
    obtain ⟨depth, hdepth, hreach⟩ := mem_alternatives_iff.mp hfound
    exact ⟨depth, hdepth, found, hreach, hname⟩
  · rintro ⟨depth, hdepth, found, hreach, hname⟩
    exact ⟨found, mem_alternatives_iff.mpr ⟨depth, hdepth, hreach⟩, hname⟩

-- A reference to the whole, which is a combination, and one that leads nowhere.
example : (propertyItems (.object [("anyOf", .array [.object [("$ref", .string "#")],
      .object [("$ref", .string "#/none"), ("properties", .object [("a", .null)])]])])
    (.object [("$ref", .string "#")]) ⟨⟨0, 0⟩, ⟨0, 0⟩⟩ false).map (·.label) = ["a"] := by
  rfl

end QueryPad.Completion

-- A stage of a pipeline that filters documents is completed as a query is.
namespace QueryPad

open Text

namespace Completion

open Schema

section Moved

variable {base : String} {root whole schema moved : Json}

theorem typeDetail_moved (h : Moved base schema moved) : typeDetail moved = typeDetail schema := by
  rw [typeDetail, typeDetail, h.field?_of_ne "type" (by decide)]
  cases schema.field? "type" with
  | none => rfl
  | some value =>
    cases value with
    | array names =>
      have hstring : Json.string? ∘ rebase base = Json.string? := funext string?_rebase
      simp only [Option.map_some, rebase, rebaseItems_eq_map, List.filterMap_map, hstring]
    | _ => rfl

theorem addFirst_moved {known others : List (String × Json)} {field other : String × Json}
    (hknown : FieldsMatch (Moved base) known others) (hname : field.1 = other.1)
    (hvalue : Moved base field.2 other.2) :
    FieldsMatch (Moved base) (properties.addFirst known field)
      (properties.addFirst others other) := by
  have hany : others.any (·.1 = other.1) = known.any (·.1 = field.1) := by
    have hkeys := congrArg (List.any · (· = other.1)) hknown.keys.symm
    rw [List.any_map, List.any_map] at hkeys
    rw [hname]
    exact hkeys
  rw [properties.addFirst, properties.addFirst, hany]
  split
  · exact hknown
  · exact List.rel_append hknown (.cons ⟨hname, hvalue⟩ .nil)

variable (hroots : StandsBelow base root whole)

include hroots

theorem propertyItem_moved (range : Range) (quoted : Bool) (name : String)
    (h : Moved base schema moved) :
    propertyItem whole range quoted name moved = propertyItem root range quoted name schema := by
  have hresolved := h.resolve hroots
  have hdescription : ((resolve whole moved).field? "description").bind Json.string? =
      ((resolve root schema).field? "description").bind Json.string? := by
    rw [hresolved.field?_of_ne "description" (by decide)]
    cases (resolve root schema).field? "description" with
    | none => rfl
    | some value => exact string?_rebase value
  simp only [propertyItem, typeDetail_moved hresolved, hdescription]

theorem properties_moved (h : Moved base schema moved) :
    FieldsMatch (Moved base) (properties root schema) (properties whole moved) := by
  have hfields {alternative other : Json} (h : Moved base alternative other) :
      FieldsMatch (Moved base)
        (((alternative.field? "properties").bind Json.fields?).getD [])
        (((other.field? "properties").bind Json.fields?).getD []) := by
    rw [h.field?_of_ne "properties" (by decide)]
    cases alternative.field? "properties" with
    | none => exact .nil
    | some value =>
      cases value with
      | object fields =>
        simp only [Option.map_some, Option.bind_some, rebase, Json.fields?, Option.getD_some,
          rebaseFields_eq_map]
        exact List.forall₂_map_right_iff.mpr (List.forall₂_same.mpr fun field _ =>
          ⟨rfl, movedField_moved base field.1 field.2⟩)
      | _ => exact .nil
  have hfound := List.rel_flatMap (h.alternatives hroots depthLimit) fun _ _ => hfields
  exact List.rel_foldl (P := FieldsMatch (Moved base))
    (fun _ _ hknown _ _ hfield => addFirst_moved hknown hfield.1 hfield.2) .nil hfound

-- The items are the very same.
theorem propertyItems_moved (range : Range) (quoted : Bool) (h : Moved base schema moved) :
    propertyItems whole moved range quoted = propertyItems root schema range quoted := by
  have hproperties := properties_moved hroots h
  rw [propertyItems, propertyItems]
  generalize properties root schema = known at hproperties ⊢
  generalize properties whole moved = others at hproperties ⊢
  induction hproperties with
  | nil => rfl
  | @cons property other _ _ hhead _ ih =>
    obtain ⟨name, value⟩ := property
    obtain ⟨_, moved⟩ := other
    obtain ⟨rfl, hmoved⟩ := hhead
    exact congrArg₂ List.cons (propertyItem_moved hroots range quoted name hmoved) ih

end Moved

-- In a stage that filters documents, what is found along a path is what is found
-- along it in the schema of the queries.
theorem propertyItems_match (documents : List (List (String × Bson))) (path : List Step)
    (range : Range) (quoted : Bool) :
    (along? (pipelineOf (ofDocuments documents)) (.item :: .key "$match" :: path)).map
        (propertyItems (pipelineOf (ofDocuments documents)) · range quoted) =
      (along? (ofDocuments documents) path).map
        (propertyItems (ofDocuments documents) · range quoted) := by
  have hpath := Moved.along? (standsBelow_pipelineOf (ofDocuments documents)) path
    (.schema (ofDocuments documents))
  rw [along?_match _ rfl, along?]
  generalize (path.foldlM _ _ : Option Json) = found at hpath ⊢
  generalize (path.foldlM _ _ : Option Json) = other at hpath ⊢
  cases hpath with
  | none => rfl
  | some h => exact congrArg some (propertyItems_moved (standsBelow_pipelineOf _) range quoted h)

end Completion

end QueryPad
