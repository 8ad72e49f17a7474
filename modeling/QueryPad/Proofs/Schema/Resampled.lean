import Mathlib.Data.List.Forall2
import QueryPad.Proofs.Schema.Query
import QueryPad.Schema.Query

-- How often documents are sampled, and in which order, matters only for the
-- order in which types are told.
namespace QueryPad.Schema

section Seen

variable {seen others more : List (FieldPath × BsonKind)} {path : FieldPath}

theorem mem_kindsAt {kind : BsonKind} : kind ∈ kindsAt seen path ↔ (path, kind) ∈ seen := by
  rw [kindsAt, List.mem_eraseDups]
  simp

theorem nodup_addKind {kinds : List BsonKind} (h : kinds.Nodup) (kind : BsonKind) :
    (FieldMap.addKind kinds kind).Nodup := by
  rw [FieldMap.addKind]
  split
  · exact h
  · next hnew =>
    have hkind : kind ∉ kinds := fun hmem => hnew (List.contains_iff_mem.mpr hmem)
    exact List.nodup_append.mpr ⟨h, by simp, by grind⟩

theorem nodup_kindsAt (seen : List (FieldPath × BsonKind)) (path : FieldPath) :
    (kindsAt seen path).Nodup := by
  induction seen using List.reverseRecOn with
  | nil => exact .nil
  | append_singleton seen field ih =>
    rw [kindsAt_append_singleton]
    split
    · exact nodup_addKind ih field.2
    · exact ih

theorem kindsAt_perm (h : ∀ field, field ∈ seen ↔ field ∈ others) (path : FieldPath) :
    (kindsAt seen path).Perm (kindsAt others path) := by
  refine (List.perm_ext_iff_of_nodup (nodup_kindsAt _ _) (nodup_kindsAt _ _)).mpr fun kind => ?_
  rw [mem_kindsAt, mem_kindsAt, h]

theorem kindsAt_append (h : ∀ field ∈ more, field ∈ seen) (path : FieldPath) :
    kindsAt (seen ++ more) path = kindsAt seen path := by
  induction more using List.reverseRecOn with
  | nil => rw [List.append_nil]
  | append_singleton more field ih =>
    obtain ⟨hmore, hfield⟩ := List.forall_mem_append.mp h
    rw [← List.append_assoc, kindsAt_append_singleton, ih hmore]
    split
    · next hpath =>
      have hkind : field.2 ∈ kindsAt seen path :=
        mem_kindsAt.mpr (hpath ▸ hfield field (List.mem_singleton_self field))
      rw [FieldMap.addKind, if_pos (List.contains_iff_mem.mpr hkind)]
    · rfl

namespace FieldMap

-- The same paths, each with the same kinds in whatever order.
def SameFields : FieldMap → FieldMap → Prop :=
  List.Forall₂ fun field other => field.1 = other.1 ∧ field.2.Perm other.2

theorem ofSeen_eq_map (seen : List (FieldPath × BsonKind)) :
    ofSeen seen = ((ofSeen seen).map (·.1)).map fun path => (path, kindsAt seen path) := by
  rw [List.map_map]
  refine (List.map_id _).symm.trans (List.map_congr_left fun field hfield => Prod.ext rfl ?_)
  have hlookup := (mem_iff_lookup (isSorted_ofSeen seen).nodup).mp hfield
  rw [lookup_ofSeen] at hlookup
  exact (Option.some.inj (Option.ite_none_left_eq_some.mp hlookup).2).symm

theorem paths_ofSeen_eq (h : ∀ field, field ∈ seen ↔ field ∈ others) :
    (ofSeen seen).map (·.1) = (ofSeen others).map (·.1) := by
  have hpaths : ((ofSeen seen).map (·.1)).Perm ((ofSeen others).map (·.1)) := by
    refine (List.perm_ext_iff_of_nodup (isSorted_ofSeen _).nodup (isSorted_ofSeen _).nodup).mpr
      fun path => ?_
    rw [mem_paths_ofSeen, mem_paths_ofSeen]
    simp only [List.mem_map, h]
  exact hpaths.eq_of_pairwise
    (fun path other _ _ hlt hgt => absurd (List.lt_trans hlt hgt) (List.lt_irrefl path))
    (isSorted_ofSeen seen) (isSorted_ofSeen others)

theorem ofSeen_sameFields (h : ∀ field, field ∈ seen ↔ field ∈ others) :
    SameFields (ofSeen seen) (ofSeen others) := by
  rw [ofSeen_eq_map seen, ofSeen_eq_map others, paths_ofSeen_eq h]
  exact List.forall₂_map_left_iff.mpr (List.forall₂_map_right_iff.mpr
    (List.forall₂_same.mpr fun path _ => ⟨rfl, kindsAt_perm h path⟩))

theorem ofSeen_append (h : ∀ field ∈ more, field ∈ seen) : ofSeen (seen ++ more) = ofSeen seen := by
  have hseen (field : FieldPath × BsonKind) : field ∈ seen ++ more ↔ field ∈ seen := by
    rw [List.mem_append]
    exact or_iff_left_of_imp (h field)
  rw [ofSeen_eq_map, ofSeen_eq_map seen, paths_ofSeen_eq hseen]
  exact List.map_congr_left fun path _ => congrArg (path, ·) (kindsAt_append h path)

theorem SameFields.dropWhile {fields others : FieldMap} (h : SameFields fields others)
    (first : FieldPath) :
    SameFields (fields.dropWhile fun (key, _) => key < first)
      (others.dropWhile fun (key, _) => key < first) := by
  induction h with
  | nil => exact .nil
  | @cons field other fields others hfield hfields ih =>
    obtain ⟨path, kinds⟩ := field
    obtain ⟨path', kinds'⟩ := other
    obtain ⟨rfl, hkinds⟩ : path = path' ∧ kinds.Perm kinds' := hfield
    by_cases hlt : path < first
    · simpa [hlt] using ih
    · have hhead : SameFields ((path, kinds) :: fields) ((path, kinds') :: others) :=
        .cons ⟨rfl, hkinds⟩ hfields
      simpa [hlt] using hhead

end FieldMap

end Seen

-- Schemas that differ at most in the order in which types are told. At every
-- level they have the same properties in the same order.
inductive Alike : Json → Json → Prop where
  | same (schema : Json) : Alike schema schema
  | query {inside others : List (String × Json)}
      (names : inside.map (·.1) = others.map (·.1))
      (values : List.Forall₂ Alike (inside.map (·.2)) (others.map (·.2))) :
      Alike (.object [("type", .string "object"), ("properties", .object inside)])
        (.object [("type", .string "object"), ("properties", .object others)])
  | field (path : String) {types types' kinds kinds' : List String}
      {inside others : List (String × Json)} (htypes : types.Perm types')
      (hkinds : kinds.Perm kinds') (names : inside.map (·.1) = others.map (·.1))
      (values : List.Forall₂ Alike (inside.map (·.2)) (others.map (·.2))) :
      Alike
        (.object [("type", .ofStrings types),
          ("description", .string (path ++ " (" ++ ", ".intercalate kinds ++ ")")),
          ("properties", .object inside)])
        (.object [("type", .ofStrings types'),
          ("description", .string (path ++ " (" ++ ", ".intercalate kinds' ++ ")")),
          ("properties", .object others)])

section Schemas

variable {inside others more moreOthers : List (String × Json)}

theorem values_of_fieldsMatch (h : FieldsMatch Alike inside others) :
    List.Forall₂ Alike (inside.map (·.2)) (others.map (·.2)) :=
  List.forall₂_map_left_iff.mpr (List.forall₂_map_right_iff.mpr (h.imp fun _ _ hfield => hfield.2))

theorem fieldsMatch_same (fields : List (String × Json)) : FieldsMatch Alike fields fields :=
  List.forall₂_same.mpr fun field _ => ⟨rfl, .same field.2⟩

theorem setAll_match (h : FieldsMatch Alike inside others)
    (hmore : FieldsMatch Alike more moreOthers) :
    FieldsMatch Alike (setAll inside more) (setAll others moreOthers) := by
  induction hmore generalizing inside others with
  | nil => exact h
  | @cons field other more moreOthers hfield _ ih =>
    obtain ⟨key, value⟩ := field
    obtain ⟨key', value'⟩ := other
    obtain ⟨rfl, hvalue⟩ : key = key' ∧ Alike value value' := hfield
    exact ih (h.setField key hvalue)

end Schemas

section Types

variable {kinds kinds' : List BsonKind}

theorem jsonTypes_append_singleton (kinds : List BsonKind) (kind : BsonKind) :
    jsonTypes (kinds ++ [kind]) = jsonTypes.addType (jsonTypes kinds) (jsonType kind) := by
  rw [jsonTypes, List.foldl_append]
  rfl

theorem mem_jsonTypes {type : String} :
    type ∈ jsonTypes kinds ↔ ∃ kind ∈ kinds, jsonType kind = type := by
  induction kinds using List.reverseRecOn with
  | nil => simp [jsonTypes]
  | append_singleton kinds kind ih =>
    rw [jsonTypes_append_singleton, jsonTypes.addType]
    split
    · next hold =>
      have hknown : jsonType kind ∈ jsonTypes kinds := List.contains_iff_mem.mp hold
      grind
    · grind

theorem nodup_jsonTypes (kinds : List BsonKind) : (jsonTypes kinds).Nodup := by
  induction kinds using List.reverseRecOn with
  | nil => exact .nil
  | append_singleton kinds kind ih =>
    rw [jsonTypes_append_singleton, jsonTypes.addType]
    split
    · exact ih
    · next hnew =>
      have htype : jsonType kind ∉ jsonTypes kinds := fun hmem =>
        hnew (List.contains_iff_mem.mpr hmem)
      exact List.nodup_append.mpr ⟨ih, by simp, by grind⟩

theorem jsonTypes_perm (h : kinds.Perm kinds') : (jsonTypes kinds).Perm (jsonTypes kinds') := by
  refine (List.perm_ext_iff_of_nodup (nodup_jsonTypes _) (nodup_jsonTypes _)).mpr fun type => ?_
  simp only [mem_jsonTypes, h.mem_iff]

theorem operators_eq {types types' : List String} (h : types.Perm types') :
    operators types = operators types' := by
  have hcontains (type : String) : types.contains type = types'.contains type := by
    rw [Bool.eq_iff_iff, List.contains_iff_mem, List.contains_iff_mem, h.mem_iff]
  rw [operators, operators, hcontains, hcontains]

end Types

section Fields

open FieldMap

variable {path : FieldPath} {kinds kinds' : List BsonKind} {inside others : List (String × Json)}

theorem fieldObject_alike (hkinds : kinds.Perm kinds') (h : FieldsMatch Alike inside others) :
    Alike (fieldObject path kinds inside) (fieldObject path kinds' others) := by
  have htypes := jsonTypes_perm hkinds
  have hobject : (jsonTypes kinds).contains "object" = (jsonTypes kinds').contains "object" := by
    rw [Bool.eq_iff_iff, List.contains_iff_mem, List.contains_iff_mem, htypes.mem_iff]
  have hinside := setAll_match (fieldsMatch_same (operators (jsonTypes kinds))) h
  rw [operators_eq htypes] at hinside
  rw [fieldObject, fieldObject, hobject, operators_eq htypes]
  refine .field _ ?_ (hkinds.map _) hinside.keys (values_of_fieldsMatch hinside)
  split
  · exact htypes
  · exact htypes.append_right _

mutual

theorem fieldSchema_alike {path : FieldPath} {kinds kinds' : List BsonKind}
    {later later' : FieldMap} (hkinds : kinds.Perm kinds') (hlater : SameFields later later') :
    Alike (fieldSchema path kinds later) (fieldSchema path kinds' later') := by
  rw [fieldSchema, fieldSchema]
  exact fieldObject_alike hkinds (fieldsBelow_match _ (hlater.dropWhile _))
termination_by (later.length, 1)
decreasing_by
  rcases Nat.lt_or_eq_of_le (List.dropWhile_sublist
    (fun (key, _) => decide (key < path ++ ['.'])) (l := later)).length_le with h | h
  · exact Prod.Lex.left _ _ h
  · rw [h]
    exact Prod.Lex.right _ (by decide)

theorem fieldsBelow_match (first : FieldPath) {later later' : FieldMap}
    (hlater : SameFields later later') :
    FieldsMatch Alike (fieldsBelow first later) (fieldsBelow first later') := by
  cases hlater with
  | nil =>
    rw [fieldsBelow]
    exact .nil
  | @cons field other rest rest' hfield hrest =>
    obtain ⟨path, kinds⟩ := field
    obtain ⟨path', kinds'⟩ := other
    obtain ⟨rfl, hkinds⟩ : path = path' ∧ kinds.Perm kinds' := hfield
    rw [fieldsBelow, fieldsBelow]
    cases after? first path with
    | none => exact .nil
    | some name =>
      dsimp only
      split
      · exact fieldsBelow_match first hrest
      · exact .cons ⟨rfl, fieldSchema_alike hkinds hrest⟩ (fieldsBelow_match first hrest)
termination_by (later.length, 0)

end

theorem fieldSchemas_match {fields others : FieldMap} (h : SameFields fields others) :
    FieldsMatch Alike (fieldSchemas fields) (fieldSchemas others) := by
  induction h with
  | nil => exact .nil
  | @cons field other fields others hfield hfields ih =>
    obtain ⟨path, kinds⟩ := field
    obtain ⟨path', kinds'⟩ := other
    obtain ⟨rfl, hkinds⟩ : path = path' ∧ kinds.Perm kinds' := hfield
    exact .cons ⟨rfl, fieldSchema_alike hkinds hfields⟩ ih

theorem ofFields_alike {fields others : FieldMap} (h : SameFields fields others) :
    Alike (ofFields fields) (ofFields others) := by
  have hinside := setAll_match (fieldSchemas_match h) (fieldsMatch_same queryOperators)
  exact .query hinside.keys (values_of_fieldsMatch hinside)

end Fields

-- A document that is sampled again changes nothing, and the order of the samples
-- only that in which types are told.
theorem ofDocuments_resampled (documents : List (List (String × Bson))) :
    (∀ document ∈ documents, ofDocuments (documents ++ [document]) = ofDocuments documents) ∧
      ∀ others, documents.Perm others → Alike (ofDocuments documents) (ofDocuments others) := by
  constructor
  · intro document hdocument
    rw [ofDocuments, FieldMap.ofDocuments, List.flatMap_append, FieldMap.ofSeen_append]
    · rfl
    · intro field hfield
      rw [List.flatMap_singleton] at hfield
      exact List.mem_flatMap.mpr ⟨document, hdocument, hfield⟩
  · intro others hothers
    refine ofFields_alike (FieldMap.ofSeen_sameFields fun field => ?_)
    rw [List.mem_flatMap, List.mem_flatMap]
    simp only [hothers.mem_iff]

-- Two samples with values of several kinds at a path, and with a field that is
-- named as an operator is.
def objectSample : List (String × Bson) := [("a", .object [("$eq", .int 1)])]

def arraySample : List (String × Bson) := [("a", .array [.object [("$eq", .string "")]])]

theorem ofDocuments_resampled_kinds :
    arraySample ∈ [objectSample, arraySample] ∧
      ofDocuments [objectSample, arraySample, arraySample] =
        ofDocuments [objectSample, arraySample] ∧
      Alike (ofDocuments [objectSample, arraySample])
        (ofDocuments [arraySample, objectSample]) := by
  have hmem : arraySample ∈ [objectSample, arraySample] :=
    List.mem_cons_of_mem _ (List.mem_singleton_self _)
  obtain ⟨hagain, horder⟩ := ofDocuments_resampled [objectSample, arraySample]
  exact ⟨hmem, hagain arraySample hmem, horder _ (.swap _ _ _)⟩

end QueryPad.Schema
