import Mathlib.Data.List.Basic
import QueryPad.Proofs.Json.Value
import QueryPad.Proofs.Schema.Sampled
import QueryPad.Schema.Fields
import QueryPad.Schema.Query

-- The fields that were seen, sorted by their paths, with the kinds of each in
-- the order in which they were seen first.
namespace QueryPad.Schema

-- The kinds seen at a path.
def kindsAt (seen : List (FieldPath × BsonKind)) (path : FieldPath) : List BsonKind :=
  ((seen.filter (·.1 = path)).map (·.2)).eraseDups

namespace FieldMap

theorem eraseDups_append_singleton (kinds : List BsonKind) (kind : BsonKind) :
    (kinds ++ [kind]).eraseDups = addKind kinds.eraseDups kind := by
  rw [List.eraseDups_append, addKind, List.removeAll]
  by_cases h : kind ∈ kinds
  · simp [h]
  · simp [h, List.eraseDups_cons]

theorem addKind_ne_nil (kinds : List BsonKind) (kind : BsonKind) : addKind kinds kind ≠ [] := by
  rw [addKind]
  split
  · next h => exact List.ne_nil_of_mem (List.contains_iff_mem.mp h)
  · simp

end FieldMap

theorem kindsAt_append_singleton (seen : List (FieldPath × BsonKind)) (path other : FieldPath)
    (kind : BsonKind) : kindsAt (seen ++ [(path, kind)]) other =
      if other = path then FieldMap.addKind (kindsAt seen other) kind else kindsAt seen other := by
  by_cases h : other = path
  · simp [kindsAt, h, FieldMap.eraseDups_append_singleton]
  · simp [kindsAt, h, Ne.symm h]

namespace FieldMap

variable {fields : FieldMap}

-- The paths ascend.
def IsSorted (fields : FieldMap) : Prop := (fields.map (·.1)).Pairwise (· < ·)

theorem IsSorted.nodup (h : fields.IsSorted) : (fields.map (·.1)).Nodup :=
  List.Pairwise.imp (fun hlt => fun hsame => List.lt_irrefl _ (hsame ▸ hlt)) h

theorem IsSorted.sublist {kept : FieldMap} (h : fields.IsSorted) (hkept : kept.Sublist fields) :
    kept.IsSorted :=
  List.Pairwise.sublist (hkept.map _) h

theorem lookup_of_lt {path : FieldPath} (h : ∀ known ∈ fields.map (·.1), path < known) :
    fields.lookup path = none := by
  refine List.lookup_eq_none_iff.mpr fun field hfield => ?_
  have hlt := h _ (List.mem_map_of_mem hfield)
  have hne : path ≠ field.1 := by
    rintro rfl
    exact List.lt_irrefl _ hlt
  simpa using hne

section Record

variable (path : FieldPath) (kind : BsonKind)

theorem mem_paths_record {other : FieldPath} :
    other ∈ (record path kind fields).map (·.1) ↔ other = path ∨ other ∈ fields.map (·.1) := by
  induction fields with
  | nil => simp [record]
  | cons field rest ih =>
    obtain ⟨known, kinds⟩ := field
    rw [record]
    split
    · next h => simp [h]
    · split
      · simp
      · rw [List.map_cons, List.mem_cons, ih, List.map_cons, List.mem_cons]
        exact or_left_comm

theorem isSorted_record (h : fields.IsSorted) : (record path kind fields).IsSorted := by
  induction fields with
  | nil => simp [record, IsSorted]
  | cons field rest ih =>
    obtain ⟨known, kinds⟩ := field
    obtain ⟨hknown, hrest⟩ := List.pairwise_cons.mp h
    rw [record]
    split
    · exact h
    · next hne =>
      split
      · next hlt =>
        refine List.pairwise_cons.mpr ⟨fun other hother => ?_, h⟩
        rcases List.mem_cons.mp hother with rfl | hother
        · exact hlt
        · exact List.lt_trans hlt (hknown other hother)
      · next hge =>
        have hlt : known < path := (List.le_iff_lt_or_eq.mp (List.not_lt.mp hge)).resolve_right (Ne.symm hne)
        refine List.pairwise_cons.mpr ⟨fun other hother => ?_, ih hrest⟩
        rcases (mem_paths_record path kind).mp hother with rfl | hother
        · exact hlt
        · exact hknown other hother

theorem lookup_record (h : fields.IsSorted) (other : FieldPath) :
    (record path kind fields).lookup other =
      if other = path then some (addKind ((fields.lookup path).getD []) kind)
      else fields.lookup other := by
  induction fields with
  | nil => rw [record, lookup_cons_ite]; rfl
  | cons field rest ih =>
    obtain ⟨known, kinds⟩ := field
    obtain ⟨hknown, hrest⟩ := List.pairwise_cons.mp h
    rw [record]
    split
    · next hpath =>
      subst hpath
      rw [lookup_cons_ite, lookup_cons_ite, lookup_cons_ite, if_pos rfl, Option.getD_some]
      split <;> rfl
    · next hne =>
      split
      · next hlt =>
        have hnone : ((known, kinds) :: rest).lookup path = none := by
          refine lookup_of_lt fun other hother => ?_
          rcases List.mem_cons.mp hother with rfl | hother
          · exact hlt
          · exact List.lt_trans hlt (hknown other hother)
        rw [lookup_cons_ite, hnone]
        rfl
      · rw [lookup_cons_ite, ih hrest, lookup_cons_ite, lookup_cons_ite, if_neg hne]
        by_cases hother : other = known
        · rw [if_pos hother, if_neg fun hsame => hne (hsame.symm.trans hother), if_pos hother]
        · rw [if_neg hother, if_neg hother]

end Record

theorem ofSeen_append_singleton (seen : List (FieldPath × BsonKind)) (path : FieldPath)
    (kind : BsonKind) : ofSeen (seen ++ [(path, kind)]) = record path kind (ofSeen seen) := by
  rw [ofSeen, List.foldl_append]
  rfl

theorem mem_paths_ofSeen {seen : List (FieldPath × BsonKind)} {path : FieldPath} :
    path ∈ (ofSeen seen).map (·.1) ↔ path ∈ seen.map (·.1) := by
  induction seen using List.reverseRecOn with
  | nil => exact Iff.rfl
  | append_singleton seen field ih =>
    rw [ofSeen_append_singleton, mem_paths_record, ih, List.map_append,
      List.mem_append, or_comm]
    simp

theorem isSorted_ofSeen (seen : List (FieldPath × BsonKind)) : (ofSeen seen).IsSorted := by
  induction seen using List.reverseRecOn with
  | nil => exact .nil
  | append_singleton seen field ih =>
    rw [ofSeen_append_singleton]
    exact isSorted_record field.1 field.2 ih

theorem lookup_ofSeen (seen : List (FieldPath × BsonKind)) (path : FieldPath) :
    (ofSeen seen).lookup path =
      if kindsAt seen path = [] then none else some (kindsAt seen path) := by
  induction seen using List.reverseRecOn with
  | nil => rfl
  | append_singleton seen field ih =>
    obtain ⟨seenPath, kind⟩ := field
    rw [ofSeen_append_singleton, lookup_record _ _ (isSorted_ofSeen seen),
      kindsAt_append_singleton]
    by_cases h : path = seenPath
    · subst h
      have hkinds : ((ofSeen seen).lookup path).getD [] = kindsAt seen path := by
        rw [ih]
        split
        · next hnone => rw [hnone, Option.getD_none]
        · rfl
      rw [if_pos rfl, if_pos rfl, if_neg (addKind_ne_nil _ _), hkinds]
    · rw [if_neg h, if_neg h, ih]

end FieldMap

end QueryPad.Schema

-- The schema of queries knows the fields of the sample documents, and each with
-- the kinds of its values.
namespace QueryPad.Schema

-- The operators that stand beside the fields.
def operatorNames : List String := ["$and", "$or", "$nor", "$text", "$where", "$comment", "$expr"]

section SetAll

variable {fields more : List (String × Json)}

theorem nodup_setAll (h : (fields.map (·.1)).Nodup) : ((setAll fields more).map (·.1)).Nodup := by
  induction more generalizing fields with
  | nil => exact h
  | cons field more ih => exact ih (nodup_setField h field.1 field.2)

theorem mem_setAll_iff {name : String} {schema : Json} (h : name ∉ more.map (·.1)) :
    (name, schema) ∈ setAll fields more ↔ (name, schema) ∈ fields := by
  induction more generalizing fields with
  | nil => exact Iff.rfl
  | cons field more ih =>
    obtain ⟨hfield, hmore⟩ := not_or.mp (mt List.mem_cons.mpr h)
    rw [setAll, List.foldl_cons]
    exact (ih hmore).trans (mem_setField_iff hfield)

end SetAll

section FieldSchemas

variable {fields : FieldMap}

theorem names_fieldSchemas (fields : FieldMap) :
    (fieldSchemas fields).map (·.1) = fields.map fun field => .ofList field.1 := by
  induction fields with
  | nil => rfl
  | cons field fields ih =>
    obtain ⟨path, kinds⟩ := field
    rw [fieldSchemas, List.map_cons, ih, List.map_cons]

theorem description_of_mem_fieldSchemas {name : String} {schema : Json}
    (h : (name, schema) ∈ fieldSchemas fields) : ∃ kinds, (name.toList, kinds) ∈ fields ∧
      schema.field? "description" = some (.string
        (name ++ " (" ++ ", ".intercalate (kinds.map BsonKind.name) ++ ")")) := by
  induction fields with
  | nil => contradiction
  | cons field fields ih =>
    obtain ⟨path, kinds⟩ := field
    rw [fieldSchemas] at h
    rcases List.mem_cons.mp h with h | h
    · obtain ⟨rfl, rfl⟩ := Prod.mk.inj h
      refine ⟨kinds, by simp, ?_⟩
      rw [fieldSchema]
      rfl
    · obtain ⟨kinds, hmem, hdescription⟩ := ih h
      exact ⟨kinds, List.mem_cons_of_mem _ hmem, hdescription⟩

theorem nodup_fieldSchemas (h : fields.IsSorted) : ((fieldSchemas fields).map (·.1)).Nodup := by
  rw [names_fieldSchemas]
  refine List.pairwise_map.mpr ((List.pairwise_map.mp h).imp fun hlt hname => ?_)
  exact List.lt_irrefl _ (String.ofList_inj.mp hname ▸ hlt)

end FieldSchemas

section Documents

variable {documents : List (List (String × Bson))}
  (hkeys : ∀ document ∈ documents, ∀ field ∈ document, field.1 ≠ "")

include hkeys

theorem lookup_ofDocuments (name : String) : (FieldMap.ofDocuments documents).lookup name.toList =
    if kindsFound documents name = [] then none else some (kindsFound documents name) := by
  have hseen : documents.flatMap (fieldsSeen (levels - 1) []) =
      (documents.flatMap (fieldsTo 5)).map fun field => (field.1.dotted.toList, field.2.kind) := by
    rw [List.map_flatMap]
    exact List.flatMap_congr fun document hdocument => fieldsSeen_nil 4 (hkeys document hdocument)
  have hkinds : kindsAt (documents.flatMap (fieldsSeen (levels - 1) [])) name.toList =
      kindsFound documents name := by
    rw [hseen, kindsAt, kindsFound, List.filter_map, List.map_map]
    simp only [Function.comp_def, String.toList_inj]
  rw [FieldMap.ofDocuments, FieldMap.lookup_ofSeen, hkinds]

theorem mem_names_fieldSchemas_iff (name : String) :
    name ∈ (fieldSchemas (.ofDocuments documents)).map (·.1) ↔ kindsFound documents name ≠ [] := by
  have hpath : name ∈ (fieldSchemas (.ofDocuments documents)).map (·.1) ↔
      ((FieldMap.ofDocuments documents).lookup name.toList).isSome := by
    rw [names_fieldSchemas, List.lookup_isSome_iff, List.mem_map]
    refine exists_congr fun field => and_congr_right fun _ => ?_
    rw [beq_iff_eq, ← String.ofList_inj, String.ofList_toList, eq_comm]
  rw [hpath, lookup_ofDocuments hkeys]
  by_cases h : kindsFound documents name = []
  · simp [h]
  · simp [h]

end Documents

-- The names beside the operators are the paths of the fields on five levels of
-- documents, and a description lists the kinds that were found at its path.
theorem ofDocuments_properties (documents : List (List (String × Bson)))
    (hkeys : ∀ document ∈ documents, ∀ field ∈ document, field.1 ≠ "") :
    ∃ properties, (ofDocuments documents).field? "properties" = some (.object properties) ∧
      (properties.map (·.1)).Nodup ∧ ∀ name ∉ operatorNames,
        (name ∈ properties.map (·.1) ↔ ∃ document ∈ documents, ∃ route found,
          Leads document route found ∧ route.length ≤ 5 ∧ route.dotted = name) ∧
        ∀ schema, (name, schema) ∈ properties → schema.field? "description" = some (.string
          (name ++ " (" ++ ", ".intercalate ((kindsFound documents name).map BsonKind.name) ++
            ")")) := by
  have hsorted : (FieldMap.ofDocuments documents).IsSorted := FieldMap.isSorted_ofSeen _
  refine ⟨_, rfl, nodup_setAll (nodup_fieldSchemas hsorted), fun name hname => ⟨?_, ?_⟩⟩
  · have hmem : name ∈ (setAll (fieldSchemas (.ofDocuments documents)) queryOperators).map (·.1) ↔
        name ∈ (fieldSchemas (.ofDocuments documents)).map (·.1) := by
      simp only [List.mem_map, Prod.exists, exists_and_right, exists_eq_right]
      exact exists_congr fun schema => mem_setAll_iff hname
    rw [hmem, mem_names_fieldSchemas_iff hkeys, kindsFound_ne_nil_iff]
  · intro schema hschema
    obtain ⟨kinds, hkinds, hdescription⟩ :=
      description_of_mem_fieldSchemas ((mem_setAll_iff hname).mp hschema)
    have hlookup := (mem_iff_lookup hsorted.nodup).mp hkinds
    rw [lookup_ofDocuments hkeys] at hlookup
    obtain ⟨_, hsome⟩ := Option.ite_none_left_eq_some.mp hlookup
    obtain rfl := Option.some.inj hsome
    exact hdescription

-- Two ways to one path, with values of different kinds.
theorem ofDocuments_twoWays : ∃ properties,
    (ofDocuments [[("a", .object [("b", .int 1)]), ("a.b", .string "")]]).field? "properties" =
        some (.object properties) ∧
      "a.b" ∈ properties.map (·.1) ∧ ∀ schema, ("a.b", schema) ∈ properties →
        schema.field? "description" = some (.string "a.b (int, string)") := by
  obtain ⟨properties, hproperties, _, hnames⟩ := ofDocuments_properties
    [[("a", .object [("b", .int 1)]), ("a.b", .string "")]] (by decide)
  obtain ⟨hpaths, hdescription⟩ := hnames "a.b" (by decide)
  have hkinds : kindsFound [[("a", .object [("b", .int 1)]), ("a.b", .string "")]] "a.b" =
      [.int, .string] := by
    decide
  have hfound : Leads [("a", .object [("b", .int 1)]), ("a.b", .string "")] ["a.b"] (.string "") :=
    .here (by simp)
  refine ⟨properties, hproperties, hpaths.mpr ⟨_, by simp, _, _, hfound, by simp, rfl⟩, ?_⟩
  intro schema hschema
  rw [hdescription schema hschema, hkinds]
  rfl

end QueryPad.Schema
