import QueryPad.Schema.Fields

-- The fields of sample documents, told by the keys that lead to them.
namespace QueryPad

-- The documents that a value holds: itself, or what an array holds of them.
def Bson.documents : Bson → List (List (String × Bson))
  | .object fields => [fields]
  | .array items => items.filterMap fun item =>
    match item with
    | .object fields => some fields
    | _ => none
  | _ => []

namespace Schema

abbrev Route := List String

-- The keys with points between them.
def Route.dotted (route : Route) : String := ".".intercalate route

-- The keys lead from a document to a value, each into a document inside.
inductive Leads : List (String × Bson) → Route → Bson → Prop where
  | here {document : List (String × Bson)} {key : String} {value : Bson}
      (hfield : (key, value) ∈ document) : Leads document [key] value
  | inside {document inner : List (String × Bson)} {key : String} {value found : Bson}
      {route : Route} (hfield : (key, value) ∈ document) (hinner : inner ∈ value.documents)
      (h : Leads inner route found) : Leads document (key :: route) found

-- What keys lead through is itself led to.
theorem Leads.of_prefix {document : List (String × Bson)} {route taken : Route} {found : Bson}
    (h : Leads document route found) (htaken : taken <+: route) (hne : taken ≠ []) :
    ∃ value, Leads document taken value := by
  induction h generalizing taken with
  | @here document key value hfield =>
    obtain ⟨k, more, rfl⟩ := List.exists_cons_of_ne_nil hne
    obtain ⟨rfl, hmore⟩ := List.cons_prefix_cons.mp htaken
    obtain rfl := List.prefix_nil.mp hmore
    exact ⟨value, .here hfield⟩
  | @inside document inner key value found route hfield hinner h ih =>
    obtain ⟨k, more, rfl⟩ := List.exists_cons_of_ne_nil hne
    obtain ⟨rfl, hmore⟩ := List.cons_prefix_cons.mp htaken
    by_cases hend : more = []
    · subst hend
      exact ⟨value, .here hfield⟩
    · obtain ⟨value, hleads⟩ := ih hmore hend
      exact ⟨value, .inside hfield hinner hleads⟩

-- The fields of a document and of the documents inside, down to so many levels
-- of documents, in the order of writing.
def fieldsTo : Nat → List (String × Bson) → List (Route × Bson)
  | 0, _ => []
  | levels + 1, document => document.flatMap fun (key, value) =>
    ([key], value) :: (value.documents.flatMap (fieldsTo levels)).map fun (route, found) =>
      (key :: route, found)

-- The kinds of the values at a name, in the order in which they are met.
def kindsFound (documents : List (List (String × Bson))) (name : String) : List BsonKind :=
  (((documents.flatMap (fieldsTo 5)).filter (·.1.dotted = name)).map (·.2.kind)).eraseDups

section FieldsTo

variable {levels : Nat} {document : List (String × Bson)} {route : Route} {found : Bson}

theorem mem_fieldsTo_succ : (route, found) ∈ fieldsTo (levels + 1) document ↔
    ∃ key value, (key, value) ∈ document ∧ (route = [key] ∧ found = value ∨
      ∃ inner ∈ value.documents, ∃ rest, (rest, found) ∈ fieldsTo levels inner ∧
        route = key :: rest) := by
  simp only [fieldsTo, List.mem_flatMap, List.mem_cons, List.mem_map, Prod.mk.injEq, Prod.exists]
  constructor
  · rintro ⟨key, value, hfield, ⟨rfl, rfl⟩ | ⟨rest, found, ⟨inner, hinner, hrest⟩, rfl, rfl⟩⟩
    · exact ⟨key, found, hfield, .inl ⟨rfl, rfl⟩⟩
    · exact ⟨key, value, hfield, .inr ⟨inner, hinner, rest, hrest, rfl⟩⟩
  · rintro ⟨key, value, hfield, ⟨rfl, rfl⟩ | ⟨inner, hinner, rest, hrest, rfl⟩⟩
    · exact ⟨key, found, hfield, .inl ⟨rfl, rfl⟩⟩
    · exact ⟨key, value, hfield, .inr ⟨rest, found, ⟨inner, hinner, hrest⟩, rfl, rfl⟩⟩

-- The listing is complete, down to its last level.
theorem mem_fieldsTo_iff : (route, found) ∈ fieldsTo levels document ↔
    Leads document route found ∧ route.length ≤ levels := by
  induction levels generalizing document route with
  | zero =>
    constructor
    · intro h
      contradiction
    · rintro ⟨h, hlength⟩
      cases h <;> contradiction
  | succ levels ih =>
    rw [mem_fieldsTo_succ]
    constructor
    · rintro ⟨key, value, hfield, ⟨rfl, rfl⟩ | ⟨inner, hinner, rest, hrest, rfl⟩⟩
      · exact ⟨.here hfield, by simp⟩
      · obtain ⟨h, hlength⟩ := ih.mp hrest
        exact ⟨.inside hfield hinner h, by simpa using hlength⟩
    · rintro ⟨h, hlength⟩
      cases h with
      | here hfield => exact ⟨_, _, hfield, .inl ⟨rfl, rfl⟩⟩
      | inside hfield hinner h =>
        exact ⟨_, _, hfield, .inr ⟨_, hinner, _, ih.mpr ⟨h, by simpa using hlength⟩, rfl⟩⟩

theorem kindsFound_ne_nil_iff {documents : List (List (String × Bson))} {name : String} :
    kindsFound documents name ≠ [] ↔ ∃ document ∈ documents, ∃ route found,
      Leads document route found ∧ route.length ≤ 5 ∧ route.dotted = name := by
  have hmem (kind : BsonKind) : kind ∈ kindsFound documents name ↔ ∃ document ∈ documents,
      ∃ route found, (Leads document route found ∧ route.length ≤ 5 ∧ route.dotted = name) ∧
        found.kind = kind := by
    simp only [kindsFound, List.mem_eraseDups, List.mem_map, List.mem_filter, List.mem_flatMap,
      decide_eq_true_eq, Prod.exists, mem_fieldsTo_iff]
    constructor
    · rintro ⟨route, found, ⟨⟨document, hdocument, hleads, hlength⟩, hdotted⟩, hkind⟩
      exact ⟨document, hdocument, route, found, ⟨hleads, hlength, hdotted⟩, hkind⟩
    · rintro ⟨document, hdocument, route, found, ⟨hleads, hlength, hdotted⟩, hkind⟩
      exact ⟨route, found, ⟨⟨document, hdocument, hleads, hlength⟩, hdotted⟩, hkind⟩
  constructor
  · intro h
    obtain ⟨kind, hkind⟩ := List.exists_mem_of_ne_nil _ h
    obtain ⟨document, hdocument, route, found, hfound, _⟩ := (hmem kind).mp hkind
    exact ⟨document, hdocument, route, found, hfound⟩
  · rintro ⟨document, hdocument, route, found, hfound⟩
    exact List.ne_nil_of_mem ((hmem found.kind).mpr ⟨document, hdocument, route, found, hfound, rfl⟩)

end FieldsTo

section FieldsSeen

variable (room : Nat) (base : FieldPath)

theorem fieldsOfItems_eq (items : List Bson) :
    fieldsOfItems room base items = (Bson.array items).documents.flatMap (fieldsSeen room base) := by
  induction items with
  | nil => rw [fieldsOfItems]; rfl
  | cons item items ih =>
    cases item with
    | object fields =>
      rw [fieldsOfItems, ih]
      rfl
    | _ => simpa [fieldsOfItems, Bson.documents] using ih

theorem fieldsInside_succ (value : Bson) :
    fieldsInside (room + 1) base value = value.documents.flatMap (fieldsSeen room base) := by
  cases value with
  | object fields => simp [fieldsInside, Bson.documents]
  | array items => simp [fieldsInside, fieldsOfItems_eq]
  | _ => simp [fieldsInside, Bson.documents]

theorem fieldsSeen_eq_flatMap (document : List (String × Bson)) :
    fieldsSeen room base document = document.flatMap fun (key, value) =>
      (base.join key.toList, value.kind) :: fieldsInside room (base.join key.toList) value := by
  induction document with
  | nil => rw [fieldsSeen]; rfl
  | cons field document ih =>
    rw [fieldsSeen, ih]
    rfl

end FieldsSeen

-- What the path of a route is below another path.
def pathBelow (base : FieldPath) (route : Route) : FieldPath :=
  route.foldl (fun path key => path.join key.toList) base

-- What is seen is what is listed, if that is so one level further inside.
theorem fieldsSeen_of_inside {room : Nat}
    (hinside : ∀ path value, fieldsInside room path value =
      (value.documents.flatMap (fieldsTo room)).map fun field =>
        (pathBelow path field.1, field.2.kind))
    (base : FieldPath) (document : List (String × Bson)) :
    fieldsSeen room base document = (fieldsTo (room + 1) document).map fun field =>
      (pathBelow base field.1, field.2.kind) := by
  rw [fieldsSeen_eq_flatMap, fieldsTo, List.map_flatMap]
  refine congrArg document.flatMap (funext fun (key, value) => ?_)
  dsimp only
  rw [hinside, List.map_cons, List.map_map]
  rfl

theorem fieldsSeen_eq (room : Nat) (base : FieldPath) (document : List (String × Bson)) :
    fieldsSeen room base document = (fieldsTo (room + 1) document).map fun field =>
      (pathBelow base field.1, field.2.kind) := by
  induction room generalizing base document with
  | zero =>
    refine fieldsSeen_of_inside (fun path value => ?_) base document
    cases value <;> simp [fieldsInside, fieldsTo]
  | succ room ih =>
    refine fieldsSeen_of_inside (fun path value => ?_) base document
    rw [fieldsInside_succ, List.map_flatMap]
    exact congrArg value.documents.flatMap (funext (ih path))

theorem pathBelow_of_ne_nil {base : FieldPath} (h : base ≠ []) (route : Route) :
    pathBelow base route = base ++ route.flatMap fun key => '.' :: key.toList := by
  induction route generalizing base with
  | nil => simp [pathBelow]
  | cons key route ih =>
    have hjoin : base.join key.toList = base ++ '.' :: key.toList := by simp [FieldPath.join, h]
    rw [pathBelow, List.foldl_cons, hjoin, ← pathBelow, ih (by simp), List.flatMap_cons,
      List.append_assoc]

theorem toList_dotted_cons (key : String) (route : Route) :
    (Route.dotted (key :: route)).toList =
      key.toList ++ route.flatMap fun key => '.' :: key.toList := by
  induction route generalizing key with
  | nil => simp [Route.dotted]
  | cons next route ih =>
    rw [Route.dotted, String.intercalate_cons_cons, String.toList_append, ← Route.dotted, ih,
      String.toList_append, List.flatMap_cons, List.append_assoc]
    rfl

-- At the top, a path begins with the first key itself, as long as that key is not empty.
theorem fieldsSeen_nil (room : Nat) {document : List (String × Bson)}
    (hkeys : ∀ field ∈ document, field.1 ≠ "") :
    fieldsSeen room [] document = (fieldsTo (room + 1) document).map fun field =>
      (field.1.dotted.toList, field.2.kind) := by
  rw [fieldsSeen_eq]
  refine List.map_congr_left fun (route, found) hfield => ?_
  obtain ⟨key, rest, hkey, rfl⟩ : ∃ key rest, key ≠ "" ∧ route = key :: rest := by
    obtain ⟨key, value, hmem, ⟨rfl, -⟩ | ⟨_, _, rest, _, rfl⟩⟩ := mem_fieldsTo_succ.mp hfield
    · exact ⟨key, [], hkeys _ hmem, rfl⟩
    · exact ⟨key, rest, hkeys _ hmem, rfl⟩
  have hne : key.toList ≠ [] := by simpa using hkey
  rw [toList_dotted_cons, ← pathBelow_of_ne_nil hne]
  rfl

end Schema

end QueryPad
