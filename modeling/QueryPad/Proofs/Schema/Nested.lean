import QueryPad.Proofs.Schema.Query
import QueryPad.Schema.Navigation

-- What is inside a field is described there as under its dotted path.
namespace QueryPad.Schema

section SetAll

variable {fields more : List (String × Json)} {name : String} {schema : Json}

theorem lookup_setAll_of_notMem (h : name ∉ more.map (·.1)) :
    (setAll fields more).lookup name = fields.lookup name := by
  induction more generalizing fields with
  | nil => rfl
  | cons field more ih =>
    obtain ⟨hfield, hmore⟩ := not_or.mp (mt List.mem_cons.mpr h)
    rw [setAll, List.foldl_cons]
    exact (ih hmore).trans (by rw [lookup_setField, if_neg hfield])

-- What is set is found, whatever was there before.
theorem lookup_setAll_of_mem (hnodup : (more.map (·.1)).Nodup) (h : (name, schema) ∈ more) :
    (setAll fields more).lookup name = some schema := by
  induction more generalizing fields with
  | nil => contradiction
  | cons field more ih =>
    obtain ⟨hfield, hmore⟩ := List.nodup_cons.mp hnodup
    rw [setAll, List.foldl_cons]
    rcases List.mem_cons.mp h with rfl | h
    · exact (lookup_setAll_of_notMem hfield).trans (by rw [lookup_setField, if_pos rfl])
    · exact ih hmore h

end SetAll

section Order

variable {first path last : FieldPath}

-- In ascending order, the paths that begin alike stand together.
theorem isPrefix_of_between (hfirst : ¬ path < first) (hlast : path < last) (h : first <+: last) :
    first <+: path := by
  induction first generalizing path last with
  | nil => exact List.nil_prefix
  | cons c first ih =>
    obtain ⟨rest, rfl⟩ := h
    cases path with
    | nil => exact absurd (List.nil_lt_cons c first) hfirst
    | cons d path =>
      rw [List.cons_lt_cons_iff, not_or] at hfirst
      rw [List.cons_append, List.cons_lt_cons_iff] at hlast
      rcases hlast with hdc | ⟨rfl, hlast⟩
      · exact absurd hdc hfirst.1
      · have hpath : ¬ path < first := fun hlt => hfirst.2 ⟨rfl, hlt⟩
        exact List.cons_prefix_cons.mpr ⟨rfl, ih hpath hlast (List.prefix_append first rest)⟩

variable {fields : FieldMap}

-- What stays when the paths before one are dropped lies behind that one.
theorem not_lt_of_mem_dropWhile (hsorted : fields.IsSorted) {field : FieldPath × List BsonKind}
    (h : field ∈ fields.dropWhile fun (key, _) => key < first) : ¬ field.1 < first := by
  induction fields with
  | nil => contradiction
  | cons known fields ih =>
    obtain ⟨hknown, hrest⟩ := List.pairwise_cons.mp hsorted
    rw [List.dropWhile_cons] at h
    by_cases hlt : known.1 < first
    · exact ih hrest (by simpa [hlt] using h)
    · rw [if_neg (by simpa using hlt)] at h
      rcases List.mem_cons.mp h with rfl | h
      · exact hlt
      · intro hfield
        exact hlt (List.lt_trans (hknown field.1 (List.mem_map_of_mem h)) hfield)

end Order

section After

variable {first path name : FieldPath}

theorem after?_eq_some_iff : after? first path = some name ↔ path = first ++ name := by
  rw [after?, Option.ite_none_right_eq_some, List.isPrefixOf_iff_prefix, Option.some_inj]
  constructor
  · rintro ⟨⟨rest, rfl⟩, hdrop⟩
    rw [← hdrop, List.drop_left]
  · rintro rfl
    exact ⟨List.prefix_append first name, List.drop_left⟩

theorem after?_append (first name : FieldPath) : after? first (first ++ name) = some name :=
  after?_eq_some_iff.mpr rfl

theorem after?_eq_none_iff : after? first path = none ↔ ¬ first <+: path := by
  simp [after?]

theorem lt_append_cons (path : FieldPath) (c : Char) (rest : FieldPath) :
    path < path ++ c :: rest := by
  have hlt : path ++ [] < path ++ c :: rest := List.append_left_lt (List.nil_lt_cons c rest)
  rwa [List.append_nil] at hlt

end After

section Below

variable {path : FieldPath} {kinds : List BsonKind} {later : FieldMap}

theorem mem_fieldSchemas_of_split (before rest : FieldMap) :
    (.ofList path, fieldSchema path kinds rest) ∈
      fieldSchemas (before ++ (path, kinds) :: rest) := by
  induction before with
  | nil => exact List.mem_cons_self
  | cons field before ih =>
    obtain ⟨known, knownKinds⟩ := field
    exact List.mem_cons_of_mem _ ih

theorem mem_fieldsBelow_of_split {first name : FieldPath} {before rest : FieldMap}
    (hbefore : ∀ field ∈ before, first <+: field.1) (hname : '.' ∉ name) :
    (.ofList name, fieldSchema (first ++ name) kinds rest) ∈
      fieldsBelow first (before ++ (first ++ name, kinds) :: rest) := by
  induction before with
  | nil =>
    rw [List.nil_append, fieldsBelow, after?_append]
    simp [hname]
  | cons field before ih =>
    obtain ⟨known, knownKinds⟩ := field
    obtain ⟨tail, rfl⟩ := hbefore _ List.mem_cons_self
    have hrest := ih fun field hfield => hbefore field (List.mem_cons_of_mem _ hfield)
    rw [List.cons_append, fieldsBelow, after?_append]
    dsimp only
    split
    · exact hrest
    · exact List.mem_cons_of_mem _ hrest

-- A name below a path is met once, as its path is.
theorem names_fieldsBelow_sublist (first : FieldPath) (later : FieldMap) :
    ((fieldsBelow first later).map fun field => first ++ field.1.toList).Sublist
      (later.map (·.1)) := by
  induction later with
  | nil => rw [fieldsBelow]; exact .slnil
  | cons field later ih =>
    obtain ⟨known, kinds⟩ := field
    rw [fieldsBelow]
    split
    · exact List.nil_sublist _
    · next name hname =>
      obtain rfl := after?_eq_some_iff.mp hname
      split
      · exact ih.cons _
      · rw [List.map_cons, List.map_cons, String.toList_ofList]
        exact ih.cons_cons _

theorem nodup_fieldsBelow (first : FieldPath) (hsorted : later.IsSorted) :
    ((fieldsBelow first later).map (·.1)).Nodup := by
  have h := (names_fieldsBelow_sublist first later).nodup hsorted.nodup
  have hdistinct (a b : String) (hne : first ++ a.toList ≠ first ++ b.toList) : a ≠ b := by
    rintro rfl
    exact hne rfl
  refine List.Pairwise.of_map (fun name : String => first ++ name.toList) hdistinct ?_
  rwa [List.map_map]

-- In the schema of a field, a field directly below it has the schema that its
-- own path has.
theorem stepInto?_fieldSchema {name : FieldPath} {between rest : FieldMap}
    {inner : List BsonKind}
    (hsorted : FieldMap.IsSorted (between ++ (path ++ '.' :: name, inner) :: rest))
    (hname : '.' ∉ name) :
    stepInto? (fieldSchema path kinds (between ++ (path ++ '.' :: name, inner) :: rest))
      (.key (.ofList name)) = some (fieldSchema (path ++ '.' :: name) inner rest) := by
  have hfirst : path ++ '.' :: name = (path ++ ['.']) ++ name := by simp
  rw [hfirst] at hsorted ⊢
  generalize hpath : path ++ ['.'] = first at hsorted ⊢
  generalize hlater : (first ++ name, inner) :: rest = later at hsorted ⊢
  have hdrop : (between ++ later).dropWhile (fun (key, _) => key < first) =
      between.dropWhile (fun (key, _) => key < first) ++ later := by
    have hkept : later.dropWhile (fun (key, _) => decide (key < first)) = later := by
      have hge : ¬ first ++ name < first := List.not_lt.mpr List.le_append_left
      rw [← hlater, List.dropWhile_cons_of_neg]
      simpa using hge
    rw [List.dropWhile_append, hkept]
    split
    · next hempty => rw [List.isEmpty_iff.mp hempty, List.nil_append]
    · rfl
  have hdropped : FieldMap.IsSorted
      (between.dropWhile (fun (key, _) => key < first) ++ later) :=
    hdrop ▸ hsorted.sublist (List.dropWhile_sublist _)
  have hbetween : FieldMap.IsSorted between := hsorted.sublist (List.sublist_append_left _ _)
  -- what is left before the field lies between the path and the field
  have hstart : ∀ field ∈ between.dropWhile (fun (key, _) => key < first), first <+: field.1 := by
    intro field hfield
    have hlast : field.1 < first ++ name := by
      rw [← hlater, FieldMap.IsSorted, List.map_append, List.pairwise_append] at hdropped
      exact hdropped.2.2 _ (List.mem_map_of_mem hfield) _ (by simp)
    exact isPrefix_of_between (not_lt_of_mem_dropWhile hbetween hfield) hlast
      (List.prefix_append first name)
  have hmem : (.ofList name, fieldSchema (first ++ name) inner rest) ∈
      fieldsBelow first ((between ++ later).dropWhile fun (key, _) => key < first) := by
    rw [hdrop, ← hlater]
    exact mem_fieldsBelow_of_split hstart hname
  rw [fieldSchema, hpath]
  exact lookup_setAll_of_mem (nodup_fieldsBelow first (hdrop ▸ hdropped)) hmem

end Below

section Way

variable {fields : FieldMap} (hsorted : fields.IsSorted)

include hsorted

theorem mem_of_split_of_lt {before rest : FieldMap} {path other : FieldPath}
    {kinds : List BsonKind} (hsplit : fields = before ++ (path, kinds) :: rest)
    (h : other ∈ fields.map (·.1)) (hlt : path < other) : other ∈ rest.map (·.1) := by
  subst hsplit
  rw [FieldMap.IsSorted, List.map_append, List.pairwise_append] at hsorted
  rw [List.map_append, List.mem_append, List.map_cons, List.mem_cons] at h
  rcases h with h | rfl | h
  · exact absurd (List.lt_trans hlt (hsorted.2.2 other h path (by simp))) (List.lt_irrefl path)
  · exact absurd hlt (List.lt_irrefl other)
  · exact h

-- From the schema of a field, key by key, to that of a field further inside.
theorem foldlM_fieldSchema {route : Route} {path : FieldPath} {before rest : FieldMap}
    {kinds : List BsonKind} (hsplit : fields = before ++ (path, kinds) :: rest)
    (hpaths : ∀ taken, taken <+: route → pathBelow path taken ∈ fields.map (·.1))
    (hpath : path ≠ []) (hkeys : ∀ key ∈ route, '.' ∉ key.toList) :
    ∃ before' kinds' rest', fields = before' ++ (pathBelow path route, kinds') :: rest' ∧
      (route.map Step.key).foldlM stepInto? (fieldSchema path kinds rest) =
        some (fieldSchema (pathBelow path route) kinds' rest') := by
  induction route generalizing path before rest kinds with
  | nil => exact ⟨before, kinds, rest, hsplit, rfl⟩
  | cons key route ih =>
    have hbelow (more : Route) :
        pathBelow path (key :: more) = pathBelow (path ++ '.' :: key.toList) more := by
      simp [pathBelow, FieldPath.join, hpath]
    have hlt := lt_append_cons path '.' key.toList
    have hmem : path ++ '.' :: key.toList ∈ fields.map (·.1) := by
      have h := hpaths [key] (by simp)
      rwa [hbelow] at h
    obtain ⟨⟨_, inner⟩, hinner, rfl⟩ :=
      List.mem_map.mp (mem_of_split_of_lt hsorted hsplit hmem hlt)
    obtain ⟨between, rest, rfl⟩ := List.append_of_mem hinner
    have hrest : FieldMap.IsSorted (between ++ (path ++ '.' :: key.toList, inner) :: rest) := by
      subst hsplit
      exact hsorted.sublist (List.sublist_append_of_sublist_right (List.sublist_cons_self _ _))
    have hstep : stepInto?
        (fieldSchema path kinds (between ++ (path ++ '.' :: key.toList, inner) :: rest))
          (.key (.ofList key.toList)) = some (fieldSchema (path ++ '.' :: key.toList) inner rest) :=
      stepInto?_fieldSchema hrest (hkeys key List.mem_cons_self)
    rw [String.ofList_toList] at hstep
    have hinside : fields = (before ++ (path, kinds) :: between) ++
        (path ++ '.' :: key.toList, inner) :: rest := by
      simpa using hsplit
    obtain ⟨before', kinds', rest', hsplit', hfold⟩ := ih hinside
      (fun taken htaken =>
        hbelow taken ▸ hpaths (key :: taken) (List.cons_prefix_cons.mpr ⟨rfl, htaken⟩))
      (by simp) fun key hkey => hkeys key (List.mem_cons_of_mem _ hkey)
    refine ⟨before', kinds', rest', hbelow route ▸ hsplit', ?_⟩
    rw [List.map_cons, List.foldlM_cons, hstep, hbelow]
    exact hfold

end Way

section Seen

variable {documents : List (List (String × Bson))} {document : List (String × Bson)}
  {route : Route} {found : Bson}

theorem mem_paths_ofDocuments (hdocument : document ∈ documents) (h : Leads document route found)
    (hlength : route.length ≤ 5) :
    pathBelow [] route ∈ (FieldMap.ofDocuments documents).map (·.1) := by
  rw [FieldMap.ofDocuments, FieldMap.mem_paths_ofSeen, List.map_flatMap]
  refine List.mem_flatMap.mpr ⟨document, hdocument, ?_⟩
  rw [fieldsSeen_eq, List.map_map]
  exact List.mem_map.mpr ⟨_, mem_fieldsTo_iff.mpr ⟨h, hlength⟩, rfl⟩

end Seen

theorem stepInto?_ofFields {fields : FieldMap} {name : String} (hname : name ∉ operatorNames) :
    stepInto? (ofFields fields) (.key name) = (fieldSchemas fields).lookup name :=
  lookup_setAll_of_notMem hname

theorem lookup_fieldSchemas_of_split {fields before rest : FieldMap} {path : FieldPath}
    {kinds : List BsonKind} (hsorted : fields.IsSorted)
    (hsplit : fields = before ++ (path, kinds) :: rest) :
    (fieldSchemas fields).lookup (.ofList path) = some (fieldSchema path kinds rest) := by
  refine (mem_iff_lookup (nodup_fieldSchemas hsorted)).mp ?_
  rw [hsplit]
  exact mem_fieldSchemas_of_split before rest

-- A name with a point in it is no operator.
theorem dotted_notMem_operatorNames {key : String} {route : Route} (hkey : key ∉ operatorNames) :
    Route.dotted (key :: route) ∉ operatorNames := by
  cases route with
  | nil => simpa [Route.dotted] using hkey
  | cons next route =>
    have hpoint : '.' ∈ (Route.dotted (key :: next :: route)).toList := by
      rw [toList_dotted_cons]
      simp
    have hnone : ∀ name ∈ operatorNames, '.' ∉ name.toList := by decide
    exact fun hmem => hnone _ hmem hpoint

-- Key by key through the fields that hold it, a field has the schema that it has
-- under its dotted path.
theorem ofDocuments_nested (documents : List (List (String × Bson)))
    {document : List (String × Bson)} (hdocument : document ∈ documents) {route : Route}
    {found : Bson} (h : Leads document route found) (hlength : route.length ≤ 5)
    (hkeys : ∀ key ∈ route, key ≠ "" ∧ '.' ∉ key.toList)
    (hfirst : ∀ key ∈ route.head?, key ∉ operatorNames) : ∃ schema,
      (route.map Step.key).foldlM stepInto? (ofDocuments documents) = some schema ∧
        stepInto? (ofDocuments documents) (.key route.dotted) = some schema := by
  have hsorted : (FieldMap.ofDocuments documents).IsSorted := FieldMap.isSorted_ofSeen _
  obtain ⟨key, rest, rfl⟩ : ∃ key rest, route = key :: rest := by
    cases h <;> exact ⟨_, _, rfl⟩
  obtain ⟨hne, -⟩ := hkeys key List.mem_cons_self
  have hpath : key.toList ≠ [] := by simpa using hne
  have hdotted : (Route.dotted (key :: rest)).toList = pathBelow key.toList rest := by
    rw [toList_dotted_cons, pathBelow_of_ne_nil hpath]
  have hoperator : key ∉ operatorNames := hfirst key rfl
  have hpaths (taken : Route) (htaken : taken <+: rest) :
      pathBelow key.toList taken ∈ (FieldMap.ofDocuments documents).map (·.1) := by
    have hstart : key :: taken <+: key :: rest := List.cons_prefix_cons.mpr ⟨rfl, htaken⟩
    obtain ⟨value, hleads⟩ := h.of_prefix hstart (by simp)
    exact mem_paths_ofDocuments hdocument hleads (Nat.le_trans hstart.length_le hlength)
  obtain ⟨⟨_, kinds⟩, hfield, hpathEq⟩ := List.mem_map.mp (hpaths [] List.nil_prefix)
  obtain rfl : _ = key.toList := hpathEq
  obtain ⟨before, later, hsplit⟩ := List.append_of_mem hfield
  obtain ⟨before', kinds', later', hsplit', hfold⟩ := foldlM_fieldSchema hsorted hsplit hpaths
    hpath fun key hkey => (hkeys key (List.mem_cons_of_mem _ hkey)).2
  refine ⟨fieldSchema (pathBelow key.toList rest) kinds' later', ?_, ?_⟩
  · have hstep := lookup_fieldSchemas_of_split hsorted hsplit
    rw [String.ofList_toList] at hstep
    rw [List.map_cons, List.foldlM_cons, ofDocuments, stepInto?_ofFields hoperator, hstep]
    exact hfold
  · rw [ofDocuments, stepInto?_ofFields (dotted_notMem_operatorNames hoperator)]
    rw [← lookup_fieldSchemas_of_split hsorted hsplit', ← hdotted, String.ofList_toList]

-- A field inside that is named as an operator is, and one whose path stands
-- between the two in the order of paths.
theorem ofDocuments_nested_operator : ∃ schema,
    [.key "a", .key "$eq"].foldlM stepInto?
        (ofDocuments [[("a", .array [.null, .object [("$eq", .int 1)]]), ("a-b", .null)]]) =
          some schema ∧
      stepInto? (ofDocuments [[("a", .array [.null, .object [("$eq", .int 1)]]), ("a-b", .null)]])
        (.key "a.$eq") = some schema := by
  have hleads : Leads [("a", .array [.null, .object [("$eq", .int 1)]]), ("a-b", .null)]
      ["a", "$eq"] (.int 1) :=
    .inside List.mem_cons_self List.mem_cons_self (.here List.mem_cons_self)
  exact ofDocuments_nested _ List.mem_cons_self hleads (by decide) (by decide) (by decide)

end QueryPad.Schema
