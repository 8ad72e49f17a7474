import Mathlib.Algebra.Order.BigOperators.Group.List
import Mathlib.Algebra.Order.Group.Nat
import Mathlib.Data.List.Nodup
import Mathlib.Data.List.Perm.Subperm
import Mathlib.Tactic.Ring
import QueryPad.Proofs.Schema.Nested
import QueryPad.Proofs.Text.Order
import QueryPad.Schema.Scanning

-- The fields inside a field stand together in the map. What is found among them in
-- one pass is what the whole map has of them.
namespace QueryPad.Schema

-- What is left of a path behind another one and a point.
def FieldPath.nameIn (child path : FieldPath) : FieldPath := child.drop (path.length + 1)

theorem FieldPath.nameIn_append (path name : FieldPath) :
    FieldPath.nameIn (path ++ ['.'] ++ name) path = name := by
  simp [FieldPath.nameIn]

namespace FieldMap

-- The paths ascend, byte by byte.
def IsOrdered (fields : FieldMap) : Prop := (fields.map (·.1.bytes)).Pairwise (· < ·)

instance (fields : FieldMap) : Decidable fields.IsOrdered :=
  inferInstanceAs (Decidable (List.Pairwise _ _))

theorem isOrdered_iff {fields : FieldMap} : fields.IsOrdered ↔ fields.IsSorted := by
  rw [IsOrdered, IsSorted, List.pairwise_map, List.pairwise_map]
  exact List.Pairwise.iff fun _ _ => Text.utf8_lt_iff

-- So are the maps that are made of samples.
theorem isOrdered_ofDocuments (documents : List (List (String × Bson))) :
    (FieldMap.ofDocuments documents).IsOrdered :=
  isOrdered_iff.mpr (isSorted_ofSeen _)

-- The fields inside a field, however deep.
def inside (fields : FieldMap) (path : FieldPath) : FieldMap :=
  fields.filter fun field => path ++ ['.'] <+: field.1

-- Those that are directly inside. Their names there have no point.
def direct (path : FieldPath) (fields : FieldMap) : FieldMap :=
  fields.filter fun field => '.' ∉ field.1.nameIn path

-- Schemas by the names that fields have inside another.
def schemasIn (fields : FieldMap) (path : FieldPath) (found : FieldMap) : List (String × Json) :=
  found.map fun field => (.ofList (field.1.nameIn path), fieldSchema field.1 field.2 fields)

variable {fields : FieldMap} {first path : FieldPath} {kinds : List BsonKind}
  {child field : FieldPath × List BsonKind}

theorem startingAt_eq (first : FieldPath) (fields : FieldMap) :
    fields.startingAt first = fields.dropWhile fun (path, _) => path < first := by
  rw [startingAt]
  congr 1
  funext field
  exact decide_eq_decide.mpr Text.utf8_lt_iff

theorem mem_inside_iff :
    field ∈ fields.inside path ↔ field ∈ fields ∧ path ++ ['.'] <+: field.1 := by
  rw [inside, List.mem_filter, decide_eq_true_eq]

theorem mem_direct_iff {found : FieldMap} :
    field ∈ direct path found ↔ field ∈ found ∧ '.' ∉ field.1.nameIn path := by
  rw [direct, List.mem_filter, decide_eq_true_eq]

-- From a beginning on, the paths that begin with it come first.
theorem eq_filter_append (hsorted : fields.IsSorted)
    (hfirst : ∀ field ∈ fields, ¬ field.1 < first) :
    fields = fields.filter (first <+: ·.1) ++ fields.filter (¬ first <+: ·.1) := by
  induction fields with
  | nil => rfl
  | cons field fields ih =>
    obtain ⟨hfield, hrest⟩ := List.pairwise_cons.mp hsorted
    obtain ⟨hhead, htail⟩ := List.forall_mem_cons.mp hfirst
    by_cases hstart : first <+: field.1
    · rw [List.filter_cons_of_pos (by simpa using hstart),
        List.filter_cons_of_neg (by simpa using hstart), List.cons_append, ← ih hrest htail]
    · have hnone : ∀ other ∈ fields, ¬ first <+: other.1 := by
        intro other hother hprefix
        exact hstart (isPrefix_of_between hhead (hfield _ (List.mem_map_of_mem hother)) hprefix)
      have hall : ∀ other ∈ field :: fields, ¬ first <+: other.1 :=
        List.forall_mem_cons.mpr ⟨hstart, hnone⟩
      rw [List.filter_eq_nil_iff.mpr (by simpa using hall),
        List.filter_eq_self.mpr (by simpa using hall), List.nil_append]

theorem not_prefix_of_lt {first path : FieldPath} (h : path < first) : ¬ first <+: path := by
  rintro ⟨rest, rfl⟩
  exact List.not_lt.mpr List.le_append_left h

theorem filter_dropWhile_lt (fields : FieldMap) (first : FieldPath) :
    (fields.dropWhile fun (path, _) => path < first).filter (first <+: ·.1) =
      fields.filter (first <+: ·.1) := by
  induction fields with
  | nil => rfl
  | cons field fields ih =>
    by_cases hlt : field.1 < first
    · rw [List.dropWhile_cons_of_pos (by simpa using hlt), ih,
        List.filter_cons_of_neg (by simpa using not_prefix_of_lt hlt)]
    · rw [List.dropWhile_cons_of_neg (by simpa using hlt)]

-- From the path of a field and a point on, there is first all that is inside the
-- field, and then only what is not.
theorem startingAt_split (hsorted : fields.IsSorted) (path : FieldPath) : ∃ before rest,
    fields = before ++ (fields.inside path ++ rest) ∧
      fields.startingAt (path ++ ['.']) = fields.inside path ++ rest ∧
      ∀ field ∈ rest, ¬ path ++ ['.'] <+: field.1 := by
  have hsuffix : fields.startingAt (path ++ ['.']) <:+ fields := List.dropWhile_suffix _
  have hinside : (fields.startingAt (path ++ ['.'])).filter (path ++ ['.'] <+: ·.1) =
      fields.inside path := by
    rw [startingAt_eq, filter_dropWhile_lt]
    rfl
  have hfirst : ∀ field ∈ fields.startingAt (path ++ ['.']), ¬ field.1 < path ++ ['.'] :=
    fun field hfield => not_lt_of_mem_dropWhile hsorted (startingAt_eq _ fields ▸ hfield)
  have hsplit := eq_filter_append (hsorted.sublist hsuffix.sublist) hfirst
  rw [hinside] at hsplit
  obtain ⟨before, hbefore⟩ := hsuffix
  refine ⟨before, _, hsplit ▸ hbefore.symm, hsplit, fun field hfield => ?_⟩
  simpa using (List.mem_filter.mp hfield).2

-- What is before a field in the map is not inside it.
theorem fieldSchema_of_split {before rest : FieldMap} (hsorted : fields.IsSorted)
    (hsplit : fields = before ++ (path, kinds) :: rest) (inner : List BsonKind) :
    fieldSchema path inner rest = fieldSchema path inner fields := by
  have hbehind : path < path ++ ['.'] := lt_append_cons path '.' []
  have hpassed : ∀ field ∈ before ++ [(path, kinds)], field.1 < path ++ ['.'] := by
    intro field hfield
    rcases List.mem_append.mp hfield with hbefore | hpath
    · rw [hsplit, IsSorted, List.map_append, List.pairwise_append] at hsorted
      exact List.lt_trans (hsorted.2.2 _ (List.mem_map_of_mem hbefore) path (by simp)) hbehind
    · obtain rfl := List.mem_singleton.mp hpath
      exact hbehind
  have hfields : fields = (before ++ [(path, kinds)]) ++ rest := by simpa using hsplit
  rw [fieldSchema, fieldSchema, hfields,
    List.dropWhile_append_of_pos fun field hfield => decide_eq_true (hpassed field hfield)]

theorem direct_cons_of_mem {name : FieldPath} (h : '.' ∈ name) (found : FieldMap) :
    direct path ((path ++ ['.'] ++ name, kinds) :: found) = direct path found :=
  List.filter_cons_of_neg (by rw [FieldPath.nameIn_append]; simpa using h)

theorem direct_cons_of_notMem {name : FieldPath} (h : '.' ∉ name) (found : FieldMap) :
    direct path ((path ++ ['.'] ++ name, kinds) :: found) =
      (path ++ ['.'] ++ name, kinds) :: direct path found :=
  List.filter_cons_of_pos (by rw [FieldPath.nameIn_append]; simpa using h)

theorem schemasIn_cons (name : FieldPath) (found : FieldMap) :
    fields.schemasIn path ((path ++ ['.'] ++ name, kinds) :: found) =
      (.ofList name, fieldSchema (path ++ ['.'] ++ name) kinds fields) ::
        fields.schemasIn path found := by
  rw [schemasIn, List.map_cons, FieldPath.nameIn_append, schemasIn]

theorem fieldsBelow_eq (before : FieldMap) {found rest : FieldMap} (hsorted : fields.IsSorted)
    (hsplit : fields = before ++ (found ++ rest))
    (hfound : ∀ field ∈ found, path ++ ['.'] <+: field.1)
    (hrest : ∀ field ∈ rest, ¬ path ++ ['.'] <+: field.1) :
    fieldsBelow (path ++ ['.']) (found ++ rest) = fields.schemasIn path (direct path found) := by
  induction found generalizing before with
  | nil =>
    cases rest with
    | nil => rw [List.append_nil, fieldsBelow]; rfl
    | cons field rest =>
      have hnone := after?_eq_none_iff.mpr (hrest field List.mem_cons_self)
      rw [List.nil_append, fieldsBelow, hnone]
      rfl
  | cons field found ih =>
    obtain ⟨child, kinds⟩ := field
    obtain ⟨⟨name, rfl⟩, htail⟩ := List.forall_mem_cons.mp hfound
    have hothers := ih (before ++ [(path ++ ['.'] ++ name, kinds)]) (by simpa using hsplit) htail
    rw [List.cons_append] at hsplit ⊢
    rw [fieldsBelow, after?_append]
    dsimp only
    by_cases hname : '.' ∈ name
    · rw [if_pos (List.contains_iff_mem.mpr hname), direct_cons_of_mem hname, hothers]
    · rw [if_neg (mt List.contains_iff_mem.mp hname), direct_cons_of_notMem hname, schemasIn_cons,
        hothers, fieldSchema_of_split hsorted hsplit]

section Families

theorem inside_trans (hchild : child ∈ fields.inside path) (h : field ∈ fields.inside child.1) :
    field ∈ fields.inside path := by
  obtain ⟨hfield, hprefix⟩ := mem_inside_iff.mp h
  have hbehind : child.1 <+: child.1 ++ ['.'] := List.prefix_append _ _
  exact mem_inside_iff.mpr ⟨hfield, ((mem_inside_iff.mp hchild).2.trans hbehind).trans hprefix⟩

theorem notMem_inside_self : field ∉ fields.inside field.1 := by
  intro h
  have hlength := (mem_inside_iff.mp h).2.length_le
  rw [List.length_append, List.length_singleton] at hlength
  omega

-- Of a field directly inside, the name is what comes before the next point in the
-- paths of all that is inside it.
theorem nameIn_eq_takeWhile (hchild : child ∈ direct path (fields.inside path))
    (h : field ∈ child :: fields.inside child.1) :
    (field.1.nameIn path).takeWhile (· ≠ '.') = child.1.nameIn path := by
  obtain ⟨hinside, hname⟩ := mem_direct_iff.mp hchild
  obtain ⟨name, hpath⟩ := (mem_inside_iff.mp hinside).2
  rw [← hpath, FieldPath.nameIn_append] at hname ⊢
  have hall : ∀ c ∈ name, decide (c ≠ '.') = true := by
    intro c hc
    exact decide_eq_true fun hpoint => hname (hpoint ▸ hc)
  obtain ⟨rest, hfield, hrest⟩ : ∃ rest, field.1 = path ++ ['.'] ++ (name ++ rest) ∧
      rest.takeWhile (· ≠ '.') = [] := by
    rcases List.mem_cons.mp h with rfl | h
    · exact ⟨[], by rw [List.append_nil, hpath], rfl⟩
    · obtain ⟨rest, hrest⟩ := (mem_inside_iff.mp h).2
      exact ⟨'.' :: rest, by rw [← hrest, ← hpath]; simp, by simp⟩
  rw [hfield, FieldPath.nameIn_append, List.takeWhile_append_of_pos hall, hrest, List.append_nil]

theorem path_eq_of_nameIn_eq {other : FieldPath × List BsonKind}
    (hchild : child ∈ fields.inside path) (hother : other ∈ fields.inside path)
    (h : child.1.nameIn path = other.1.nameIn path) : child.1 = other.1 := by
  obtain ⟨name, hname⟩ := (mem_inside_iff.mp hchild).2
  obtain ⟨more, hmore⟩ := (mem_inside_iff.mp hother).2
  rw [← hname, ← hmore, FieldPath.nameIn_append, FieldPath.nameIn_append] at h
  rw [← hname, ← hmore, h]

-- No field is inside two of those directly inside another.
theorem sum_direct_le (hsorted : fields.IsSorted) (path : FieldPath) :
    ((direct path (fields.inside path)).map fun child => (fields.inside child.1).length + 1).sum ≤
      (fields.inside path).length := by
  have hnodup (kept : FieldMap) (hkept : kept.Sublist fields) : kept.Nodup :=
    .of_map _ (hsorted.sublist hkept).nodup
  have hchildren : (direct path (fields.inside path)).Sublist fields :=
    List.filter_sublist.trans List.filter_sublist
  have hfamilies : ((direct path (fields.inside path)).flatMap fun child =>
      child :: fields.inside child.1).Nodup := by
    refine List.nodup_flatMap.mpr ⟨fun child _ => ?_, ?_⟩
    · exact List.nodup_cons.mpr ⟨notMem_inside_self, hnodup _ List.filter_sublist⟩
    · refine (List.pairwise_map.mp (hsorted.sublist hchildren)).imp_of_mem ?_
      intro child other hchild hother hlt field hfield hfield'
      have hname := (nameIn_eq_takeWhile hchild hfield).symm.trans
        (nameIn_eq_takeWhile hother hfield')
      have hsame := path_eq_of_nameIn_eq (mem_direct_iff.mp hchild).1 (mem_direct_iff.mp hother).1
        hname
      exact List.lt_irrefl _ (hsame ▸ hlt)
  have hsubset : ((direct path (fields.inside path)).flatMap fun child =>
      child :: fields.inside child.1) ⊆ fields.inside path := by
    intro field hfield
    obtain ⟨child, hchild, hfield⟩ := List.mem_flatMap.mp hfield
    obtain ⟨hinside, _⟩ := mem_direct_iff.mp hchild
    rcases List.mem_cons.mp hfield with rfl | hfield
    · exact hinside
    · exact inside_trans hinside hfield
  have hlength := (List.subperm_of_subset hfamilies hsubset).length_le
  rwa [List.length_flatMap] at hlength

theorem length_inside_lt (hsorted : fields.IsSorted)
    (hchild : child ∈ direct path (fields.inside path)) :
    (fields.inside child.1).length < (fields.inside path).length := by
  have hmem := List.mem_map_of_mem (f := fun child : FieldPath × List BsonKind =>
    (fields.inside child.1).length + 1) hchild
  exact (List.le_sum_of_mem hmem).trans (sum_direct_le hsorted path)

end Families

end FieldMap

section Schemas

variable {fields : FieldMap}

open FieldMap

-- In the schema of a field stand those of the fields directly inside it.
theorem fieldSchema_eq (hsorted : fields.IsSorted) (path : FieldPath) (kinds : List BsonKind) :
    fieldSchema path kinds fields =
      fieldObject path kinds (fields.schemasIn path (direct path (fields.inside path))) := by
  obtain ⟨before, rest, hsplit, hstart, hrest⟩ := startingAt_split hsorted path
  rw [fieldSchema, ← startingAt_eq, hstart,
    fieldsBelow_eq before hsorted hsplit (fun _ hfield => (mem_inside_iff.mp hfield).2) hrest]

-- The schemas of all fields, each told from the whole map.
theorem fieldSchemas_eq (hsorted : fields.IsSorted) : fieldSchemas fields =
    fields.map fun field => (.ofList field.1, fieldSchema field.1 field.2 fields) := by
  have hall : ∀ before later : FieldMap, fields = before ++ later → fieldSchemas later =
      later.map fun field => (.ofList field.1, fieldSchema field.1 field.2 fields) := by
    intro before later hsplit
    induction later generalizing before with
    | nil => rfl
    | cons field later ih =>
      rw [fieldSchemas, List.map_cons, fieldSchema_of_split hsorted hsplit,
        ih (before ++ [field]) (by simpa using hsplit)]
  exact hall [] fields rfl

end Schemas

end QueryPad.Schema
