import QueryPad.Command.Literal

-- The values inside a value, and what the conversion makes of a value through
-- that of the values inside it.
namespace QueryPad

namespace Tree

open Literal

-- The first tree that is no leaf.
def held? (trees : List Tree) : Option Tree := trees.find? (!·.isLeaf)

def propertyOf? : Tree → Option (String × Option Tree)
  | .node .propertyAssignment _ parts =>
    (parts.find? (·.is .propertyName)).map fun name =>
      (.ofList (unquote name.chars),
        (parts.find? (·.is .propertyValue)).bind fun value => held? value.children)
  | _ => none

-- The names and values of an object from those of its children.
def properties (trees : List Tree) : List (String × Option Tree) :=
  (trees.filter (·.is .propertyNameAndValueList)).flatMap fun list =>
    list.children.filterMap propertyOf?

def elements (trees : List Tree) : List (Option Tree) :=
  (trees.filter (·.is .elementList)).flatMap fun list =>
    (list.children.filter (·.is .propertyValue)).map fun value => held? value.children

theorem exists_of_propertyOf? {tree : Tree} {property : String × Option Tree}
    (h : tree.propertyOf? = some property) :
    ∃ start parts, tree = .node .propertyAssignment start parts := by
  unfold propertyOf? at h
  split at h
  · exact ⟨_, _, rfl⟩
  · contradiction

section Conversion

variable (occasion : Occasion)

-- An absent value is an empty object.
def conversionOf : Option Tree → Conversion
  | none => .empty
  | some tree => tree.convert occasion

def propertyConversions (trees : List Tree) : List (String × Conversion) :=
  (properties trees).map fun property => (property.1, conversionOf occasion property.2)

def elementConversions (trees : List Tree) : List Conversion :=
  (elements trees).map (conversionOf occasion)

theorem convertFirst_eq (trees : List Tree) :
    convertFirst occasion trees = conversionOf occasion (held? trees) := by
  induction trees with
  | nil => rfl
  | cons tree trees ih =>
    cases tree with
    | node => rfl
    | _ => exact ih

theorem convertValueOf_eq (parts : List Tree) :
    convertValueOf occasion parts = conversionOf occasion
      ((parts.find? (·.is .propertyValue)).bind fun value => held? value.children) := by
  induction parts with
  | nil => rfl
  | cons tree trees ih =>
    by_cases hrule : tree.is .propertyValue
    · obtain ⟨start, children, rfl⟩ := is_iff.mp hrule
      exact convertFirst_eq occasion children
    · rw [List.find?_cons_of_neg (by exact hrule), ← ih, convertValueOf]
      rintro start children rfl
      exact hrule rfl

-- The fields that the conversions of some properties come to.
def fieldsOf (conversions : List (String × Conversion)) : List (String × Json) :=
  conversions.map fun conversion => (conversion.1, conversion.2.value)

theorem convertAssignments_eq (trees : List Tree) :
    convertAssignments occasion trees =
      let conversions := (trees.filterMap propertyOf?).map fun property =>
        (property.1, conversionOf occasion property.2)
      (fieldsOf conversions, conversions.flatMap fun conversion => conversion.2.reports) := by
  induction trees with
  | nil => rfl
  | cons tree trees ih =>
    by_cases hrule : tree.is .propertyAssignment
    · obtain ⟨start, parts, rfl⟩ := is_iff.mp hrule
      rw [convertAssignments, ih, convertValueOf_eq]
      cases hname : parts.find? (·.is .propertyName) <;> simp [propertyOf?, hname, fieldsOf]
    · have hother : ∀ start parts, tree = .node .propertyAssignment start parts → False := by
        rintro start parts rfl
        exact hrule rfl
      rw [convertAssignments, ih, List.filterMap_cons_none]
      · rw [propertyOf?]
        exact hother
      · exact hother

theorem convertLists_eq (trees : List Tree) :
    convertLists occasion trees = (fieldsOf (propertyConversions occasion trees),
      (propertyConversions occasion trees).flatMap fun conversion => conversion.2.reports) := by
  induction trees with
  | nil => rfl
  | cons tree trees ih =>
    by_cases hrule : tree.is .propertyNameAndValueList
    · obtain ⟨start, assignments, rfl⟩ := is_iff.mp hrule
      rw [convertLists, ih, convertAssignments_eq]
      simp [propertyConversions, properties, fieldsOf, hrule, children]
    · rw [convertLists, ih]
      · simp [propertyConversions, properties, hrule]
      · rintro start children rfl
        exact hrule rfl

theorem convertElements_eq (trees : List Tree) :
    convertElements occasion trees =
      let conversions := (trees.filter (·.is .propertyValue)).map fun value =>
        conversionOf occasion (held? value.children)
      (conversions.map Conversion.value, conversions.flatMap Conversion.reports) := by
  induction trees with
  | nil => rfl
  | cons tree trees ih =>
    by_cases hrule : tree.is .propertyValue
    · obtain ⟨start, held, rfl⟩ := is_iff.mp hrule
      rw [convertElements, ih, convertFirst_eq]
      simp [hrule, children]
    · rw [convertElements, ih]
      · simp [hrule]
      · rintro start children rfl
        exact hrule rfl

theorem convertElementLists_eq (trees : List Tree) :
    convertElementLists occasion trees =
      ((elementConversions occasion trees).map Conversion.value,
        (elementConversions occasion trees).flatMap Conversion.reports) := by
  induction trees with
  | nil => rfl
  | cons tree trees ih =>
    by_cases hrule : tree.is .elementList
    · obtain ⟨start, elements, rfl⟩ := is_iff.mp hrule
      rw [convertElementLists, ih, convertElements_eq]
      simp [elementConversions, Tree.elements, hrule, children, Function.comp_def]
    · rw [convertElementLists, ih]
      · simp [elementConversions, elements, hrule]
      · rintro start children rfl
        exact hrule rfl

variable (start : Nat) (children : List Tree)

theorem convert_carrier {rule : Rule} (hrule : rule = .argument ∨ rule = .propertyValue) :
    (node rule start children).convert occasion = conversionOf occasion (held? children) := by
  rcases hrule with rfl | rfl
  all_goals rw [convert, convertFirst_eq]

theorem convert_objectLiteral :
    (node .objectLiteral start children).convert occasion =
      ⟨.object (mergeFields (fieldsOf (propertyConversions occasion children))),
        (propertyConversions occasion children).flatMap fun conversion =>
          conversion.2.reports⟩ := by
  rw [convert, convertLists_eq]

theorem convert_arrayLiteral :
    (node .arrayLiteral start children).convert occasion =
      ⟨.array ((elementConversions occasion children).map Conversion.value),
        (elementConversions occasion children).flatMap Conversion.reports⟩ := by
  rw [convert, convertElementLists_eq]

end Conversion

section Induction

variable {tree : Tree} {trees : List Tree}

theorem mem_of_held (h : held? trees = some tree) : tree ∈ trees := List.mem_of_find?_eq_some h

-- The way down from an object to one of its values.
theorem exists_of_property {property : String × Option Tree} (h : property ∈ properties trees)
    (hheld : property.2 = some tree) : ∃ list ∈ trees, ∃ assignment ∈ list.children,
      ∃ value ∈ assignment.children, tree ∈ value.children := by
  obtain ⟨list, hlist, hproperty⟩ := List.mem_flatMap.mp h
  obtain ⟨assignment, hmem, hassignment⟩ := List.mem_filterMap.mp hproperty
  obtain ⟨start, parts, rfl⟩ := exists_of_propertyOf? hassignment
  obtain ⟨name, _, rfl⟩ := Option.map_eq_some_iff.mp hassignment
  obtain ⟨value, hvalue, hheld⟩ := Option.bind_eq_some_iff.mp hheld
  exact ⟨list, (List.mem_filter.mp hlist).1, _, hmem, value, List.mem_of_find?_eq_some hvalue,
    mem_of_held hheld⟩

theorem exists_of_element (h : some tree ∈ elements trees) : ∃ list ∈ trees,
    ∃ value ∈ list.children, tree ∈ value.children := by
  obtain ⟨list, hlist, helement⟩ := List.mem_flatMap.mp h
  obtain ⟨value, hvalue, hheld⟩ := List.mem_map.mp helement
  exact ⟨list, (List.mem_filter.mp hlist).1, value, (List.mem_filter.mp hvalue).1,
    mem_of_held hheld⟩

theorem sizeOf_of_mem_children {child : Tree} (h : child ∈ tree.children) :
    sizeOf child < sizeOf tree := by
  cases tree with
  | node rule start children =>
    have hlt : sizeOf child < sizeOf children := List.sizeOf_lt_of_mem h
    rw [node.sizeOf_spec]
    omega
  | _ => contradiction

theorem sizeOf_node (rule : Rule) (start : Nat) (trees : List Tree) :
    sizeOf trees < sizeOf (node rule start trees) := by
  rw [node.sizeOf_spec]
  omega

theorem sizeOf_held (h : held? trees = some tree) : sizeOf tree < sizeOf trees :=
  List.sizeOf_lt_of_mem (mem_of_held h)

theorem sizeOf_property {property : String × Option Tree} (h : property ∈ properties trees)
    (hheld : property.2 = some tree) : sizeOf tree < sizeOf trees := by
  obtain ⟨list, hlist, assignment, hassignment, value, hvalue, htree⟩ := exists_of_property h hheld
  calc sizeOf tree
    _ < sizeOf value := sizeOf_of_mem_children htree
    _ < sizeOf assignment := sizeOf_of_mem_children hvalue
    _ < sizeOf list := sizeOf_of_mem_children hassignment
    _ < sizeOf trees := List.sizeOf_lt_of_mem hlist

theorem sizeOf_element (h : some tree ∈ elements trees) : sizeOf tree < sizeOf trees := by
  obtain ⟨list, hlist, value, hvalue, htree⟩ := exists_of_element h
  calc sizeOf tree
    _ < sizeOf value := sizeOf_of_mem_children htree
    _ < sizeOf list := sizeOf_of_mem_children hvalue
    _ < sizeOf trees := List.sizeOf_lt_of_mem hlist

-- A property of all trees from that of the values inside them.
theorem valueInduct {holds : Tree → Prop}
    (carrier : ∀ rule start children, rule = .argument ∨ rule = .propertyValue →
      (∀ tree, held? children = some tree → holds tree) → holds (node rule start children))
    (objectLiteral : ∀ start children,
      (∀ property ∈ properties children, ∀ tree, property.2 = some tree → holds tree) →
        holds (node .objectLiteral start children))
    (arrayLiteral : ∀ start children, (∀ tree, some tree ∈ elements children → holds tree) →
      holds (node .arrayLiteral start children))
    (other : ∀ tree : Tree, (∀ rule ∈ [Rule.argument, .propertyValue, .objectLiteral,
      .arrayLiteral], ¬ tree.is rule) → holds tree)
    (tree : Tree) : holds tree := by
  induction h : sizeOf tree using Nat.strongRecOn generalizing tree with
  | ind size ih =>
    cases tree with
    | node rule start children =>
      have hsize := sizeOf_node rule start children
      have hinner : ∀ tree : Tree, sizeOf tree < sizeOf children → holds tree :=
        fun tree hlt => ih (sizeOf tree) (by omega) tree rfl
      cases rule with
      | argument => exact carrier _ _ _ (.inl rfl) fun tree ht => hinner tree (sizeOf_held ht)
      | propertyValue => exact carrier _ _ _ (.inr rfl) fun tree ht => hinner tree (sizeOf_held ht)
      | objectLiteral =>
        exact objectLiteral _ _ fun _ hp tree ht => hinner tree (sizeOf_property hp ht)
      | arrayLiteral => exact arrayLiteral _ _ fun tree ht => hinner tree (sizeOf_element ht)
      | _ => exact other _ (by simp [Tree.is, rule?])
    | _ => exact other _ (by simp [Tree.is, rule?])

end Induction

end Tree

end QueryPad
