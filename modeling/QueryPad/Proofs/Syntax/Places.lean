import QueryPad.Proofs.Syntax.Builder

-- Where the leaves of a tree stand: under which rule, and as which child.
namespace QueryPad

-- A leaf, the rule of the node right above it, and its index among the
-- children of this node.
structure Place where
  token : Token
  matched : Bool
  rule : Rule
  index : Nat

def Place.leaf (place : Place) : Tree :=
  if place.matched then .terminal place.token else .error place.token

namespace Tree

mutual

-- The leaves of a tree that is a child of this index of a node of this rule.
def placesIn (rule : Rule) (index : Nat) : Tree → List Place
  | terminal token => [⟨token, true, rule, index⟩]
  | error token => [⟨token, false, rule, index⟩]
  | node inner _ children => placesOf inner 0 children

def placesOf (rule : Rule) (index : Nat) : List Tree → List Place
  | [] => []
  | tree :: trees => tree.placesIn rule index ++ placesOf rule (index + 1) trees

end

theorem placesOf_append (rule : Rule) (index : Nat) (a b : List Tree) :
    placesOf rule index (a ++ b) =
      placesOf rule index a ++ placesOf rule (index + a.length) b := by
  induction a generalizing index with
  | nil => rfl
  | cons tree trees ih =>
    rw [List.cons_append, placesOf, placesOf, ih, List.append_assoc, List.length_cons,
      Nat.add_assoc, Nat.add_comm 1]

mutual

theorem placesIn_tokens (rule : Rule) (index : Nat) (tree : Tree) :
    (tree.placesIn rule index).map Place.token = tree.tokens := by
  cases tree with
  | terminal => rfl
  | error => rfl
  | node inner start children => rw [placesIn, placesOf_tokens, tokens]

theorem placesOf_tokens (rule : Rule) (index : Nat) (trees : List Tree) :
    (placesOf rule index trees).map Place.token = tokensOf trees := by
  cases trees with
  | nil => rfl
  | cons tree trees =>
    rw [placesOf, List.map_append, placesIn_tokens, placesOf_tokens, tokensOf]

end

-- A table of entries, numbered from `id`, shows the leaf of this token number
-- at its place.
def Shows (entries : List Entry) (id number : Nat) (place : Place) : Prop :=
  ∃ below up entry above, entries[below]? = some entry ∧ entry.tree = place.leaf ∧
    entry.first = number ∧ entry.parent = some (id + up) ∧ entries[up]? = some above ∧
    above.tree.rule? = some place.rule ∧ above.children[place.index]? = some (id + below)

theorem Shows.append_right {entries : List Entry} {id number : Nat} {place : Place}
    (h : Shows entries id number place) (more : List Entry) :
    Shows (entries ++ more) id number place := by
  obtain ⟨below, up, entry, above, hentry, hleaf, hfirst, hparent, habove, hrule, hchild⟩ := h
  refine ⟨below, up, entry, above, ?_, hleaf, hfirst, hparent, ?_, hrule, hchild⟩
  · rw [List.getElem?_append_left (List.getElem?_eq_some_iff.mp hentry).1, hentry]
  · rw [List.getElem?_append_left (List.getElem?_eq_some_iff.mp habove).1, habove]

theorem Shows.append_left {entries : List Entry} {id number : Nat} {place : Place}
    (before : List Entry) (h : Shows entries (id + before.length) number place) :
    Shows (before ++ entries) id number place := by
  obtain ⟨below, up, entry, above, hentry, hleaf, hfirst, hparent, habove, hrule, hchild⟩ := h
  refine ⟨before.length + below, before.length + up, entry, above, ?_, hleaf, hfirst, ?_, ?_,
    hrule, ?_⟩
  · rw [List.getElem?_append_right (by omega), Nat.add_sub_cancel_left, hentry]
  · rw [hparent, Nat.add_assoc]
  · rw [List.getElem?_append_right (by omega), Nat.add_sub_cancel_left, habove]
  · rw [hchild, Nat.add_assoc]

mutual

theorem entriesFrom_place {parent : Option Nat} {id first number start : Nat} {rule : Rule}
    {children : List Tree} {place : Place} (h : (placesOf rule 0 children)[number]? = some place) :
    Shows ((node rule start children).entriesFrom parent id first) id (first + number) place := by
  rw [entriesFrom]
  rcases entriesOf_place (some id) (id + 1) first h with
    ⟨index, below, entry, rfl, hindex, hnumber, hentry, hleaf, hfirst, hparent⟩ | hinside
  · -- the leaf is a child of this node
    refine ⟨below + 1, 0, entry, _, ?_, hleaf, hfirst, hparent, List.getElem?_cons_zero, rfl, ?_⟩
    · rw [List.getElem?_cons_succ, hentry]
    · rw [hindex, Nat.zero_add, hnumber, Nat.add_right_comm, Nat.add_assoc]
  · rw [← List.singleton_append]
    exact Shows.append_left _ hinside
termination_by (sizeOf children, 1)

theorem entriesOf_place (parent : Option Nat) (id first : Nat) {number index : Nat} {rule : Rule}
    {trees : List Tree} {place : Place} (h : (placesOf rule index trees)[number]? = some place) :
    (∃ child below entry, place.rule = rule ∧ place.index = index + child ∧
        (numbersFrom id trees)[child]? = some (id + below) ∧
        (entriesOf parent id first trees)[below]? = some entry ∧ entry.tree = place.leaf ∧
        entry.first = first + number ∧ entry.parent = parent) ∨
      Shows (entriesOf parent id first trees) id (first + number) place := by
  cases trees with
  | nil => simp [placesOf] at h
  | cons tree trees =>
    have hcount := length_entriesFrom parent id first tree
    have hlength : (tree.placesIn rule index).length = tree.tokens.length := by
      rw [← placesIn_tokens rule index tree, List.length_map]
    rw [placesOf] at h
    rw [entriesOf]
    by_cases hnumber : number < tree.tokens.length
    · rw [List.getElem?_append_left (by omega)] at h
      cases tree with
      | terminal token =>
        obtain rfl : number = 0 := by simpa [tokens] using hnumber
        obtain rfl : ⟨token, true, rule, index⟩ = place := Option.some.inj h
        exact .inl ⟨0, 0, _, rfl, rfl, rfl, rfl, rfl, rfl, rfl⟩
      | error token =>
        obtain rfl : number = 0 := by simpa [tokens] using hnumber
        obtain rfl : ⟨token, false, rule, index⟩ = place := Option.some.inj h
        exact .inl ⟨0, 0, _, rfl, rfl, rfl, rfl, rfl, rfl, rfl⟩
      | node inner start children => exact .inr ((entriesFrom_place h).append_right _)
    · rw [List.getElem?_append_right (by omega), hlength] at h
      have hsum : first + tree.tokens.length + (number - tree.tokens.length) = first + number := by
        omega
      have htail := entriesOf_place parent (id + tree.count) (first + tree.tokens.length) h
      rw [hsum] at htail
      rcases htail with
        ⟨child, below, entry, hrule, hindex, hchild, hentry, hleaf, hfirst, hparent⟩ | hinside
      · refine .inl ⟨child + 1, tree.count + below, entry, hrule, by omega, ?_, ?_, hleaf, hfirst,
          hparent⟩
        · rw [numbersFrom, List.getElem?_cons_succ, hchild, Nat.add_assoc]
        · rw [List.getElem?_append_right (by omega), hcount, Nat.add_sub_cancel_left, hentry]
      · rw [← hcount] at hinside ⊢
        exact .inr (Shows.append_left _ hinside)
termination_by (sizeOf trees, 0)

end

end Tree

theorem Place.nodeKind_leaf (place : Place) :
    place.leaf.nodeKind = if place.matched then .terminal else .error := by
  cases hmatched : place.matched <;> simp [leaf, hmatched, Tree.nodeKind]

theorem Entry.kind_row_of_rule {entry : Entry} {rule : Rule} (h : entry.tree.rule? = some rule) :
    entry.row.kind = .rule rule := by
  cases htree : entry.tree with
  | terminal => simp [htree, Tree.rule?] at h
  | error => simp [htree, Tree.rule?] at h
  | node other => simpa [htree, Tree.rule?, row, Tree.nodeKind] using h

-- In a table of nodes, the token of a number is matched as the child of this
-- index of a node of this rule.
def StandsUnder (rows : List Row) (rule : Rule) (index number : Nat) : Prop :=
  ∃ (id parent : Nat) (row above : Row), rows[id]? = some row ∧ row.kind = .terminal ∧
    row.first = number ∧ row.parent = some parent ∧ rows[parent]? = some above ∧
    above.kind = .rule rule ∧ above.children[index]? = some id

-- Only the rows of the table need to be looked through.
theorem standsUnder_iff {rows : List Row} {rule : Rule} {index number : Nat} :
    StandsUnder rows rule index number ↔
      ∃ id < rows.length, ∃ row ∈ rows[id]?, (row.kind = .terminal ∧ row.first = number) ∧
        ∃ parent ∈ row.parent, ∃ above ∈ rows[parent]?,
          above.kind = .rule rule ∧ above.children[index]? = some id := by
  constructor
  · rintro ⟨id, parent, row, above, hrow, hterminal, hfirst, hparent, habove, hrule, hchild⟩
    have hid := (List.getElem?_eq_some_iff.mp hrow).1
    exact ⟨id, hid, row, hrow, ⟨hterminal, hfirst⟩, parent, hparent, above, habove, hrule, hchild⟩
  · rintro ⟨id, _, row, hrow, ⟨hterminal, hfirst⟩, parent, hparent, above, habove, hrule, hchild⟩
    exact ⟨id, parent, row, above, hrow, hterminal, hfirst, hparent, habove, hrule, hchild⟩

instance (rows : List Row) (rule : Rule) (index number : Nat) :
    Decidable (StandsUnder rows rule index number) :=
  decidable_of_iff _ standsUnder_iff.symm

namespace Tree

-- A token has one leaf.
theorem table_leaf_unique {tree : Tree} {id id' number : Nat} {row row' : Row}
    (h : tree.table[id]? = some row) (h' : tree.table[id']? = some row')
    (hnumber : row.token? = some number) (hnumber' : row'.token? = some number) : id = id' := by
  have hnodup : (tree.table.filterMap Row.token?).Pairwise (· ≠ ·) := by
    rw [table_tokens]
    exact List.nodup_range
  rw [List.pairwise_filterMap, List.pairwise_iff_getElem] at hnodup
  obtain ⟨hid, rfl⟩ := List.getElem?_eq_some_iff.mp h
  obtain ⟨hid', rfl⟩ := List.getElem?_eq_some_iff.mp h'
  rcases Nat.lt_trichotomy id id' with hlt | heq | hlt
  · exact absurd rfl (hnodup id id' hid hid' hlt number hnumber number hnumber')
  · exact heq
  · exact absurd rfl (hnodup id' id hid' hid hlt number hnumber' number hnumber)

section Root

variable {rule other : Rule} {start number index : Nat} {children : List Tree} {place : Place}

theorem standsUnder_of_place (start : Nat) (h : (placesOf rule 0 children)[number]? = some place)
    (hmatched : place.matched) :
    StandsUnder (node rule start children).table place.rule place.index number := by
  obtain ⟨below, up, entry, above, hentry, hleaf, hfirst, hparent, habove, hrule, hchild⟩ :=
    @entriesFrom_place none 0 0 number start rule children place h
  simp only [Nat.zero_add] at hfirst hparent hchild
  refine ⟨below, up, entry.row, above.row, getElem?_table hentry, ?_, hfirst, hparent,
    getElem?_table habove, Entry.kind_row_of_rule hrule, hchild⟩
  simp [Entry.row, hleaf, Place.nodeKind_leaf, hmatched]

theorem place_of_standsUnder (hplace : (placesOf rule 0 children)[number]? = some place)
    (h : StandsUnder (node rule start children).table other index number) :
    place.matched ∧ place.rule = other := by
  obtain ⟨below, up, entry, above, hentry, hleaf, hfirst, hparent, habove, hrule, _⟩ :=
    @entriesFrom_place none 0 0 number start rule children place hplace
  obtain ⟨id, parent, row, upper, hrow, hterminal, hnumber, hupper, hupperRow, hupperRule, _⟩ := h
  simp only [Nat.zero_add] at hfirst hparent
  have hkind : entry.row.kind = if place.matched then .terminal else .error := by
    rw [← Place.nodeKind_leaf, ← hleaf]
    rfl
  have htoken : entry.row.token? = some number := by
    rw [Row.token?, hkind]
    cases place.matched <;> exact congrArg some hfirst
  obtain rfl : below = id :=
    table_leaf_unique (getElem?_table hentry) hrow htoken (by simp [Row.token?, hterminal, hnumber])
  obtain rfl : entry.row = row := Option.some.inj ((getElem?_table hentry).symm.trans hrow)
  obtain rfl : up = parent := Option.some.inj (hparent.symm.trans hupper)
  obtain rfl : above.row = upper :=
    Option.some.inj ((getElem?_table habove).symm.trans hupperRow)
  constructor
  · cases hmatched : place.matched with
    | true => rfl
    | false => simp [hkind, hmatched] at hterminal
  · rw [Entry.kind_row_of_rule hrule] at hupperRule
    exact NodeKind.rule.inj hupperRule

end Root

end Tree

end QueryPad
