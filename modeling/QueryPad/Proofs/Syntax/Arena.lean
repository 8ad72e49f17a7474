import QueryPad.Syntax.Arena

-- The table of the nodes of a tree is the tree itself: each node stands where
-- reading the tree from left to right meets it first.
namespace QueryPad

namespace Tree

theorem count_pos (tree : Tree) : 0 < tree.count := by
  cases tree with
  | terminal => simp [count]
  | error => simp [count]
  | node rule start children =>
    rw [count]
    omega

theorem countAll_append (a b : List Tree) : countAll (a ++ b) = countAll a + countAll b := by
  induction a with
  | nil => rw [List.nil_append, countAll, Nat.zero_add]
  | cons tree trees ih => rw [List.cons_append, countAll, countAll, ih, Nat.add_assoc]

theorem le_of_mem_numbersFrom {id number : Nat} {trees : List Tree}
    (h : number ∈ numbersFrom id trees) : id ≤ number := by
  induction trees generalizing id with
  | nil => simp [numbersFrom] at h
  | cons tree trees ih =>
    rcases List.mem_cons.mp h with rfl | htail
    · exact Nat.le_refl _
    · have := ih htail
      omega

theorem numbersFrom_increasing (id : Nat) (trees : List Tree) :
    (numbersFrom id trees).Pairwise (· < ·) := by
  induction trees generalizing id with
  | nil => exact .nil
  | cons tree trees ih =>
    refine .cons (fun number hnumber => ?_) (ih _)
    have := le_of_mem_numbersFrom hnumber
    have := tree.count_pos
    omega

mutual

-- From the entry of a node on stand the entries of all its subtree.
theorem entriesFrom_drop {parent : Option Nat} {id first index : Nat} {tree : Tree} {entry : Entry}
    (h : (tree.entriesFrom parent id first)[index]? = some entry) :
    entry.tree.entriesFrom entry.parent (id + index) entry.first <+:
      (tree.entriesFrom parent id first).drop index := by
  cases index with
  | zero =>
    have hentry : entry.tree = tree ∧ entry.parent = parent ∧ entry.first = first := by
      cases tree <;> simp [entriesFrom] at h <;> simp [← h]
    rw [hentry.1, hentry.2.1, hentry.2.2]
    exact List.prefix_refl _
  | succ index =>
    cases tree with
    | terminal => simp [entriesFrom] at h
    | error => simp [entriesFrom] at h
    | node rule start children =>
      have hinside := @entriesOf_drop (some id) (id + 1) first index children entry h
      rw [Nat.add_right_comm] at hinside
      exact hinside

theorem entriesOf_drop {parent : Option Nat} {id first index : Nat} {trees : List Tree}
    {entry : Entry} (h : (entriesOf parent id first trees)[index]? = some entry) :
    entry.tree.entriesFrom entry.parent (id + index) entry.first <+:
      (entriesOf parent id first trees).drop index := by
  cases trees with
  | nil => simp [entriesOf] at h
  | cons tree trees =>
    rw [entriesOf] at h ⊢
    have hlength := length_entriesFrom parent id first tree
    by_cases hindex : index < tree.count
    · rw [List.getElem?_append_left (by omega)] at h
      rw [List.drop_append_of_le_length (by omega)]
      exact (entriesFrom_drop h).trans (List.prefix_append _ _)
    · rw [List.getElem?_append_right (by omega), hlength] at h
      have htail := entriesOf_drop h
      rw [List.drop_append, List.drop_eq_nil_of_le (by omega), List.nil_append, hlength]
      rwa [show id + tree.count + (index - tree.count) = id + index by omega] at htail

end

mutual

-- Only the first entry lacks a parent inside, and each of the others is one
-- of the children that its parent lists.
theorem entriesFrom_parent {parent : Option Nat} {id first index : Nat} {tree : Tree}
    {entry : Entry} (h : (tree.entriesFrom parent id first)[index]? = some entry) :
    (index = 0 ∧ entry.parent = parent) ∨
      ∃ above number, number < index ∧ entry.parent = some (id + number) ∧
        (tree.entriesFrom parent id first)[number]? = some above ∧ id + index ∈ above.children := by
  cases index with
  | zero => exact .inl ⟨rfl, by cases tree <;> simp [entriesFrom] at h <;> simp [← h]⟩
  | succ index =>
    cases tree with
    | terminal => simp [entriesFrom] at h
    | error => simp [entriesFrom] at h
    | node rule start children =>
      have hinside : (entriesOf (some id) (id + 1) first children)[index]? = some entry := h
      right
      rcases entriesOf_parent hinside with
        ⟨hparent, hmem⟩ | ⟨above, number, hlt, hparent, habove, hmem⟩
      · refine ⟨⟨.node rule start children, parent, numbersFrom (id + 1) children, first⟩, 0,
          by omega, hparent, rfl, ?_⟩
        rwa [Nat.add_right_comm] at hmem
      · refine ⟨above, number + 1, by omega, ?_, habove, ?_⟩
        · rw [hparent, Nat.add_right_comm, Nat.add_assoc]
        · rwa [Nat.add_right_comm] at hmem

theorem entriesOf_parent {parent : Option Nat} {id first index : Nat} {trees : List Tree}
    {entry : Entry} (h : (entriesOf parent id first trees)[index]? = some entry) :
    (entry.parent = parent ∧ id + index ∈ numbersFrom id trees) ∨
      ∃ above number, number < index ∧ entry.parent = some (id + number) ∧
        (entriesOf parent id first trees)[number]? = some above ∧ id + index ∈ above.children := by
  cases trees with
  | nil => simp [entriesOf] at h
  | cons tree trees =>
    rw [entriesOf] at h ⊢
    have hlength := length_entriesFrom parent id first tree
    by_cases hindex : index < tree.count
    · rw [List.getElem?_append_left (by omega)] at h
      rcases entriesFrom_parent h with ⟨rfl, hparent⟩ | ⟨above, number, hlt, hparent, habove, hmem⟩
      · exact .inl ⟨hparent, by simp [numbersFrom]⟩
      · refine .inr ⟨above, number, hlt, hparent, ?_, hmem⟩
        rw [List.getElem?_append_left (by omega)]
        exact habove
    · rw [List.getElem?_append_right (by omega), hlength] at h
      have hsum : id + tree.count + (index - tree.count) = id + index := by omega
      rcases entriesOf_parent h with ⟨hparent, hmem⟩ | ⟨above, number, hlt, hparent, habove, hmem⟩
      · exact .inl ⟨hparent, List.mem_cons_of_mem _ (hsum ▸ hmem)⟩
      · refine .inr ⟨above, tree.count + number, by omega, ?_, ?_, hsum ▸ hmem⟩
        · rw [hparent, Nat.add_assoc]
        · rw [List.getElem?_append_right (by omega), hlength, Nat.add_sub_cancel_left]
          exact habove

end

-- What stands at the number of a child names its parent.
theorem entriesOf_child {parent : Option Nat} {id first number : Nat} {trees : List Tree}
    (h : number ∈ numbersFrom id trees) :
    ∃ below, (entriesOf parent id first trees)[number - id]? = some below ∧
      below.parent = parent := by
  induction trees generalizing id first with
  | nil => simp [numbersFrom] at h
  | cons tree trees ih =>
    rw [entriesOf]
    rcases List.mem_cons.mp h with rfl | htail
    · rw [Nat.sub_self]
      cases tree <;> exact ⟨_, rfl, rfl⟩
    · obtain ⟨below, hbelow, hparent⟩ := ih htail
      have hle := le_of_mem_numbersFrom htail
      refine ⟨below, ?_, hparent⟩
      rw [List.getElem?_append_right (by rw [length_entriesFrom]; omega), length_entriesFrom,
        Nat.sub_sub]
      exact hbelow

section Arena

variable {tree : Tree} {id : Nat} {entry : Entry}

theorem arena_subtree (h : tree.arena[id]? = some entry) :
    entry.tree.entriesFrom entry.parent id entry.first <+: tree.arena.drop id := by
  have hprefix := entriesFrom_drop h
  rwa [Nat.zero_add] at hprefix

theorem arena_children (h : tree.arena[id]? = some entry) :
    entry.children = numbersFrom (id + 1) entry.tree.children := by
  obtain ⟨after, hafter⟩ := arena_subtree h
  have hhead : (entry.tree.entriesFrom entry.parent id entry.first ++ after)[0]? = some entry := by
    rw [hafter, List.getElem?_drop, Nat.add_zero, h]
  obtain ⟨inside, parent, children, first⟩ := entry
  cases inside <;> simpa [entriesFrom, numbersFrom, Tree.children, eq_comm] using hhead

theorem arena_root (h : tree.arena[id]? = some entry) : entry.parent = none ↔ id = 0 := by
  rcases entriesFrom_parent h with ⟨rfl, hparent⟩ | ⟨above, number, hlt, hparent, -⟩
  · simp [hparent]
  · simp only [hparent, reduceCtorEq, false_iff]
    omega

theorem arena_parent {parent : Nat} (h : tree.arena[id]? = some entry)
    (hparent : entry.parent = some parent) :
    parent < id ∧ ∃ above, tree.arena[parent]? = some above ∧ above.children.count id = 1 := by
  rcases entriesFrom_parent h with ⟨rfl, hnone⟩ | ⟨above, number, hlt, hnumber, habove, hmem⟩
  · simp [hparent] at hnone
  · rw [Nat.zero_add] at hnumber hmem
    obtain rfl : parent = number := Option.some.inj (hparent.symm.trans hnumber)
    refine ⟨hlt, above, habove, ?_⟩
    have hincreasing := numbersFrom_increasing (parent + 1) above.tree.children
    rw [← arena_children habove] at hincreasing
    have hdistinct : above.children.Nodup := hincreasing.imp Nat.ne_of_lt
    rw [hdistinct.count, if_pos hmem]

theorem arena_child {child : Nat} (h : tree.arena[id]? = some entry)
    (hmem : child ∈ entry.children) :
    ∃ below, tree.arena[child]? = some below ∧ below.parent = some id := by
  obtain ⟨after, hafter⟩ := arena_subtree h
  rw [arena_children h] at hmem
  have hle := le_of_mem_numbersFrom hmem
  cases hentry : entry.tree with
  | terminal => simp [hentry, Tree.children, numbersFrom] at hmem
  | error => simp [hentry, Tree.children, numbersFrom] at hmem
  | node rule start children =>
    rw [hentry, Tree.children] at hmem
    rw [hentry, entriesFrom] at hafter
    obtain ⟨below, hbelow, hparent⟩ := @entriesOf_child (some id) _ entry.first _ _ hmem
    refine ⟨below, ?_, hparent⟩
    have hfound : (tree.arena.drop id)[child - (id + 1) + 1]? = some below := by
      rw [← hafter, List.cons_append, List.getElem?_cons_succ]
      exact List.getElem?_append_left (List.getElem?_eq_some_iff.mp hbelow).1 ▸ hbelow
    rwa [List.getElem?_drop, show id + (child - (id + 1) + 1) = child by omega] at hfound

end Arena

end Tree

end QueryPad
