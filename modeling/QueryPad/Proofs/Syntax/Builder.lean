import QueryPad.Proofs.Syntax.Arena
import QueryPad.Syntax.Builder

-- Node by node, reading a tree builds the table of its nodes in their order.
namespace QueryPad

-- The last of so many tokens, if there are any.
def lastFrom (first count : Nat) : Option Nat :=
  if count = 0 then none else some (first + count - 1)

theorem lastFrom_append (first count more : Nat) :
    (lastFrom (first + count) more).or (lastFrom first count) = lastFrom first (count + more) := by
  by_cases hmore : more = 0
  · simp [lastFrom, hmore]
  · have hsum : count + more ≠ 0 := by omega
    rw [lastFrom, lastFrom, lastFrom, if_neg hmore, if_neg hsum, Option.some_or]
    congr 1
    omega

def Tree.nodeKind : Tree → NodeKind
  | .terminal _ => .terminal
  | .error _ => .error
  | .node rule _ _ => .rule rule

-- What the table says of a node.
def Entry.row (entry : Entry) : Row :=
  ⟨entry.tree.nodeKind, entry.parent, entry.children, entry.first,
    lastFrom entry.first entry.tree.tokens.length⟩

namespace Builder

theorem modify_append_of_lt {rows : List Row} {id : Nat} (h : id < rows.length)
    (f : Row → Row) (more : List Row) :
    (rows ++ more).modify id f = rows.modify id f ++ more := by
  induction rows generalizing id with
  | nil => simp at h
  | cons row rows ih =>
    cases id with
    | zero => rfl
    | succ id =>
      rw [List.cons_append, List.modify_succ_cons, List.modify_succ_cons, List.cons_append]
      rw [ih (by simpa using h)]

theorem modify_append_length (rows : List Row) (row : Row) (f : Row → Row)
    (more : List Row) :
    (rows ++ row :: more).modify rows.length f = rows ++ f row :: more := by
  induction rows with
  | nil => rfl
  | cons other rows ih =>
    rw [List.cons_append, List.length_cons, List.modify_succ_cons, ih, List.cons_append]

section Adopt

variable {parent : Option Nat} {rows : List Row}

theorem length_adopt (parent : Option Nat) (ids : List Nat) (rows : List Row) :
    (adopt parent ids rows).length = rows.length := by
  cases parent <;> simp [adopt]

theorem adopt_append (h : ∀ id ∈ parent, id < rows.length) (ids : List Nat) (more : List Row) :
    adopt parent ids (rows ++ more) = adopt parent ids rows ++ more := by
  cases parent with
  | none => rfl
  | some id => exact modify_append_of_lt (h id rfl) _ more

theorem adopt_adopt (ids more : List Nat) :
    adopt parent more (adopt parent ids rows) = adopt parent (ids ++ more) rows := by
  cases parent with
  | none => rfl
  | some id => simp [adopt, List.modify_modify_eq, Function.comp_def]

theorem adopt_nil : adopt parent [] rows = rows := by
  cases parent with
  | none => rfl
  | some id =>
    simp only [adopt, List.append_nil]
    exact List.modify_id id rows

end Adopt

-- The innermost open node is in the table, and the tokens taken stand before
-- the next.
structure Ready (b : Builder) (first : Nat) : Prop where
  parent : ∀ id ∈ b.stack.head?, id < b.rows.length
  taken : ∀ last ∈ b.lastTaken, last < first

-- The builder behind some nodes with so many tokens.
def after (b : Builder) (first count : Nat) (ids : List Nat) (entries : List Entry) : Builder :=
  ⟨adopt b.stack.head? ids b.rows ++ entries.map Entry.row, b.stack,
    (lastFrom first count).or b.lastTaken⟩

variable {b : Builder} {first : Nat}

theorem Ready.after (h : b.Ready first) (count : Nat) (ids : List Nat) (entries : List Entry) :
    (b.after first count ids entries).Ready (first + count) where
  parent := by
    intro id hid
    have hlt := h.parent id hid
    simp only [Builder.after, List.length_append, length_adopt]
    omega
  taken := by
    intro last hlast
    rcases Option.or_eq_some_iff.mp hlast with hown | ⟨_, hbefore⟩
    · rw [lastFrom] at hown
      split at hown
      · contradiction
      · obtain rfl := Option.some.inj hown
        omega
    · have := h.taken last hbefore
      omega

theorem after_after (h : b.Ready first) (count more : Nat) (ids ids' : List Nat)
    (entries entries' : List Entry) :
    (b.after first count ids entries).after (first + count) more ids' entries' =
      b.after first (count + more) (ids ++ ids') (entries ++ entries') := by
  have hparent : ∀ id ∈ b.stack.head?, id < (adopt b.stack.head? ids b.rows).length := by
    rw [length_adopt]
    exact h.parent
  simp only [after]
  rw [adopt_append hparent, adopt_adopt, ← Option.or_assoc, lastFrom_append, List.map_append,
    List.append_assoc]

theorem filter_lastFrom (h : ∀ last ∈ b.lastTaken, last < first) (count : Nat) :
    ((lastFrom first count).or b.lastTaken).filter (first ≤ ·) = lastFrom first count := by
  rw [lastFrom]
  split
  · rw [Option.none_or, Option.filter_eq_none_iff]
    intro last hlast
    have := h last hlast
    simpa using this
  · rw [Option.some_or, Option.filter_some, if_pos]
    simp only [decide_eq_true_eq]
    omega

theorem run_leaf (h : b.Ready first) {tree : Tree} (hleaf : tree.isLeaf) :
    (tree.eventsFrom first).foldl step b =
      b.after first tree.tokens.length [b.rows.length]
        (tree.entriesFrom b.stack.head? b.rows.length first) := by
  cases tree with
  | node => simp [Tree.isLeaf] at hleaf
  | terminal token =>
    simp only [Tree.eventsFrom, List.foldl_cons, List.foldl_nil, step, take, push,
      adopt_append h.parent]
    rfl
  | error token =>
    simp only [Tree.eventsFrom, List.foldl_cons, List.foldl_nil, step, take, push,
      adopt_append h.parent]
    rfl

-- A node that is entered ends up with the children that were built in it.
theorem leave_enter (h : b.Ready first) (rule : Rule) (count : Nat) (ids : List Nat)
    (entries : List Entry) :
    ((b.enter rule first).after first count ids entries).leave =
      ⟨adopt b.stack.head? [b.rows.length] b.rows ++
          ⟨.rule rule, b.stack.head?, ids, first, lastFrom first count⟩ :: entries.map Entry.row,
        b.stack, (lastFrom first count).or b.lastTaken⟩ := by
  generalize hrows : adopt b.stack.head? [b.rows.length] b.rows = rows
  have hlength : b.rows.length = rows.length := by rw [← hrows, length_adopt]
  have hopen : (b.enter rule first).rows =
      rows ++ [⟨.rule rule, b.stack.head?, [], first, none⟩] := by
    rw [← hrows]
    exact adopt_append h.parent _ _
  have hchildren : adopt (some b.rows.length) ids (b.enter rule first).rows =
      rows ++ [⟨.rule rule, b.stack.head?, ids, first, none⟩] := by
    rw [hopen, adopt, hlength]
    exact modify_append_length _ _ _ _
  have hstack : (b.enter rule first).stack = b.rows.length :: b.stack := rfl
  rw [after, hstack, List.head?_cons, hchildren, List.append_assoc, List.singleton_append, leave]
  simp only [hlength, modify_append_length]
  rw [show (b.enter rule first).lastTaken = b.lastTaken from rfl, filter_lastFrom h.taken]

mutual

theorem run_tree {b : Builder} {first : Nat} (h : b.Ready first) (tree : Tree) :
    (tree.eventsFrom first).foldl step b =
      b.after first tree.tokens.length [b.rows.length]
        (tree.entriesFrom b.stack.head? b.rows.length first) := by
  cases tree with
  | terminal token => exact run_leaf h rfl
  | error token => exact run_leaf h rfl
  | node rule start children =>
    -- the node stays open, and so is the parent of what follows, until it is left
    have hentered : (b.enter rule first).Ready first := by
      refine ⟨fun id hid => ?_, h.taken⟩
      obtain rfl : b.rows.length = id := Option.some.inj hid
      simp [enter, push, length_adopt]
    have hlength : (b.enter rule first).rows.length = b.rows.length + 1 := by
      simp [enter, push, length_adopt]
    rw [Tree.eventsFrom, List.foldl_cons, List.foldl_append, List.foldl_cons, List.foldl_nil]
    simp only [step]
    rw [run_trees hentered children, leave_enter h, hlength]
    simp [after, Tree.entriesFrom, Entry.row, Tree.nodeKind, Tree.tokens, enter]

theorem run_trees {b : Builder} {first : Nat} (h : b.Ready first) (trees : List Tree) :
    (Tree.eventsOf first trees).foldl step b =
      b.after first (Tree.tokensOf trees).length (Tree.numbersFrom b.rows.length trees)
        (Tree.entriesOf b.stack.head? b.rows.length first trees) := by
  cases trees with
  | nil =>
    simp [Tree.eventsOf, after, Tree.numbersFrom, Tree.entriesOf, Tree.tokensOf, adopt_nil,
      lastFrom]
  | cons tree trees =>
    have hlength : (b.after first tree.tokens.length [b.rows.length]
        (tree.entriesFrom b.stack.head? b.rows.length first)).rows.length =
          b.rows.length + tree.count := by
      simp [after, length_adopt, Tree.length_entriesFrom]
    rw [Tree.eventsOf, List.foldl_append, run_tree h tree, run_trees (h.after _ _ _) trees, hlength]
    rw [Tree.tokensOf, List.length_append]
    exact after_after h _ _ _ _ _ _

end

end Builder

-- A table that is one tree: only the first node has no parent, parents come
-- before their children and list each of them once and in order.
structure IsPreorder (rows : List Row) : Prop where
  root (id : Nat) (row : Row) : rows[id]? = some row → (row.parent = none ↔ id = 0)
  parent (id : Nat) (row : Row) (parent : Nat) : rows[id]? = some row →
    row.parent = some parent →
      parent < id ∧ ∃ above, rows[parent]? = some above ∧ above.children.count id = 1
  child (id : Nat) (row : Row) (child : Nat) : rows[id]? = some row →
    child ∈ row.children → ∃ below, rows[child]? = some below ∧ below.parent = some id
  increasing (row : Row) : row ∈ rows → row.children.Pairwise (· < ·)
  leaf (row : Row) : row ∈ rows → row.kind = .terminal ∨ row.kind = .error →
    row.children = []

-- The number of the token of a leaf.
def Row.token? (row : Row) : Option Nat :=
  match row.kind with
  | .rule _ => none
  | _ => some row.first

namespace Tree

-- The table is that of the nodes of the tree, each before those inside it.
theorem table_eq (tree : Tree) : tree.table = tree.arena.map Entry.row := by
  have hready : Builder.empty.Ready 0 := ⟨by simp [Builder.empty], by simp [Builder.empty]⟩
  have hroot : tree.arena ≠ [] := by cases tree <;> simp [arena, entriesFrom]
  rw [table, Builder.run_tree hready tree]
  generalize hbuilt : Builder.empty.after 0 tree.tokens.length [Builder.empty.rows.length]
    (tree.entriesFrom Builder.empty.stack.head? Builder.empty.rows.length 0) = built
  have hrows : built.rows = tree.arena.map Entry.row := by
    rw [← hbuilt]
    rfl
  have hstack : built.stack = [] := by
    rw [← hbuilt]
    rfl
  rw [Builder.finish, hstack, List.foldl_nil, hrows, if_neg]
  simpa using hroot

mutual

theorem entriesFrom_tokens (parent : Option Nat) (id first : Nat) (tree : Tree) :
    (tree.entriesFrom parent id first).filterMap (·.row.token?) =
      List.range' first tree.tokens.length := by
  cases tree with
  | terminal => rfl
  | error => rfl
  | node rule start children =>
    rw [entriesFrom, List.filterMap_cons_none rfl, entriesOf_tokens, tokens]

theorem entriesOf_tokens (parent : Option Nat) (id first : Nat) (trees : List Tree) :
    (entriesOf parent id first trees).filterMap (·.row.token?) =
      List.range' first (tokensOf trees).length := by
  cases trees with
  | nil => rfl
  | cons tree trees =>
    rw [entriesOf, List.filterMap_append, entriesFrom_tokens, entriesOf_tokens, tokensOf,
      List.length_append, List.range'_append_1]

end

-- From left to right the leaves hold the tokens by their numbers.
theorem table_tokens (tree : Tree) :
    tree.table.filterMap Row.token? = List.range tree.tokens.length := by
  rw [table_eq, List.filterMap_map, List.range_eq_range']
  exact entriesFrom_tokens none 0 0 tree

theorem exists_entry {tree : Tree} {id : Nat} {row : Row} (h : tree.table[id]? = some row) :
    ∃ entry : Entry, tree.arena[id]? = some entry ∧ entry.row = row := by
  rw [table_eq, List.getElem?_map] at h
  exact Option.map_eq_some_iff.mp h

theorem getElem?_table {tree : Tree} {id : Nat} {entry : Entry}
    (h : tree.arena[id]? = some entry) : tree.table[id]? = some entry.row := by
  rw [table_eq, List.getElem?_map, h]
  rfl

theorem table_isPreorder (tree : Tree) : IsPreorder tree.table := by
  constructor
  case root =>
    intro id row h
    obtain ⟨entry, hid, rfl⟩ := exists_entry h
    exact arena_root hid
  case parent =>
    intro id row parent h hparent
    obtain ⟨entry, hid, rfl⟩ := exists_entry h
    obtain ⟨hlt, above, habove, hcount⟩ := arena_parent hid hparent
    exact ⟨hlt, above.row, getElem?_table habove, hcount⟩
  case child =>
    intro id row child h hmem
    obtain ⟨entry, hid, rfl⟩ := exists_entry h
    obtain ⟨below, hbelow, hparent⟩ := arena_child hid hmem
    exact ⟨below.row, getElem?_table hbelow, hparent⟩
  case increasing =>
    intro row h
    obtain ⟨id, hfound⟩ := List.mem_iff_getElem?.mp h
    obtain ⟨entry, hid, rfl⟩ := exists_entry hfound
    rw [Entry.row, arena_children hid]
    exact numbersFrom_increasing _ _
  case leaf =>
    intro row h hleaf
    obtain ⟨id, hfound⟩ := List.mem_iff_getElem?.mp h
    obtain ⟨entry, hid, rfl⟩ := exists_entry hfound
    rw [Entry.row, arena_children hid]
    cases hentry : entry.tree with
    | terminal => rfl
    | error => rfl
    | node => simp [Entry.row, hentry, nodeKind] at hleaf

end Tree

end QueryPad
