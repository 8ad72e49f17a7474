import QueryPad.Proofs.Syntax.Nesting
import QueryPad.Proofs.Syntax.Nodes
import QueryPad.Syntax.Walk

-- Walks that ask the literals of a tree for a value: which one they end with,
-- and which nodes they come to on the way.
namespace QueryPad

open Focus

variable {α β : Type}

namespace Walk

-- The values of the literals, of which the last one stays.
def lastOf (value : Focus → Option β) : Walk (Option β) where
  answer focus := if focus.tree.is .literal then some (value focus) else none
  seed _ := none
  join := keepLast Option.isNone

-- The same, but nothing is visited once there is a value.
def firstOf (value : Focus → Option β) : Walk (Option β) :=
  { lastOf value with goesOn := fun _ soFar => soFar.isNone }

theorem lastLiteral_eq : lastLiteral = lastOf fun literal => some literal.tree.text := rfl

theorem firstLiteral_eq : firstLiteral = firstOf fun literal => some literal.tree.text := rfl

-- A walk with a record of the nodes that it came to, and of the children before
-- which it was asked whether it goes on.
structure Course (α : Type) where
  result : α
  entered : List Focus
  asked : List Focus

mutual

def course (walk : Walk α) (above : List (Tree × Nat)) (tree : Tree) : Course α :=
  match walk.answer ⟨tree, above⟩ with
  | some answer => ⟨answer, [⟨tree, above⟩], []⟩
  | none =>
    match tree with
    | .node rule start children =>
      let inside := courseAll walk ⟨.node rule start children, above⟩ 0
        (walk.seed ⟨.node rule start children, above⟩) children
      ⟨inside.result, ⟨.node rule start children, above⟩ :: inside.entered, inside.asked⟩
    | leaf => ⟨walk.seed ⟨leaf, above⟩, [⟨leaf, above⟩], []⟩

def courseAll (walk : Walk α) (parent : Focus) (index : Nat) (soFar : α) :
    List Tree → Course α
  | [] => ⟨soFar, [], []⟩
  | tree :: trees =>
    let child : Focus := ⟨tree, (parent.tree, index) :: parent.above⟩
    if walk.goesOn parent soFar then
      let first := course walk child.above tree
      let others := courseAll walk parent (index + 1) (walk.join soFar first.result) trees
      ⟨others.result, first.entered ++ others.entered, child :: (first.asked ++ others.asked)⟩
    else ⟨soFar, [], [child]⟩

end

mutual

-- The record changes nothing about the walk.
theorem visit_eq_course (walk : Walk α) (above : List (Tree × Nat)) (tree : Tree) :
    walk.visit above tree =
      ((walk.course above tree).result, (walk.course above tree).asked.length) := by
  rw [visit.eq_def, course.eq_def]
  cases walk.answer ⟨tree, above⟩ with
  | some answer => rfl
  | none =>
    cases tree with
    | terminal | error => rfl
    | node rule start children => exact visitAll_eq_courseAll walk _ _ _ children

theorem visitAll_eq_courseAll (walk : Walk α) (parent : Focus) (index : Nat) (soFar : α)
    (trees : List Tree) :
    walk.visitAll parent index soFar trees = ((walk.courseAll parent index soFar trees).result,
      (walk.courseAll parent index soFar trees).asked.length) := by
  cases trees with
  | nil => rfl
  | cons tree trees =>
    rw [visitAll, courseAll]
    split
    · dsimp only
      rw [visit_eq_course walk]
      dsimp only
      rw [visitAll_eq_courseAll walk, List.length_cons, List.length_append]
    · rfl

end

theorem courseAll_cons {walk : Walk α} {parent : Focus} {index : Nat} {soFar : α} {tree : Tree}
    {trees : List Tree} {first others : Course α} (hgoes : walk.goesOn parent soFar)
    (hfirst : walk.course ((parent.tree, index) :: parent.above) tree = first)
    (hothers : walk.courseAll parent (index + 1) (walk.join soFar first.result) trees = others) :
    walk.courseAll parent index soFar (tree :: trees) =
      ⟨others.result, first.entered ++ others.entered,
        ⟨tree, (parent.tree, index) :: parent.above⟩ :: (first.asked ++ others.asked)⟩ := by
  rw [courseAll, if_pos hgoes]
  dsimp only
  rw [hfirst, hothers]

theorem course_node {walk : Walk α} {above : List (Tree × Nat)} {rule : Rule} {start : Nat}
    {children : List Tree} {inside : Course α}
    (hanswer : walk.answer ⟨.node rule start children, above⟩ = none)
    (hinside : walk.courseAll ⟨.node rule start children, above⟩ 0
      (walk.seed ⟨.node rule start children, above⟩) children = inside) :
    walk.course above (.node rule start children) =
      ⟨inside.result, ⟨.node rule start children, above⟩ :: inside.entered, inside.asked⟩ := by
  rw [course.eq_def, hanswer]
  dsimp only
  rw [hinside]

end Walk

-- No literal holds more than leaves.
inductive Tree.HasPlainLiterals : Tree → Prop where
  | leaf {tree : Tree} (h : tree.isLeaf) : HasPlainLiterals tree
  | literal {start : Nat} {children : List Tree} (h : ∀ child ∈ children, child.isLeaf) :
      HasPlainLiterals (.node .literal start children)
  | node {rule : Rule} {start : Nat} {children : List Tree} (hrule : rule ≠ .literal)
      (h : ∀ child ∈ children, HasPlainLiterals child) :
      HasPlainLiterals (.node rule start children)

namespace Focus

def isLiteral (focus : Focus) : Bool := focus.tree.is .literal

-- Not right below a literal.
def isOutside (focus : Focus) : Bool := focus.parent?.all (!isLiteral ·)

-- The literals under a node from left to right.
def literals (focus : Focus) : List Focus := focus.nodes.filter isLiteral

end Focus

namespace Walk

section Literals

variable {value : Focus → Option β} {tree : Tree} {above : List (Tree × Nat)}

theorem keepLast_isNone (soFar next : Option β) :
    keepLast Option.isNone soFar next = next.or soFar := by
  cases next <;> rfl

-- The nodes below a parent, one child after the other.
theorem filter_belowOf_cons (holds : Focus → Bool) (parent : Focus) (index : Nat) (tree : Tree)
    (trees : List Tree) :
    (belowOf parent.tree parent.above index (tree :: trees)).filter holds =
      (nodes ⟨tree, (parent.tree, index) :: parent.above⟩).filter holds ++
        (belowOf parent.tree parent.above (index + 1) trees).filter holds := by
  rw [← List.filter_append]
  rfl

theorem mem_below {focus node : Focus} (h : node ∈ focus.below)
    (hleaves : ∀ child ∈ focus.tree.children, child.isLeaf) :
    node.tree.isLeaf ∧ node.parent? = some focus := by
  rw [below_eq_flatMap] at h
  obtain ⟨child, hchild, hnode⟩ := List.mem_flatMap.mp h
  have hleaf : child.tree.isLeaf :=
    hleaves _ (map_tree_children focus ▸ List.mem_map_of_mem hchild)
  obtain ⟨index, hindex, rfl⟩ := List.mem_mapIdx.mp hchild
  rcases List.mem_cons.mp hnode with rfl | hinside
  · exact ⟨hleaf, rfl⟩
  · rw [below_eq_flatMap, children] at hinside
    revert hleaf hinside
    cases focus.tree.children[index] <;> simp [Tree.isLeaf, Tree.children]

-- Nothing below a literal is a literal or stands outside of it.
theorem literals_of_isLiteral {focus : Focus} (h : focus.isLiteral)
    (hleaves : ∀ child ∈ focus.tree.children, child.isLeaf) :
    focus.literals = [focus] ∧ focus.below.filter isOutside = [] := by
  constructor
  · rw [literals, nodes, List.filter_cons_of_pos h, List.filter_eq_nil_iff.mpr]
    intro node hnode hliteral
    have hleaf := (mem_below hnode hleaves).1
    obtain ⟨start, children, htree⟩ := Tree.is_iff.mp hliteral
    rw [htree] at hleaf
    contradiction
  · rw [List.filter_eq_nil_iff]
    intro node hnode
    simp [isOutside, (mem_below hnode hleaves).2, h]

theorem literals_of_not {focus : Focus} (h : ¬ focus.isLiteral) :
    focus.literals = focus.below.filter isLiteral := by
  rw [literals, nodes, List.filter_cons_of_neg h]

-- What a walk over all literals makes of a tree.
structure EndsWithLast (value : Focus → Option β) (above : List (Tree × Nat)) (tree : Tree) :
    Prop where
  result_eq : ((lastOf value).course above tree).result =
    ((literals ⟨tree, above⟩).filterMap value).getLast?
  asked_eq : ((lastOf value).course above tree).asked =
    (below ⟨tree, above⟩).filter isOutside

theorem courseAll_lastOf {parent : Focus} {trees : List Tree} (hparent : ¬ parent.isLiteral)
    (h : ∀ tree ∈ trees, ∀ above, EndsWithLast value above tree) (index : Nat)
    (soFar : Option β) :
    ((lastOf value).courseAll parent index soFar trees).result =
      (((belowOf parent.tree parent.above index trees).filter isLiteral).filterMap
        value).getLast?.or soFar ∧
    ((lastOf value).courseAll parent index soFar trees).asked =
      (belowOf parent.tree parent.above index trees).filter isOutside := by
  induction trees generalizing index soFar with
  | nil => exact ⟨rfl, rfl⟩
  | cons tree trees ih =>
    obtain ⟨hhead, htail⟩ := List.forall_mem_cons.mp h
    have hfirst := hhead ((parent.tree, index) :: parent.above)
    have hjoin : (lastOf value).join = keepLast Option.isNone := rfl
    obtain ⟨hresult, hasked⟩ := ih htail (index + 1) (keepLast Option.isNone soFar
      ((lastOf value).course ((parent.tree, index) :: parent.above) tree).result)
    have hchild : isOutside ⟨tree, (parent.tree, index) :: parent.above⟩ := by
      simpa [isOutside, parent?] using hparent
    rw [courseAll_cons rfl rfl rfl, hjoin]
    dsimp only
    constructor
    · rw [hresult, filter_belowOf_cons, List.filterMap_append, List.getLast?_append,
        keepLast_isNone, hfirst.result_eq, Option.or_assoc]
      rfl
    · rw [hasked, filter_belowOf_cons, nodes, List.filter_cons_of_pos hchild, hfirst.asked_eq]
      rfl

theorem course_lastOf (h : tree.HasPlainLiterals) (above : List (Tree × Nat)) :
    EndsWithLast value above tree := by
  induction h generalizing above with
  | @leaf tree hleaf =>
    cases tree with
    | node => contradiction
    | terminal | error => exact ⟨rfl, rfl⟩
  | @literal start children hleaves =>
    obtain ⟨hliterals, hbelow⟩ :=
      @literals_of_isLiteral ⟨.node .literal start children, above⟩ rfl hleaves
    refine ⟨?_, hbelow.symm⟩
    rw [hliterals]
    change value ⟨.node .literal start children, above⟩ = _
    cases hvalue : value ⟨.node .literal start children, above⟩ <;> simp [hvalue]
  | @node rule start children hrule hchildren ih =>
    have hself : ¬ isLiteral ⟨.node rule start children, above⟩ := by
      simpa [isLiteral, Tree.is, Tree.rule?] using hrule
    obtain ⟨hresult, hasked⟩ := courseAll_lastOf hself ih 0 none
    have hcourse : (lastOf value).course above (.node rule start children) = _ :=
      course_node (if_neg hself) rfl
    constructor
    · rw [hcourse, literals_of_not hself]
      exact hresult.trans Option.or_none
    · rw [hcourse]
      exact hasked

-- The literals without a value up to the first that has one, and that one.
def upToFirst (value : Focus → Option β) (literals : List Focus) : List Focus :=
  literals.takeWhile (value · |>.isNone) ++ (literals.find? (value · |>.isSome)).toList

theorem upToFirst_append (a b : List Focus) : upToFirst value (a ++ b) =
    upToFirst value a ++ if (a.filterMap value).head?.isSome then [] else upToFirst value b := by
  induction a with
  | nil => rfl
  | cons focus a ih =>
    cases hvalue : value focus with
    | none => simpa [upToFirst, hvalue] using ih
    | some => simp [upToFirst, hvalue]

structure EndsWithFirst (value : Focus → Option β) (above : List (Tree × Nat)) (tree : Tree) :
    Prop where
  result_eq : ((firstOf value).course above tree).result =
    ((literals ⟨tree, above⟩).filterMap value).head?
  entered_eq : ((firstOf value).course above tree).entered.filter isLiteral =
    upToFirst value (literals ⟨tree, above⟩)

-- Once there is a value, no further child is entered.
theorem courseAll_firstOf {parent : Focus} {trees : List Tree}
    (h : ∀ tree ∈ trees, ∀ above, EndsWithFirst value above tree) (index : Nat)
    (soFar : Option β) :
    ((firstOf value).courseAll parent index soFar trees).result =
      soFar.or (((belowOf parent.tree parent.above index trees).filter isLiteral).filterMap
        value).head? ∧
    ((firstOf value).courseAll parent index soFar trees).entered.filter isLiteral =
      if soFar.isSome then []
      else upToFirst value ((belowOf parent.tree parent.above index trees).filter isLiteral) := by
  induction trees generalizing index soFar with
  | nil => cases soFar <;> exact ⟨rfl, rfl⟩
  | cons tree trees ih =>
    cases soFar with
    | some found => exact ⟨rfl, rfl⟩
    | none =>
      obtain ⟨hhead, htail⟩ := List.forall_mem_cons.mp h
      have hfirst := hhead ((parent.tree, index) :: parent.above)
      have hjoin (next : Option β) : (firstOf value).join none next = next :=
        (keepLast_isNone none next).trans Option.or_none
      obtain ⟨hresult, hentered⟩ := ih htail (index + 1)
        ((firstOf value).course ((parent.tree, index) :: parent.above) tree).result
      rw [courseAll_cons rfl rfl rfl, hjoin]
      dsimp only
      constructor
      · rw [hresult, filter_belowOf_cons, List.filterMap_append, List.head?_append,
          hfirst.result_eq]
        rfl
      · rw [List.filter_append, hentered, hfirst.entered_eq, hfirst.result_eq,
          filter_belowOf_cons]
        exact (upToFirst_append _ _).symm

theorem course_firstOf (h : tree.HasPlainLiterals) (above : List (Tree × Nat)) :
    EndsWithFirst value above tree := by
  induction h generalizing above with
  | @leaf tree hleaf =>
    cases tree with
    | node => contradiction
    | terminal | error => exact ⟨rfl, rfl⟩
  | @literal start children hleaves =>
    obtain ⟨hliterals, -⟩ :=
      @literals_of_isLiteral ⟨.node .literal start children, above⟩ rfl hleaves
    constructor
    · rw [hliterals]
      change value ⟨.node .literal start children, above⟩ = _
      cases hvalue : value ⟨.node .literal start children, above⟩ <;> simp [hvalue]
    · rw [hliterals]
      change [(⟨.node .literal start children, above⟩ : Focus)] = _
      cases hvalue : value ⟨.node .literal start children, above⟩ <;> simp [upToFirst, hvalue]
  | @node rule start children hrule hchildren ih =>
    have hself : ¬ isLiteral ⟨.node rule start children, above⟩ := by
      simpa [isLiteral, Tree.is, Tree.rule?] using hrule
    obtain ⟨hresult, hentered⟩ :=
      @courseAll_firstOf _ value ⟨.node rule start children, above⟩ _ ih 0 none
    have hcourse : (firstOf value).course above (.node rule start children) = _ :=
      course_node (if_neg hself) rfl
    constructor
    · rw [hcourse, literals_of_not hself]
      exact hresult
    · rw [hcourse, literals_of_not hself, List.filter_cons_of_neg hself]
      exact hentered

end Literals

end Walk

namespace Syntax

theorem hasPlainLiterals_of_belongs {rule : Rule} {start : Nat} {children : List Tree}
    (hbelongs : ∀ child ∈ children, Belongs rule child)
    (hplain : ∀ child ∈ children, child.HasPlainLiterals) :
    (Tree.node rule start children).HasPlainLiterals := by
  by_cases hrule : rule = .literal
  · subst hrule
    refine .literal fun child hchild => ?_
    cases hbelongs child hchild with
    | terminal | error => rfl
    | @node _ inner _ _ hpart =>
      cases inner <;> contradiction
  · exact .node hrule hplain

theorem Belongs.hasPlainLiterals {rule : Rule} {tree : Tree} (h : Belongs rule tree) :
    tree.HasPlainLiterals := by
  induction h with
  | terminal | error => exact .leaf rfl
  | node _ hchildren ih => exact hasPlainLiterals_of_belongs hchildren ih

end Syntax

namespace Focus

theorem mem_below_iff {focus node : Focus} :
    node ∈ focus.below ↔ Under focus node ∧ node ≠ focus := by
  have hnodup := focus.nodup_nodes
  rw [nodes, List.nodup_cons] at hnodup
  constructor
  · intro hnode
    refine ⟨under_of_mem_nodes (List.mem_cons_of_mem _ hnode), ?_⟩
    rintro rfl
    exact hnodup.1 hnode
  · rintro ⟨hunder, hne⟩
    exact (List.mem_cons.mp hunder.mem_nodes).resolve_left hne

theorem mem_literals_iff {focus node : Focus} :
    node ∈ focus.literals ↔ Under focus node ∧ node.isLiteral := by
  rw [literals, List.mem_filter]
  exact and_congr_left' ⟨under_of_mem_nodes, Under.mem_nodes⟩

theorem literals_increasing (focus : Focus) : (focus.literals.map number).Pairwise (· < ·) := by
  have hnumbers : (focus.nodes.map number).Pairwise (· < ·) := by
    rw [map_number_nodes]
    exact List.pairwise_lt_range'
  exact hnumbers.sublist (List.filter_sublist.map number)

end Focus

namespace Pad

variable {text : String} {focus : Focus}

theorem hasPlainLiterals (h : Under (root (ofText text).tree) focus) :
    focus.tree.HasPlainLiterals := by
  have hbelongs := belongs_of_under h
  cases htree : focus.tree with
  | terminal | error => exact .leaf rfl
  | node rule start children =>
    rw [htree] at hbelongs
    have hchildren : ∀ child ∈ children, Syntax.Belongs rule child := by
      intro child hchild
      obtain ⟨other, hother, hbelongs⟩ := hbelongs child hchild
      obtain rfl : rule = other := by simpa [Tree.is, Tree.rule?] using hother
      exact hbelongs
    exact Syntax.hasPlainLiterals_of_belongs hchildren fun child hchild =>
      (hchildren child hchild).hasPlainLiterals

-- A walk from any node of a text ends with the value of the last literal that has
-- one. If it stops once there is a value, it ends with the first one, and comes to
-- no literal behind that. If it does not stop, it was asked before each node below
-- the first, but for those in literals, and before each of them once.
theorem walk_literals (h : Under (root (ofText text).tree) focus) (value : Focus → Option β) :
    (∀ node, node ∈ focus.literals ↔ Under focus node ∧ node.isLiteral) ∧
    (focus.literals.map number).Pairwise (· < ·) ∧
    ∃ last first : Walk.Course (Option β),
      (Walk.lastOf value).course focus.above focus.tree = last ∧
      (Walk.lastOf value).visit focus.above focus.tree = (last.result, last.asked.length) ∧
      (Walk.firstOf value).course focus.above focus.tree = first ∧
      (Walk.firstOf value).visit focus.above focus.tree = (first.result, first.asked.length) ∧
      last.result = (focus.literals.filterMap value).getLast? ∧
      first.result = (focus.literals.filterMap value).head? ∧
      first.entered.filter isLiteral = focus.literals.takeWhile (value · |>.isNone) ++
        (focus.literals.find? (value · |>.isSome)).toList ∧
      last.asked.Nodup ∧ ∀ node, node ∈ last.asked ↔
        Under focus node ∧ node ≠ focus ∧ ∀ parent ∈ node.parent?, ¬ parent.isLiteral := by
  have hplain := hasPlainLiterals h
  have hlast : Walk.EndsWithLast value focus.above focus.tree := Walk.course_lastOf hplain _
  have hfirst : Walk.EndsWithFirst value focus.above focus.tree := Walk.course_firstOf hplain _
  have hbelow : focus.below.Nodup := focus.nodup_nodes.of_cons
  refine ⟨fun _ => mem_literals_iff, literals_increasing focus, _, _, rfl,
    Walk.visit_eq_course _ _ _, rfl, Walk.visit_eq_course _ _ _, hlast.result_eq,
    hfirst.result_eq, hfirst.entered_eq, ?_, fun node => ?_⟩
  · rw [hlast.asked_eq]
    exact hbelow.filter _
  · rw [hlast.asked_eq, List.mem_filter, mem_below_iff, and_assoc]
    simp [isOutside, Option.all_eq_true]

-- The value of a literal that is not null, in a text with an array that is not
-- closed: the last walk ends with the string, the other one with the number.
theorem walk_literals_openArray :
    Under (root (ofText "db.a.find([null, 1, 'x')").tree)
      (root (ofText "db.a.find([null, 1, 'x')").tree) ∧
    (Walk.lastOf fun literal =>
        if literal.tree.text = "null" then none else some literal.tree.text).run
      (root (ofText "db.a.find([null, 1, 'x')").tree) = some "'x'" ∧
    (Walk.firstOf fun literal =>
        if literal.tree.text = "null" then none else some literal.tree.text).run
      (root (ofText "db.a.find([null, 1, 'x')").tree) = some "1" := by
  have hroot := @Under.refl (root (ofText "db.a.find([null, 1, 'x')").tree)
  obtain ⟨-, -, last, first, -, hlast, -, hfirst, hvalue, hother, -⟩ := walk_literals hroot
    fun literal => if literal.tree.text = "null" then none else some literal.tree.text
  refine ⟨hroot, ?_, ?_⟩
  · rw [Walk.run, hlast, hvalue]
    dsimp only
    decide +kernel
  · rw [Walk.run, hfirst, hother]
    dsimp only
    decide +kernel

end Pad

end QueryPad
