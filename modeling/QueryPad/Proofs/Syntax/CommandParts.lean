import QueryPad.Proofs.Syntax.Contents

-- What stands directly in a command: leaves, one collection at most, and calls.
-- Collections and commands stand nowhere else below a command.
namespace QueryPad.Syntax

open QueryPad.Tree

variable {inp : Input}

theorem Taken.andThen_trees (taken : Taken inp)
    (next : (mid : Input) → mid.size < inp.size → Parsed mid) :
    (taken.andThen next).trees = taken.tree :: (next taken.rest taken.size_lt).trees := rfl

-- Only what is read for a command may be a collection.
theorem collectionsOnTop : Scheme fun _ _ rule _ parsed =>
    rule ≠ .command → nodesOfAll .collection parsed.trees = [] where
  nothing _ _ _ := rfl
  noName _ _ _ _ := rfl
  report _ _ _ _ := rfl
  append head tail hrule := by
    rw [Parsed.append_trees, nodesOfAll_append, head hrule, tail hrule, List.append_nil]
  underNode := by
    intro _ _ inp parsed rule inner hplaces body hrule
    have hinner : inner ≠ .command := (Rule.ne_of_isOuter rfl hplaces.inside).symm
    have hne : inner ≠ .collection := by
      rintro rfl
      exact hrule (eq_of_holdsPart_collection hplaces.named)
    simp [nodesOfAll, nodesOf, hne, body hinner]
  valueNode := by
    intro rule inner inp _ hinner body _
    have hrule : inner ≠ .command ∧ inner ≠ .collection := by
      constructor <;> rintro rfl <;> simp [isValueRule] at hinner
    simp [nodesOfAll, nodesOf, hrule.2, body hrule.1]
  token h _ _ := nodesOfAll_taken h _
  brace h _ _ := nodesOfAll_taken h _
  comma h _ _ := nodesOfAll_taken h _
  name h _ _ := by
    have hleaf := nodesOfAll_taken h .collection
    rw [Taken.parsed_underNode]
    simpa [nodesOfAll, nodesOf] using hleaf
  skip _ inp kinds _ := nodesOfAll_skipTo inp kinds _

-- What a command's members are. A call is a name, and behind it a list.
inductive CommandPart : Tree → Prop where
  | leaf {tree : Tree} (hleaf : tree.isLeaf) : CommandPart tree
  | collection {start : Nat} {children : List Tree} (hleaves : ∀ tree ∈ children, tree.isLeaf) :
      CommandPart (.node .collection start children)
  | call {start listStart : Nat} {name : Token} {list : List Tree}
      (hname : name.kind = .identifier) (hcollections : nodesOfAll .collection list = [])
      (hcommands : nodesOfAll .command list = []) :
      CommandPart (.node .functionCall start [.terminal name, .node .arguments listStart list])

-- A list of members, with a bound on how many of them are collections.
structure IsMembers (bound : Nat) (trees : List Tree) : Prop where
  parts : ∀ tree ∈ trees, CommandPart tree
  collections : (trees.filter (·.is .collection)).length ≤ bound

theorem is_eq_false_of_isLeaf {tree : Tree} (hleaf : tree.isLeaf) (rule : Rule) :
    tree.is rule = false := by
  cases tree with
  | node => simp [isLeaf] at hleaf
  | _ => simp [Tree.is, rule?]

namespace IsMembers

variable {m n : Nat} {trees more : List Tree}

theorem of_leaves (h : ∀ tree ∈ trees, tree.isLeaf) (n : Nat) : IsMembers n trees := by
  refine ⟨fun tree htree => .leaf (h tree htree), ?_⟩
  have hnone : trees.filter (·.is .collection) = [] := by
    rw [List.filter_eq_nil_iff]
    intro tree htree
    rw [is_eq_false_of_isLeaf (h tree htree)]
    exact Bool.false_ne_true
  rw [hnone]
  exact Nat.zero_le n

theorem append (head : IsMembers m trees) (tail : IsMembers n more) :
    IsMembers (m + n) (trees ++ more) := by
  refine ⟨fun tree htree => ?_, ?_⟩
  · rcases List.mem_append.mp htree with htree | htree
    · exact head.parts tree htree
    · exact tail.parts tree htree
  · rw [List.filter_append, List.length_append]
    exact Nat.add_le_add head.collections tail.collections

theorem mono (h : IsMembers m trees) (hle : m ≤ n) : IsMembers n trees :=
  ⟨h.parts, Nat.le_trans h.collections hle⟩

theorem dotThen {dot : Taken inp} {next : (mid : Input) → mid.size < inp.size → Parsed mid}
    (h : Taken.first? inp (· = .dot) = some dot) (tail : ∀ mid h, IsMembers n (next mid h).trees) :
    IsMembers n (dot.andThen next).trees := by
  have hleaf : IsMembers 0 [dot.tree] :=
    .of_leaves (by simp [Taken.tree_eq (Taken.first?_eq_some_iff.mp h).1, isLeaf]) 0
  rw [Taken.andThen_trees]
  exact (hleaf.append (tail _ _)).mono (Nat.le_of_eq (Nat.zero_add n))

theorem reportThen {fault : SyntaxFault} {next : (mid : Input) → mid.size ≤ inp.size → Parsed mid}
    (tail : ∀ mid h, IsMembers n (next mid h).trees) :
    IsMembers n ((Parsed.report inp fault).andThen next).trees := by
  rw [Parsed.andThen, Parsed.append_trees]
  exact tail _ (Parsed.report inp fault).size_le

end IsMembers

theorem collection_isMembers {name : Taken inp}
    (h : Taken.first? inp (· = .identifier) = some name) :
    IsMembers 1 (collection name).trees := by
  refine ⟨fun tree htree => ?_, List.length_filter_le _ _⟩
  obtain rfl := List.mem_singleton.mp htree
  refine .collection fun leaf hleaf => ?_
  rcases List.mem_cons.mp hleaf with rfl | hpart
  · rw [Taken.tree_eq (Taken.first?_eq_some_iff.mp h).1]
    rfl
  · obtain ⟨token, _, rfl⟩ := List.mem_map.mp hpart
    rfl

theorem arguments_trees (inp : Input) : ∃ list,
    (arguments inp).trees = [.node .arguments inp.current.start list] ∧
      nodesOfAll .collection list = [] ∧ nodesOfAll .command list = [] := by
  have hcollections := collectionsOnTop.arguments_holds inp (by decide)
  have hcommands := (@innerNodes .command rfl).scheme.arguments_holds inp
  rw [arguments] at hcollections hcommands ⊢
  refine ⟨_, rfl, ?_, ?_⟩
  · simpa [nodesOfAll, nodesOf] using hcollections
  · simpa [nodesOfAll, nodesOf] using hcommands

theorem functionCall_isMembers {name : Taken inp}
    (h : Taken.first? inp (· = .identifier) = some name) :
    IsMembers 0 (functionCall name).trees := by
  obtain ⟨hnext, hkind⟩ := Taken.first?_eq_some_iff.mp h
  obtain ⟨list, hlist, hcollections, hcommands⟩ := arguments_trees name.rest
  have htrees : (functionCall name).trees =
      [.node .functionCall inp.current.start
        [.terminal name.token, .node .arguments name.rest.current.start list]] := by
    rw [functionCall, Parsed.underNode_trees, Taken.andThen_trees, Taken.tree_eq hnext, hlist]
  rw [htrees]
  refine ⟨fun tree htree => ?_, Nat.le_refl 0⟩
  obtain rfl := List.mem_singleton.mp htree
  exact .call (of_decide_eq_true hkind) hcollections hcommands

mutual

theorem members_isMembers (inp : Input) (first : Bool) :
    IsMembers first.toNat (members inp first).trees := by
  rw [members]
  split
  · next dot h => exact .dotThen h fun mid _ => member_isMembers mid first
  · split
    · exact .reportThen fun mid _ => member_isMembers mid first
    · exact .of_leaves (by simp [Parsed.nothing]) _
termination_by 2 * inp.size + 1

theorem member_isMembers (inp : Input) (first : Bool) :
    IsMembers first.toNat (member inp first).trees := by
  rw [member]
  split
  · exact .of_leaves (by simp [Parsed.report]) _
  · next name h =>
    split
    · next hname =>
      have := collection_size_lt name
      obtain ⟨rfl, _⟩ : first = true ∧ _ := by simpa using hname
      exact (collection_isMembers h).append (members_isMembers _ false)
    · have := functionCall_size_lt name
      exact ((functionCall_isMembers h).append (members_isMembers _ false)).mono (Nat.zero_le _)
termination_by 2 * inp.size

end

theorem commandBody_isMembers (inp : Input) : IsMembers 1 (commandBody inp).trees := by
  have hcheck : (callCheck (members inp true)).trees = [] := by
    rw [callCheck]
    split <;> rfl
  rw [commandBody, Parsed.append_trees, hcheck, List.append_nil]
  exact members_isMembers inp true

-- A command is a leaf, its members, and perhaps a leaf behind them.
theorem command_isMembers {db : Taken inp} (h : Taken.next? inp = some db) : ∃ children,
    (command db).trees = [.node .command inp.current.start children] ∧ IsMembers 1 children := by
  refine ⟨_, command_trees h, ?_⟩
  have hdb : IsMembers 0 [.terminal db.token] := .of_leaves (by simp [isLeaf]) 0
  have hending : IsMembers 0 (Parsed.optional (commandBody db.rest).rest .semicolon).trees :=
    .of_leaves (fun _ => isLeaf_of_mem_optional) 0
  exact hdb.append ((commandBody_isMembers db.rest).append hending)

-- What the list of commands of a text is made of, as far as commands go.
inductive ListItem : Tree → Prop where
  | command {start : Nat} {children : List Tree} (hmembers : IsMembers 1 children) :
      ListItem (.node .command start children)
  | emptyCommand {start : Nat} {token : Token} :
      ListItem (.node .emptyCommand start [.terminal token])
  | skipped {token : Token} : ListItem (.error token)

theorem commandItem_listItems {token : Taken inp} (h : Taken.next? inp = some token) :
    ∀ tree ∈ (commandItem token).trees, ListItem tree := by
  intro tree htree
  rw [commandItem] at htree
  split at htree
  · obtain ⟨children, htrees, hmembers⟩ := command_isMembers h
    rw [htrees] at htree
    obtain rfl := List.mem_singleton.mp htree
    exact .command hmembers
  · rw [emptyCommand_trees h] at htree
    obtain rfl := List.mem_singleton.mp htree
    exact .emptyCommand
  · rcases List.mem_cons.mp htree with rfl | hskipped
    · exact .skipped
    · obtain ⟨skipped, _, _, rfl⟩ := eq_error_of_mem_skipUntil hskipped
      exact .skipped

theorem commandList_listItems (inp : Input) :
    ∀ tree ∈ (commandList inp).trees, ListItem tree := by
  fun_induction commandList inp with
  | case1 | case2 => simp [Parsed.nothing]
  | case3 inp token h hend ih => exact List.forall_mem_append.mpr ⟨commandItem_listItems h, ih⟩

end QueryPad.Syntax
