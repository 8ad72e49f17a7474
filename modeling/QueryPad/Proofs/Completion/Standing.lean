import QueryPad.Proofs.Command.Members
import QueryPad.Proofs.Completion.Elders
import QueryPad.Proofs.Syntax.Scheme
import QueryPad.Proofs.Syntax.Starts

-- Which brackets are taken to be open where a node of a derived tree begins, and
-- the way that leads there through the literals around it.
namespace QueryPad

namespace Tree

-- An array is entered through the list of its elements, an object through the
-- value of a property.
def stepInto? (tree child : Tree) : Option Schema.Step :=
  if child.is .elementList then some .item
  else if child.is .propertyValue then tree.propertyOf?.map fun property => .key property.1
  else none

-- If the tree is a call, or what a call has in parentheses, it has no commas of its own.
def HasOneArgument (tree : Tree) : Prop :=
  (tree.is .functionCall → tree.argumentsOf.length ≤ 1) ∧
    (tree.is .arguments → (tree.childrenOf .argument).length ≤ 1)

theorem hasOneArgument_of_ne {rule : Rule} {start : Nat} {children : List Tree}
    (hcall : rule ≠ .functionCall) (hlist : rule ≠ .arguments) :
    (node rule start children).HasOneArgument := by
  simp [HasOneArgument, is, rule?, hcall, hlist]

end Tree

namespace Focus

-- From the outermost literal to the one that a place stands in.
def steps (focus : Focus) : List Schema.Step :=
  go focus.tree focus.above
where
  go (tree : Tree) : List (Tree × Nat) → List Schema.Step
    | [] => []
    | (parent, _) :: above => go parent above ++ (parent.stepInto? tree).toList

-- A call that is a value, and not made on a command.
def isInnerCall (focus : Focus) : Bool :=
  focus.tree.is .functionCall && !focus.parent?.any (·.tree.is .command)

end Focus

namespace Completion

open Syntax

-- The parts of an object in which no value has begun.
def isPropertyPart : Rule → Bool
  | .propertyNameAndValueList | .propertyAssignment | .propertyName => true
  | _ => false

-- The parts of a value, its place included.
def isInValue : Rule → Bool
  | .propertyValue | .argument | .arguments | .functionCall => true
  | .objectLiteral | .arrayLiteral | .literal => true
  | _ => false

-- What stands right behind a bracket, a comma or a colon.
def isListPart (rule : Rule) : Bool :=
  isPropertyPart rule || rule = .elementList || rule = .propertyValue

def leadsIn : TokenKind → Bool
  | .openBrace | .openBracket | .comma | .colon => true
  | _ => false

-- The open brackets where a node begins, the innermost first, and the steps that
-- lead to it.
inductive Stands : Tree → List Frame → List Schema.Step → Prop where
  | outside {rule : Rule} {start : Nat} {children : List Tree}
      (hrule : rule.isOuter ∨ rule = .collection) : Stands (.node rule start children) [] []
  | awaiting {rule : Rule} {start : Nat} {children : List Tree} {outer : List Frame}
      (hrule : isPropertyPart rule) :
      Stands (.node rule start children) (.object none true :: outer)
        (outer.reverse.map Frame.step)
  | element {start : Nat} {children : List Tree} {outer : List Frame} :
      Stands (.node .elementList start children) (.array :: outer)
        ((.array :: outer).reverse.map Frame.step)
  -- outside of all literals a comma may well stand between arguments
  | settled {rule : Rule} {start : Nat} {children : List Tree} {open_ : List Frame}
      (hrule : isInValue rule) (hplace : rule = .propertyValue → open_ ≠ [])
      (hopen : ∀ frame ∈ open_.head?, frame.isSettled ∧
        (Tree.node rule start children).HasOneArgument) :
      Stands (.node rule start children) open_ (open_.reverse.map Frame.step)

namespace Stands

variable {rule : Rule} {start : Nat} {children : List Tree} {open_ : List Frame}
  {steps : List Schema.Step}

theorem of_nil (hrule : isListPart rule = false) : Stands (.node rule start children) [] [] := by
  by_cases hvalue : isInValue rule
  · refine .settled hvalue ?_ (by simp)
    rintro rfl
    contradiction
  · apply Stands.outside
    cases rule <;> first | exact .inl rfl | exact .inr rfl | contradiction

theorem eq_nil (h : Stands (.node rule start children) open_ steps) (hrule : rule.isOuter) :
    open_ = [] ∧ steps = [] := by
  cases h with
  | outside => exact ⟨rfl, rfl⟩
  | awaiting hself | settled hself => cases rule <;> contradiction
  | element => contradiction

theorem exists_object (h : Stands (.node rule start children) open_ steps)
    (hrule : isPropertyPart rule) :
    ∃ outer, open_ = .object none true :: outer ∧ steps = outer.reverse.map Frame.step := by
  cases h with
  | outside hself =>
    rcases hself with houter | rfl
    · cases rule <;> contradiction
    · contradiction
  | awaiting => exact ⟨_, rfl, rfl⟩
  | element => contradiction
  | settled hself => cases rule <;> contradiction

theorem exists_array (h : Stands (.node .elementList start children) open_ steps) :
    ∃ outer, open_ = .array :: outer ∧ steps = open_.reverse.map Frame.step := by
  cases h with
  | outside hself => rcases hself with hself | hself <;> contradiction
  | awaiting hself | settled hself => contradiction
  | element => exact ⟨_, rfl, rfl⟩

theorem of_isInValue (h : Stands (.node rule start children) open_ steps)
    (hrule : isInValue rule) : steps = open_.reverse.map Frame.step ∧
      (rule = .propertyValue → open_ ≠ []) ∧
      ∀ frame ∈ open_.head?, frame.isSettled ∧ (Tree.node rule start children).HasOneArgument := by
  cases h with
  | outside hself =>
    rcases hself with houter | rfl
    · cases rule <;> contradiction
    · contradiction
  | awaiting hself => cases rule <;> contradiction
  | element => contradiction
  | settled _ hplace hopen => exact ⟨rfl, hplace, hopen⟩

end Stands

theorem Frame.read_settled {token : Token} {open_ : List Frame}
    (hopen : ∀ frame ∈ open_.head?, frame.isSettled) (hplain : token.kind.isPlain)
    (hcomma : token.kind ≠ .comma) : [token].foldl Frame.read open_ = open_ := by
  rw [List.foldl_cons, List.foldl_nil]
  cases open_ with
  | nil => exact read_plain_nil hplain
  | cons frame outer => rw [read_plain hplain, next_of_isSettled (hopen frame rfl) hcomma]

section Items

variable {elders : List Token} (h : BeforeItem elders) (outer : List Frame)

include h

theorem BeforeItem.read_object :
    elders.foldl Frame.read (.object none true :: outer) = .object none true :: outer := by
  cases h with
  | first => rfl
  | @later elders own comma hclosed hcomma =>
    obtain ⟨key, expectsKey, hafter, -⟩ := Frame.after_object own
    rw [List.foldl_append, hclosed.read, hafter, List.foldl_cons, List.foldl_nil,
      Frame.read_plain (by rw [hcomma]; rfl), Frame.next_comma hcomma]

theorem BeforeItem.read_array :
    elders.foldl Frame.read (.array :: outer) = .array :: outer := by
  cases h with
  | first => rfl
  | later hclosed hcomma =>
    rw [List.foldl_append, hclosed.read, Frame.after_array, List.foldl_cons, List.foldl_nil,
      Frame.read_plain (by rw [hcomma]; rfl), Frame.next]

end Items

theorem Frame.read_named {name colon : Token} (hname : isName name.kind)
    (hcolon : colon.kind = .colon) (outer : List Frame) :
    [name, colon].foldl Frame.read (.object none true :: outer) =
      .object (some (.ofList (Literal.unquote name.chars))) false :: outer := by
  have hplain : name.kind.isPlain := by
    cases hkind : name.kind <;> simp [hkind, isName] at hname <;> rfl
  rw [List.foldl_cons, List.foldl_cons, List.foldl_nil, read_plain hplain,
    read_plain (by rw [hcolon]; rfl), next_name hname, next_colon hcolon]

theorem items_cases {list item : Rule}
    (h : production list = Symbol.commaSeparated (.rule item)) :
    list = .propertyNameAndValueList ∧ item = .propertyAssignment ∨
      list = .elementList ∧ item = .propertyValue := by
  cases list <;> cases h <;> simp

section Step

variable {outer child : Tree} {elders : List Token} {open_ : List Frame}
  {steps : List Schema.Step}

theorem stepInto?_eq_none {rule : Rule} {start : Nat} {children : List Tree}
    (h : isListPart rule = false) : outer.stepInto? (.node rule start children) = none := by
  rw [isListPart, Bool.or_eq_false_iff, Bool.or_eq_false_iff] at h
  rw [Tree.stepInto?, if_neg, if_neg]
  · simpa [Tree.is, Tree.rule?] using h.2
  · simpa [Tree.is, Tree.rule?] using h.1.2

-- One case for each way in which a node can stand in another one.
theorem Stands.step (hstands : Stands outer open_ steps) (h : Precedes outer elders child)
    (hcall : ¬ outer.is .command → child.is .functionCall → child.argumentsOf.length ≤ 1) :
    Stands child (elders.foldl Frame.read open_) (steps ++ (outer.stepInto? child).toList) := by
  have hstay : outer.stepInto? child = none → steps ++ (outer.stepInto? child).toList = steps := by
    intro hnone
    rw [hnone, Option.toList_none, List.append_nil]
  cases h with
  | @outside rule inner _ _ _ _ _ _ houter hpart hclosed =>
    have hinner : isListPart inner = false := by
      revert houter hpart
      cases rule <;> cases inner <;> decide
    obtain ⟨rfl, rfl⟩ := hstands.eq_nil houter
    rw [hstay (stepInto?_eq_none hinner), hclosed.read_nil]
    exact .of_nil hinner
  | arguments hname =>
    obtain ⟨rfl, -, hopen⟩ := hstands.of_isInValue rfl
    rw [hstay rfl, Frame.read_settled (fun frame hframe => (hopen frame hframe).1)
      (by rw [hname]; rfl) (by simp [hname])]
    refine .settled rfl (by simp) fun frame hframe => ⟨(hopen frame hframe).1, ?_, fun _ => ?_⟩
    · simp [Tree.is, Tree.rule?]
    · simpa [Tree.argumentsOf, Tree.childrenOf, Tree.children, Tree.is, Tree.rule?] using
        (hopen frame hframe).2.1 rfl
  | argument hclosed honly =>
    obtain ⟨rfl, -, hopen⟩ := hstands.of_isInValue rfl
    rw [hstay rfl]
    have hread : elders.foldl Frame.read open_ = open_ := by
      cases open_ with
      | nil => exact hclosed.read_nil
      | cons frame rest =>
        obtain ⟨paren, hparen, rfl⟩ := honly ((hopen frame rfl).2.2 rfl)
        exact Frame.read_settled (fun frame hframe => (hopen frame hframe).1)
          (by rw [hparen]; rfl) (by simp [hparen])
    rw [hread]
    exact .settled rfl (by simp) fun frame hframe =>
      ⟨(hopen frame hframe).1, Tree.hasOneArgument_of_ne (by simp) (by simp)⟩
  | @value rule inner _ _ _ _ hrule hpart =>
    have hinner : isInValue inner ∧ isListPart inner = false ∧ inner ≠ .arguments := by
      rcases hrule with rfl | rfl <;> revert hpart <;> cases inner <;> decide
    have hself : isInValue rule ∧ rule ≠ .command := by rcases hrule with rfl | rfl <;> decide
    obtain ⟨rfl, -, hopen⟩ := hstands.of_isInValue hself.1
    rw [hstay (stepInto?_eq_none hinner.2.1), List.foldl_nil]
    refine .settled hinner.1 ?_ fun frame hframe => ⟨(hopen frame hframe).1, hcall ?_, ?_⟩
    · rintro rfl
      exact absurd hinner.2.1 (by decide)
    · simpa [Tree.is, Tree.rule?] using hself.2
    · simp [Tree.is, Tree.rule?, hinner.2.2]
  | properties hbrace =>
    obtain ⟨rfl, -⟩ := hstands.of_isInValue rfl
    rw [hstay rfl, List.foldl_cons, List.foldl_nil, Frame.read_opening (by rw [hbrace]; rfl),
      Frame.ofBracket, if_neg (by simp [hbrace])]
    exact .awaiting rfl
  | elements hbracket =>
    obtain ⟨rfl, -⟩ := hstands.of_isInValue rfl
    rw [List.foldl_cons, List.foldl_nil, Frame.read_opening (by rw [hbracket]; rfl),
      Frame.ofBracket, if_pos hbracket]
    simpa [Tree.stepInto?, Tree.is, Tree.rule?, Frame.step] using @Stands.element _ _ open_
  | item hlist helders =>
    obtain ⟨rfl, rfl⟩ | ⟨rfl, rfl⟩ := items_cases hlist
    · obtain ⟨outer, rfl, rfl⟩ := hstands.exists_object rfl
      rw [hstay rfl, helders.read_object]
      exact .awaiting rfl
    · obtain ⟨outer, rfl, rfl⟩ := hstands.exists_array
      rw [hstay rfl, helders.read_array]
      refine .settled rfl (by simp) fun frame hframe => ?_
      obtain rfl := Option.some.inj hframe
      exact ⟨rfl, Tree.hasOneArgument_of_ne (by simp) (by simp)⟩
  | name =>
    obtain ⟨outer, rfl, rfl⟩ := hstands.exists_object rfl
    rw [hstay rfl, List.foldl_nil]
    exact .awaiting rfl
  | @named name colon start first second inside hname hcolon =>
    obtain ⟨outer, rfl, rfl⟩ := hstands.exists_object rfl
    rw [Frame.read_named hname hcolon]
    have hsettled := @Stands.settled .propertyValue second inside
      (.object (some (.ofList (Literal.unquote name.chars))) false :: outer) rfl (by simp)
      fun frame hframe => by
        obtain rfl := Option.some.inj hframe
        exact ⟨rfl, Tree.hasOneArgument_of_ne (by simp) (by simp)⟩
    simpa [Tree.stepInto?, Tree.propertyOf?, Tree.is, Tree.rule?, Tree.chars, Tree.tokens,
      Tree.tokensOf, Frame.step] using hsettled

-- The last token before a part of a list is a mark that leads to it, in the node
-- around it or before that.
theorem Precedes.exists_mark (h : Precedes outer elders child)
    (hchild : child.rule?.any isListPart) :
    elders = [] ∧ outer.rule?.any isListPart ∨ ∃ mark ∈ elders.getLast?, leadsIn mark.kind := by
  cases h with
  | @outside rule inner _ _ _ _ _ _ houter hpart =>
    revert houter hpart hchild
    cases rule <;> cases inner <;> intro hchild houter hpart <;> contradiction
  | arguments | argument => contradiction
  | @value rule inner _ _ _ _ hrule hpart =>
    revert hpart hchild
    rcases hrule with rfl | rfl <;> cases inner <;> intro hchild hpart <;> contradiction
  | @properties brace _ _ _ _ hbrace => exact .inr ⟨brace, rfl, by rw [hbrace]; rfl⟩
  | @elements bracket _ _ _ _ hbracket => exact .inr ⟨bracket, rfl, by rw [hbracket]; rfl⟩
  | item hlist helders =>
    cases helders with
    | first => obtain ⟨rfl, -⟩ | ⟨rfl, -⟩ := items_cases hlist <;> exact .inl ⟨rfl, rfl⟩
    | @later _ _ comma _ hcomma =>
      exact .inr ⟨comma, List.getLast?_concat, by rw [hcomma]; rfl⟩
  | name => exact .inl ⟨rfl, rfl⟩
  | @named _ colon _ _ _ _ _ hcolon => exact .inr ⟨colon, rfl, by rw [hcolon]; rfl⟩

end Step

section Run

open Focus

variable {tree child : Tree} {focus : Focus} {index : Nat} {part : Part}

theorem isLeaf_of_child {outer : Tree} (hchild : outer.children[index]? = some child) :
    outer.isLeaf = false := by
  obtain ⟨rule, start, children, rfl, -⟩ := Tree.exists_node_of_child hchild
  rfl

theorem precedes_of_child {outer : Tree} (h : IsPart part outer)
    (hchild : outer.children[index]? = some child) (hnode : child.isLeaf = false) :
    Precedes outer (Tree.tokensOf (outer.children.take index)) child := by
  cases child with
  | terminal | error => contradiction
  | node =>
    obtain ⟨rule, start, children, rfl, hchild⟩ := Tree.exists_node_of_child hchild
    exact precedes_of_isPart h hchild

-- What is open where a node begins is known from the nodes around it.
theorem stands_of_under (hroot : IsPart part tree) (hstands : Stands tree [] [])
    (hone : ∀ call, Under (root tree) call → call.isInnerCall → call.tree.argumentsOf.length ≤ 1)
    (h : Under (root tree) focus) (hnode : focus.tree.isLeaf = false) :
    Stands focus.tree ((tree.tokens.take focus.tokensBefore).foldl Frame.read []) focus.steps := by
  induction h with
  | refl => exact hstands
  | @child focus index child h hchild ih =>
    obtain ⟨inner, hpart⟩ := hroot.under h
    have hprecedes := precedes_of_child hpart hchild hnode
    have hparent := ih (isLeaf_of_child hchild)
    rw [h.take_tokensBefore hchild, List.foldl_append]
    refine hparent.step hprecedes fun hcommand hcall => ?_
    apply hone _ (h.child hchild)
    simp [isInnerCall, hcall, Focus.parent?, hcommand]

theorem exists_mark_of_under (hroot : IsPart part tree) (hpad : tree.rule?.any isListPart = false)
    (h : Under (root tree) focus) (hrule : focus.tree.rule?.any isListPart) :
    ∃ mark ∈ (tree.tokens.take focus.tokensBefore).getLast?, leadsIn mark.kind := by
  induction h with
  | refl => simp [root, hpad] at hrule
  | @child focus index child h hchild ih =>
    obtain ⟨inner, hpart⟩ := hroot.under h
    have hnode : child.isLeaf = false := by
      cases child with
      | terminal | error => contradiction
      | node => rfl
    rw [h.take_tokensBefore hchild, List.getLast?_append]
    rcases (precedes_of_child hpart hchild hnode).exists_mark hrule with
      ⟨hnone, hparent⟩ | ⟨mark, hmark, hleads⟩
    · rw [hnone]
      simpa using ih hparent
    · exact ⟨mark, by rw [Option.mem_def.mp hmark]; rfl, hleads⟩

end Run

end Completion

end QueryPad
