import QueryPad.Proofs.Command.Patterns
import QueryPad.Proofs.Syntax.Unplaced

-- What a command says does not depend on where it stands, unless it asks for the
-- moment or for a new id.
namespace QueryPad

namespace Literal

-- A call that takes the moment, or a new id, for want of an argument.
def isMomentary (call : Tree) : Bool :=
  ["ObjectId", "ISODate", "Date"].contains (callName call) &&
    (call.childOf? .arguments).any fun list => (list.childrenOf .argument).all (·.chars.isEmpty)

end Literal

namespace Tree

-- No call inside takes the moment or a new id.
def IsSettled (tree : Tree) : Prop :=
  ∀ call ∈ tree.nodesOf .functionCall, ¬ Literal.isMomentary call

instance (tree : Tree) : Decidable tree.IsSettled :=
  inferInstanceAs (Decidable (∀ call ∈ tree.nodesOf .functionCall, ¬ Literal.isMomentary call))

section Members

variable (tree : Tree) (trees : List Tree) (rule : Rule)

theorem held?_unplaced : held? (trees.map unplaced) = (held? trees).map unplaced :=
  find?_unplaced _ fun tree => by rw [isLeaf_unplaced]

theorem propertyOf?_unplaced : tree.unplaced.propertyOf? =
    tree.propertyOf?.map fun property => (property.1, property.2.map unplaced) := by
  by_cases hrule : tree.is .propertyAssignment
  · obtain ⟨start, parts, rfl⟩ := is_iff.mp hrule
    rw [unplaced, unplacedAll_eq_map, propertyOf?, propertyOf?,
      find?_unplaced _ fun tree => tree.is_unplaced _,
      find?_unplaced _ fun tree => tree.is_unplaced _, Option.map_map, Option.map_map]
    congr 1
    funext name
    cases parts.find? (·.is .propertyValue) with
    | none => simp
    | some value => simp [held?_unplaced]
  · have hnone : ∀ tree : Tree, ¬ tree.is .propertyAssignment → tree.propertyOf? = none := by
      intro tree hother
      rw [propertyOf?]
      rintro start parts rfl
      exact hother rfl
    rw [hnone tree hrule, hnone tree.unplaced (by rwa [is_unplaced])]
    rfl

theorem properties_unplaced : properties (trees.map unplaced) =
    (properties trees).map fun property => (property.1, property.2.map unplaced) := by
  rw [properties, properties, filter_unplaced _ fun tree => tree.is_unplaced _, List.flatMap_map,
    List.map_flatMap]
  congr 1
  funext list
  rw [children_unplaced, List.filterMap_map, List.map_filterMap]
  congr 1
  funext assignment
  exact assignment.propertyOf?_unplaced

theorem elements_unplaced :
    elements (trees.map unplaced) = (elements trees).map (Option.map unplaced) := by
  rw [elements, elements, filter_unplaced _ fun tree => tree.is_unplaced _, List.flatMap_map,
    List.map_flatMap]
  congr 1
  funext list
  rw [children_unplaced, filter_unplaced _ fun tree => tree.is_unplaced _, List.map_map,
    List.map_map]
  congr 1
  funext value
  exact (congrArg held? value.children_unplaced).trans (held?_unplaced _)

end Members

end Tree

-- A conversion without the places of its reports.
def Conversion.said (conversion : Conversion) : Json × List ValueError :=
  (conversion.value, conversion.reports.map ValueReport.error)

namespace Literal

open QueryPad.Tree

variable (occasion again : Occasion) (tree whole : Tree) (trees : List Tree)

theorem said_ofExcept (result : Except ValueError Json) :
    (Conversion.ofExcept tree.unplaced result).said = (Conversion.ofExcept tree result).said := by
  cases result <;> rfl

theorem said_notUnderstood :
    (Conversion.failed tree.unplaced
      (.notUnderstood tree.unplaced.kindName tree.unplaced.text)).said =
      (Conversion.failed tree (.notUnderstood tree.kindName tree.text)).said := by
  rw [kindName_unplaced, text_unplaced]
  rfl

theorem ofToken_unplaced (token : Token) :
    ofToken whole.unplaced token.unplaced = ofToken whole token := by
  simp only [ofToken, text_unplaced]
  rfl

theorem said_ofLeaf :
    (ofLeaf whole.unplaced (trees.map unplaced)).said = (ofLeaf whole trees).said := by
  cases trees with
  | nil => rfl
  | cons tree trees =>
    cases tree with
    | node => rfl
    | _ =>
      rw [List.map_cons, unplaced, ofLeaf, ofLeaf, said_ofExcept, ofToken_unplaced]

theorem callName_unplaced : callName tree.unplaced = callName tree := by
  rw [callName, callName, children_unplaced,
    find?_unplaced _ fun tree => tree.isTerminal_unplaced _, Option.map_map]
  congr 2
  funext tree
  exact tree.text_unplaced

theorem make_some (name : String) (chars : List Char) :
    make again tree.unplaced name (some chars) = make occasion tree name (some chars) := by
  unfold make
  rw [text_unplaced]
  split <;> rfl

theorem make_none {name : String} (h : ¬ ["ObjectId", "ISODate", "Date"].contains name) :
    make again tree.unplaced name none = make occasion tree name none := by
  unfold make
  rw [text_unplaced]
  split
  case h_4 => rfl
  all_goals contradiction

theorem isMomentary_unplaced : isMomentary tree.unplaced = isMomentary tree := by
  rw [isMomentary, isMomentary, callName_unplaced, childOf?_unplaced, Option.any_map]
  congr 2
  funext list
  simp only [childrenOf_unplaced, List.all_map]
  congr 1
  funext argument
  simp

theorem said_call (h : ¬ isMomentary tree) :
    (call again tree.unplaced).said = (call occasion tree).said := by
  rw [call, call, childOf?_unplaced]
  cases hlist : tree.childOf? .arguments with
  | none => rfl
  | some list =>
    have hopening : list.unplaced.children.any (·.isTerminal .openParen) =
        list.children.any (·.isTerminal .openParen) := by
      rw [children_unplaced, List.any_map]
      congr 1
      funext child
      exact child.isTerminal_unplaced _
    dsimp only [Option.map_some]
    rw [said_ofExcept, hopening, childrenOf_unplaced, callName_unplaced, text_unplaced]
    congr 2
    have hmissing : (list.childrenOf .argument).all (·.chars.isEmpty) →
        make again tree.unplaced (callName tree) none =
          make occasion tree (callName tree) none := by
      intro hempty
      refine make_none occasion again tree fun hname => h ?_
      rw [isMomentary, hname, hlist]
      exact hempty
    split
    · rfl
    · cases harguments : list.childrenOf .argument with
      | nil => exact hmissing (by rw [harguments]; rfl)
      | cons argument others =>
        cases others with
        | cons => rfl
        | nil =>
          simp only [List.map_cons, List.map_nil, chars_unplaced]
          split
          · next hempty => exact hmissing (by rw [harguments]; simpa using hempty)
          · exact make_some occasion again tree _ _

end Literal

namespace Tree

open Literal

theorem isSettled_unplaced {tree : Tree} : tree.unplaced.IsSettled ↔ tree.IsSettled := by
  simp only [IsSettled, nodesOf_unplaced, List.forall_mem_map, isMomentary_unplaced]

theorem IsSettled.child {tree child : Tree} (h : tree.IsSettled) (hmem : child ∈ tree.children) :
    child.IsSettled := by
  cases tree with
  | node rule start children =>
    intro call hcall
    have hinside : call ∈ nodesOfAll .functionCall children := by
      rw [nodesOfAll_eq_flatMap]
      exact List.mem_flatMap.mpr ⟨child, hmem, hcall⟩
    refine h call ?_
    rw [nodesOf]
    split
    · exact List.mem_cons_of_mem _ hinside
    · exact hinside
  | _ => contradiction

section Conversion

variable (occasion again : Occasion)

theorem said_conversionOf {held : Option Tree}
    (ih : ∀ tree, held = some tree → tree.IsSettled →
      (tree.unplaced.convert again).said = (tree.convert occasion).said)
    (hsettled : ∀ tree, held = some tree → tree.IsSettled) :
    (conversionOf again (held.map unplaced)).said = (conversionOf occasion held).said := by
  cases held with
  | none => rfl
  | some tree => exact ih tree rfl (hsettled tree rfl)

theorem said_objectLiteral (start : Nat) {children : List Tree}
    (h : ∀ property ∈ properties children, (conversionOf again (property.2.map unplaced)).said =
      (conversionOf occasion property.2).said) :
    ((node .objectLiteral start children).unplaced.convert again).said =
      ((node .objectLiteral start children).convert occasion).said := by
  rw [convert_objectLiteral, unplaced, unplacedAll_eq_map, convert_objectLiteral,
    Conversion.said, Conversion.said, fieldsOf, fieldsOf, propertyConversions,
    propertyConversions, properties_unplaced, List.map_flatMap, List.map_flatMap]
  simp only [List.map_map, List.flatMap_map]
  congr 1
  · congr 2
    refine List.map_congr_left fun property hproperty => ?_
    exact congrArg (Prod.mk property.1) (congrArg Prod.fst (h property hproperty))
  · exact List.flatMap_congr fun property hproperty => congrArg Prod.snd (h property hproperty)

theorem said_arrayLiteral (start : Nat) {children : List Tree}
    (h : ∀ element ∈ elements children, (conversionOf again (element.map unplaced)).said =
      (conversionOf occasion element).said) :
    ((node .arrayLiteral start children).unplaced.convert again).said =
      ((node .arrayLiteral start children).convert occasion).said := by
  rw [convert_arrayLiteral, unplaced, unplacedAll_eq_map, convert_arrayLiteral,
    Conversion.said, Conversion.said, elementConversions, elementConversions, elements_unplaced,
    List.map_flatMap, List.map_flatMap]
  simp only [List.map_map, List.flatMap_map]
  congr 1
  · congr 1
    exact List.map_congr_left fun element helement => congrArg Prod.fst (h element helement)
  · exact List.flatMap_congr fun element helement => congrArg Prod.snd (h element helement)

-- Trees that hold no value of their own: leaves, literals, calls, and what is not
-- understood.
theorem said_other {tree : Tree} (h : tree.IsSettled)
    (hrule : ∀ rule ∈ [Rule.argument, .propertyValue, .objectLiteral, .arrayLiteral],
      ¬ tree.is rule) :
    (tree.unplaced.convert again).said = (tree.convert occasion).said := by
  cases tree with
  | terminal => rfl
  | error => rfl
  | node rule start children =>
    cases rule with
    | literal =>
      have hleaf := said_ofLeaf (.node .literal start children) children
      rwa [← unplacedAll_eq_map] at hleaf
    | functionCall =>
      have hself : Tree.node .functionCall start children ∈
          (Tree.node .functionCall start children).nodesOf .functionCall := by simp [nodesOf]
      exact said_call occasion again _ (h _ hself)
    | argument => exact absurd rfl (hrule .argument (by simp))
    | propertyValue => exact absurd rfl (hrule .propertyValue (by simp))
    | objectLiteral => exact absurd rfl (hrule .objectLiteral (by simp))
    | arrayLiteral => exact absurd rfl (hrule .arrayLiteral (by simp))
    | _ => exact said_notUnderstood (.node _ start children)

-- A value converts to the same wherever it stands, and with the same to report.
theorem said_convert {tree : Tree} (h : tree.IsSettled) :
    (tree.unplaced.convert again).said = (tree.convert occasion).said := by
  induction tree using valueInduct with
  | carrier rule start children hrule ih =>
    rw [convert_carrier occasion start children hrule, unplaced, unplacedAll_eq_map,
      convert_carrier again _ _ hrule, held?_unplaced]
    exact said_conversionOf occasion again ih fun tree htree => h.child (mem_of_held htree)
  | objectLiteral start children ih =>
    refine said_objectLiteral occasion again start fun property hproperty => ?_
    refine said_conversionOf occasion again (ih property hproperty) fun tree htree => ?_
    obtain ⟨list, hlist, assignment, hassignment, value, hvalue, hinside⟩ :=
      exists_of_property hproperty htree
    exact (((h.child hlist).child hassignment).child hvalue).child hinside
  | arrayLiteral start children ih =>
    refine said_arrayLiteral occasion again start fun element helement => ?_
    refine said_conversionOf occasion again (fun tree htree => ih tree (htree ▸ helement)) ?_
    rintro tree rfl
    obtain ⟨list, hlist, value, hvalue, hinside⟩ := exists_of_element helement
    exact ((h.child hlist).child hvalue).child hinside
  | other tree hrule => exact said_other occasion again h hrule

end Conversion

theorem calls_unplaced (tree : Tree) : tree.unplaced.calls = tree.calls.map unplaced :=
  tree.childrenOf_unplaced _

theorem calledName_unplaced (tree : Tree) : tree.unplaced.calledName = tree.calledName := by
  rw [calledName, calledName, children_unplaced, List.head?_map, Option.map_map]
  congr 2
  funext child
  exact child.text_unplaced

theorem argumentsOf_unplaced (tree : Tree) :
    tree.unplaced.argumentsOf = tree.argumentsOf.map unplaced := by
  rw [argumentsOf, argumentsOf, childrenOf_unplaced, List.flatMap_map, List.map_flatMap]
  congr 1
  funext list
  exact list.childrenOf_unplaced _

theorem recordedArguments_unplaced (tree : Tree) :
    tree.unplaced.recordedArguments = tree.recordedArguments.map unplaced := by
  rw [recordedArguments, recordedArguments, calls_unplaced, ← List.map_take, List.flatMap_map,
    List.map_flatMap]
  congr 1
  funext call
  exact call.argumentsOf_unplaced

end Tree

theorem Argument.said_ofTree (occasion again : Occasion) {tree : Tree} (h : tree.IsSettled) :
    (ofTree again tree.unplaced).1 = (ofTree occasion tree).1 ∧
      (ofTree again tree.unplaced).2.map ValueReport.error =
        (ofTree occasion tree).2.map ValueReport.error := by
  obtain ⟨hvalue, hreports⟩ := Prod.mk.inj (Tree.said_convert occasion again h)
  rw [ofTree, ofTree, hvalue]
  split <;> simp [hreports]

open Text

-- The message alone.
def Diagnostic.unplaced (diagnostic : Diagnostic) : Diagnostic :=
  { diagnostic with range := .emptyAt ⟨0, 0⟩ }

-- A command without its range and those of its errors.
def Command.unplaced (command : Command) : Command :=
  { command with range := .emptyAt ⟨0, 0⟩, errors := command.errors.map Diagnostic.unplaced }

-- The arguments of the command hold no call that takes the moment or a new id.
def Tree.HasSettledArguments (command : Tree) : Prop :=
  ∀ argument ∈ command.recordedArguments, argument.IsSettled

instance (command : Tree) : Decidable command.HasSettledArguments :=
  inferInstanceAs (Decidable (∀ argument ∈ command.recordedArguments, argument.IsSettled))

theorem Tree.hasSettledArguments_unplaced {command : Tree} :
    command.unplaced.HasSettledArguments ↔ command.HasSettledArguments := by
  simp only [HasSettledArguments, recordedArguments_unplaced, List.forall_mem_map,
    isSettled_unplaced]

section Command

variable (index index' : LineIndex) (occasion again : Occasion) {tree : Tree}

theorem Diagnostic.unplaced_ofValueReport (reports : List ValueReport) :
    (reports.map (ofValueReport index)).map unplaced =
      (reports.map ValueReport.error).map fun error => ⟨error.message, .emptyAt ⟨0, 0⟩⟩ := by
  rw [List.map_map, List.map_map]
  rfl

theorem Argument.all_unplaced (h : tree.HasSettledArguments) :
    (tree.unplaced.recordedArguments.map (ofTree again)).map (·.1) =
        (tree.recordedArguments.map (ofTree occasion)).map (·.1) ∧
      ((tree.unplaced.recordedArguments.map (ofTree again)).flatMap
        fun argument => argument.2.map (Diagnostic.ofValueReport index')).map Diagnostic.unplaced =
      ((tree.recordedArguments.map (ofTree occasion)).flatMap
        fun argument => argument.2.map (Diagnostic.ofValueReport index)).map
          Diagnostic.unplaced := by
  rw [Tree.recordedArguments_unplaced, List.map_flatMap, List.map_flatMap, List.map_map,
    List.map_map, List.map_map, List.flatMap_map, List.flatMap_map, List.flatMap_map]
  constructor
  · exact List.map_congr_left fun argument hargument =>
      (said_ofTree occasion again (h argument hargument)).1
  · refine List.flatMap_congr fun argument hargument => ?_
    rw [Diagnostic.unplaced_ofValueReport, Diagnostic.unplaced_ofValueReport,
      (said_ofTree occasion again (h argument hargument)).2]

-- However a command is placed, it is extracted alike.
theorem Command.ofTree_unplaced (h : tree.HasSettledArguments) :
    (ofTree index' again tree.unplaced).unplaced = (ofTree index occasion tree).unplaced := by
  have hcollection : (tree.unplaced.childOf? .collection).map Tree.text =
      (tree.childOf? .collection).map Tree.text := by
    rw [Tree.childOf?_unplaced, Option.map_map]
    congr 1
    funext child
    exact child.text_unplaced
  have hcalls : tree.unplaced.calls.map Tree.calledName = tree.calls.map Tree.calledName := by
    rw [Tree.calls_unplaced, List.map_map]
    exact List.map_congr_left fun call _ => call.calledName_unplaced
  have hlength : tree.unplaced.calls.length = tree.calls.length := by
    rw [Tree.calls_unplaced, List.length_map]
  simp only [unplaced, ofTree, Tree.text_unplaced, hcollection, hcalls, hlength, mk.injEq, true_and]
  exact Argument.all_unplaced index index' occasion again h

end Command

end QueryPad
