import QueryPad.Command.Extraction
import QueryPad.Proofs.Syntax.Spans

-- Where the reports of a conversion lie: each begins with a token of the value
-- that is converted.
namespace QueryPad

open Text

def StartIn (tokens : List Token) (reports : List ValueReport) : Prop :=
  ∀ report ∈ reports, ∃ token ∈ tokens, report.span.start = token.start

namespace StartIn

variable {tokens more : List Token} {reports others : List ValueReport}

theorem nil (tokens : List Token) : StartIn tokens [] := by simp [StartIn]

theorem mono (h : StartIn tokens reports) (hsub : ∀ token ∈ tokens, token ∈ more) :
    StartIn more reports := by
  intro report hreport
  obtain ⟨token, htoken, hstart⟩ := h report hreport
  exact ⟨token, hsub token htoken, hstart⟩

theorem append (h : StartIn tokens reports) (h' : StartIn more others) :
    StartIn (tokens ++ more) (reports ++ others) := by
  intro report hreport
  rcases List.mem_append.mp hreport with hreport | hreport
  · exact h.mono (fun _ => List.mem_append_left _) report hreport
  · exact h'.mono (fun _ => List.mem_append_right _) report hreport

-- Reports of a whole tree.
theorem of_span {tree : Tree} (h : tree.Anchored) (htokens : tree.tokens ≠ [])
    (hspan : ∀ report ∈ reports, report.span = tree.span) : StartIn tree.tokens reports := by
  intro report hreport
  obtain ⟨first, hfirst, hstart⟩ := Tree.exists_first h htokens
  exact ⟨first, hfirst, hspan report hreport ▸ hstart⟩

end StartIn

namespace Conversion

theorem span_of_mem_ofExcept {tree : Tree} {result : Except ValueError Json} :
    ∀ report ∈ (ofExcept tree result).reports, report.span = tree.span := by
  cases result <;> simp [ofExcept, of, failed]

end Conversion

namespace Literal

theorem span_of_mem_call {occasion : Occasion} {tree : Tree} :
    ∀ report ∈ (call occasion tree).reports, report.span = tree.span := by
  rw [call]
  split
  · simp [Conversion.empty, Conversion.of]
  · exact Conversion.span_of_mem_ofExcept

theorem span_of_mem_ofLeaf {whole : Tree} {children : List Tree} :
    ∀ report ∈ (ofLeaf whole children).reports, report.span = whole.span := by
  rw [ofLeaf.eq_def]
  split
  · exact Conversion.span_of_mem_ofExcept
  · exact Conversion.span_of_mem_ofExcept
  · simp [Conversion.empty, Conversion.of]

end Literal

namespace Tree

variable (occasion : Occasion)

mutual

theorem convert_reports (tree : Tree) (h : tree.Anchored) (htokens : tree.tokens ≠ []) :
    StartIn tree.tokens (tree.convert occasion).reports := by
  cases tree with
  | terminal token =>
    rw [convert]
    exact .of_span h htokens (by simp [Conversion.failed])
  | error token =>
    rw [convert]
    exact .nil _
  | node rule start children =>
    obtain ⟨_, hvalues, hchildren⟩ := id h
    cases rule with
    | argument =>
      rw [convert]
      exact convertFirst_reports children hchildren (hvalues rfl)
    | propertyValue =>
      rw [convert]
      exact convertFirst_reports children hchildren (hvalues rfl)
    | literal =>
      rw [convert]
      exact .of_span h htokens Literal.span_of_mem_ofLeaf
    | objectLiteral =>
      rw [convert]
      exact convertLists_reports children hchildren
    | arrayLiteral =>
      rw [convert]
      exact convertElementLists_reports children hchildren
    | functionCall =>
      rw [convert]
      exact .of_span h htokens Literal.span_of_mem_call
    | _ =>
      rw [convert]
      · exact .of_span h htokens (by simp [Conversion.failed])
      all_goals simp

theorem convertFirst_reports (trees : List Tree) (h : AllAnchored trees)
    (htokens : ∀ tree ∈ trees, tree.tokens ≠ []) :
    StartIn (tokensOf trees) (convertFirst occasion trees).reports := by
  cases trees with
  | nil => exact .nil _
  | cons tree trees =>
    have hrest := convertFirst_reports trees h.2 fun t ht => htokens t (by simp [ht])
    cases tree with
    | terminal => exact hrest.mono fun _ => List.mem_append_right _
    | error => exact hrest.mono fun _ => List.mem_append_right _
    | node rule start children =>
      have hfirst := convert_reports (.node rule start children) h.1 (htokens _ (by simp))
      exact hfirst.mono fun _ => List.mem_append_left _

theorem convertLists_reports (trees : List Tree) (h : AllAnchored trees) :
    StartIn (tokensOf trees) (convertLists occasion trees).2 := by
  unfold convertLists
  split
  · exact .nil _
  · next start assignments trees =>
    exact (convertAssignments_reports assignments h.1.2.2).append (convertLists_reports trees h.2)
  · next tree trees _ =>
    exact (convertLists_reports trees h.2).mono fun _ => List.mem_append_right _

theorem convertAssignments_reports (trees : List Tree) (h : AllAnchored trees) :
    StartIn (tokensOf trees) (convertAssignments occasion trees).2 := by
  unfold convertAssignments
  split
  · exact .nil _
  · next start parts trees =>
    have hrest := convertAssignments_reports trees h.2
    dsimp only
    split
    · exact hrest.mono fun _ => List.mem_append_right _
    · exact (convertValueOf_reports parts h.1.2.2).append hrest
  · next tree trees _ =>
    exact (convertAssignments_reports trees h.2).mono fun _ => List.mem_append_right _

theorem convertValueOf_reports (trees : List Tree) (h : AllAnchored trees) :
    StartIn (tokensOf trees) (convertValueOf occasion trees).reports := by
  unfold convertValueOf
  split
  · exact .nil _
  · next start children trees =>
    have hfirst := convertFirst_reports children h.1.2.2 (h.1.2.1 rfl)
    exact hfirst.mono fun _ => List.mem_append_left _
  · next tree trees _ =>
    exact (convertValueOf_reports trees h.2).mono fun _ => List.mem_append_right _

theorem convertElementLists_reports (trees : List Tree) (h : AllAnchored trees) :
    StartIn (tokensOf trees) (convertElementLists occasion trees).2 := by
  unfold convertElementLists
  split
  · exact .nil _
  · next start elements trees =>
    exact (convertElements_reports elements h.1.2.2).append
      (convertElementLists_reports trees h.2)
  · next tree trees _ =>
    exact (convertElementLists_reports trees h.2).mono fun _ => List.mem_append_right _

theorem convertElements_reports (trees : List Tree) (h : AllAnchored trees) :
    StartIn (tokensOf trees) (convertElements occasion trees).2 := by
  unfold convertElements
  split
  · exact .nil _
  · next start children trees =>
    have hfirst := convertFirst_reports children h.1.2.2 (h.1.2.1 rfl)
    exact hfirst.append (convertElements_reports trees h.2)
  · next tree trees _ =>
    exact (convertElements_reports trees h.2).mono fun _ => List.mem_append_right _

end

end Tree

-- The empty object reads back as it is written.
theorem ofExtendedText_empty :
    ∃ value, Bson.ofExtendedText
      (.ofList (Regex.halveEscapes (Json.object []).render.toList)) = .ok value := by
  have hok : (Bson.ofExtendedText
      (.ofList (Regex.halveEscapes (Json.object []).render.toList))).isOk := by decide +kernel
  cases h : Bson.ofExtendedText
      (.ofList (Regex.halveEscapes (Json.object []).render.toList)) with
  | ok value => exact ⟨value, rfl⟩
  | error error => simp [h, Except.isOk, Except.toBool] at hok

namespace Argument

theorem ofTree_reports (occasion : Occasion) {start : Nat} {children : List Tree}
    (h : (Tree.node .argument start children).Anchored) :
    StartIn (Tree.tokensOf children)
      (ofTree occasion (.node .argument start children)).2 := by
  by_cases htokens : Tree.tokensOf children = []
  · -- no value was read, and an empty object stands in its place
    have hnone : children = [] := by
      refine List.eq_nil_iff_forall_not_mem.mpr fun child hchild => h.2.1 rfl child hchild ?_
      rw [Tree.tokensOf_eq_flatMap, List.flatMap_eq_nil_iff] at htokens
      exact htokens child hchild
    obtain ⟨value, hvalue⟩ := ofExtendedText_empty
    simp [ofTree, hnone, Tree.convert, Tree.convertFirst, Conversion.empty, Conversion.of, hvalue,
      StartIn]
  · have hconversion := Tree.convert_reports occasion _ h htokens
    rw [ofTree]
    split
    · exact hconversion
    · obtain ⟨first, hfirst, hstart⟩ := Tree.exists_first h htokens
      exact List.forall_mem_cons.mpr ⟨⟨first, hfirst, hstart⟩, hconversion⟩

end Argument

namespace Tree

variable {tree child : Tree} {rule : Rule}

theorem exists_of_mem_childrenOf (h : child ∈ tree.childrenOf rule) :
    ∃ start children, child = .node rule start children := by
  obtain ⟨_, hrule⟩ := List.mem_filter.mp h
  cases child with
  | node other start children =>
    obtain rfl : other = rule := by simpa [Tree.is, rule?] using hrule
    exact ⟨start, children, rfl⟩
  | _ => simp [Tree.is, rule?] at hrule

theorem anchored_of_mem_childrenOf (h : tree.Anchored) (hchild : child ∈ tree.childrenOf rule) :
    child.Anchored := by
  obtain ⟨hmem, _⟩ := List.mem_filter.mp hchild
  cases tree with
  | node other start children => exact allAnchored_iff.mp h.2.2 child hmem
  | _ => simp [children] at hmem

theorem mem_tokens_of_mem_childrenOf {token : Token} (hchild : child ∈ tree.childrenOf rule)
    (htoken : token ∈ child.tokens) : token ∈ tree.tokens := by
  obtain ⟨hmem, _⟩ := List.mem_filter.mp hchild
  cases tree with
  | node other start children =>
    rw [tokens, tokensOf_eq_flatMap]
    exact List.mem_flatMap.mpr ⟨child, hmem, htoken⟩
  | _ => simp [children] at hmem

end Tree

namespace Command

-- The errors of the values of a command begin with tokens of its calls.
theorem exists_token_of_mem_errors {index : LineIndex} {occasion : Occasion} {tree : Tree}
    {error : Diagnostic} (h : tree.Anchored)
    (herror : error ∈ (ofTree index occasion tree).errors) :
    ∃ call ∈ tree.calls, ∃ token ∈ call.tokens,
      error.range.start = index.positionAt token.start := by
  simp only [ofTree, List.mem_flatMap, List.mem_map] at herror
  obtain ⟨_, ⟨argument, ⟨call, hcall, hargument⟩, rfl⟩, report, hreport, rfl⟩ := herror
  have hcall := List.mem_of_mem_take hcall
  obtain ⟨list, hlist, hargument⟩ := List.mem_flatMap.mp hargument
  have hanchored := Tree.anchored_of_mem_childrenOf
    (Tree.anchored_of_mem_childrenOf (Tree.anchored_of_mem_childrenOf h hcall) hlist) hargument
  obtain ⟨start, children, rfl⟩ := Tree.exists_of_mem_childrenOf hargument
  obtain ⟨token, htoken, hstart⟩ := Argument.ofTree_reports occasion hanchored report hreport
  refine ⟨call, hcall, token, ?_, congrArg index.positionAt hstart⟩
  exact Tree.mem_tokens_of_mem_childrenOf hlist (Tree.mem_tokens_of_mem_childrenOf hargument htoken)

end Command

end QueryPad
