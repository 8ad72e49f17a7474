import QueryPad.Proofs.Syntax.Production
import QueryPad.Proofs.Syntax.Steps

-- A reading that reports nothing has followed the grammar, and its trees are
-- those of the derivation.
namespace QueryPad.Syntax

variable {inp : Input} {form more : List Symbol}

-- Read without a report, these tokens begin with a word of the form. Then
-- the reader is not recovering afterwards either.
def Follows (form : List Symbol) (parsed : Parsed inp) : Prop :=
  inp.recovering = false → parsed.reports = [] →
    Derives form inp.ahead parsed.trees parsed.rest.ahead ∧ parsed.rest.recovering = false

-- Unless the reader is recovering, something is reported.
def Complains (parsed : Parsed inp) : Prop := inp.recovering = false → parsed.reports ≠ []

theorem Complains.report {fault : SyntaxFault} : Complains (Parsed.report inp fault) := by
  intro hready hquiet
  have hrecovering := Input.complaint_eq_nil_iff.mp hquiet
  simp [hready] at hrecovering

theorem Complains.append {parsed : Parsed inp} {next : Parsed parsed.rest}
    (h : Complains parsed) : Complains (parsed.append next) :=
  fun hready hquiet => h hready (List.append_eq_nil_iff.mp hquiet).1

namespace Follows

theorem of_complains {parsed : Parsed inp} (h : Complains parsed) : Follows form parsed :=
  fun hready hquiet => absurd hquiet (h hready)

theorem append {parsed : Parsed inp} {next : Parsed parsed.rest} (head : Follows form parsed)
    (tail : Follows more next) : Follows (form ++ more) (parsed.append next) := by
  intro hready hquiet
  obtain ⟨hparsed, hnext⟩ := List.append_eq_nil_iff.mp hquiet
  obtain ⟨left, hmid⟩ := head hready hparsed
  obtain ⟨right, hrest⟩ := tail hmid hnext
  exact ⟨left.append right, hrest⟩

theorem andThen {symbol : Symbol} {parsed : Parsed inp}
    {next : (mid : Input) → mid.size ≤ inp.size → Parsed mid}
    (head : Follows [symbol] parsed) (tail : ∀ mid h, Follows more (next mid h)) :
    Follows (symbol :: more) (parsed.andThen next) :=
  head.append (tail _ _)

theorem underNode {rule : Rule} {parsed : Parsed inp} (body : Follows (production rule) parsed) :
    Follows [.rule rule] (parsed.underNode rule) := by
  intro hready hquiet
  obtain ⟨derived, hrest⟩ := body hready hquiet
  exact ⟨.rule derived (.done _), hrest⟩

theorem token {kind : TokenKind} {taken : Taken inp} (h : Taken.next? inp = some taken)
    (hkind : taken.token.kind = kind) : Follows [.token kind] taken.parsed := by
  intro _ _
  have derived : Derives [.token kind] inp.ahead [.terminal taken.token] taken.rest.ahead := by
    rw [← taken.lossless]
    exact .token hkind (.done _)
  rw [← Taken.tree_eq h] at derived
  exact ⟨derived, Taken.recovering_eq h⟩

theorem takenThen {symbol : Symbol} {taken : Taken inp}
    {next : (mid : Input) → mid.size < inp.size → Parsed mid}
    (head : Follows [symbol] taken.parsed) (tail : ∀ mid h, Follows more (next mid h)) :
    Follows (symbol :: more) (taken.andThen next) := by
  rw [Taken.andThen_eq_append]
  exact head.append (tail _ _)

theorem anyOf {symbol : Symbol} {symbols : List Symbol} {parsed : Parsed inp}
    (choice : symbol ∈ symbols) (chosen : Follows (symbol :: more) parsed) :
    Follows (.anyOf symbols :: more) parsed :=
  fun hready hquiet => (chosen hready hquiet).imp_left (.anyOf choice)

theorem present {parsed : Parsed inp} (body : Follows form parsed) :
    Follows [.optional form] parsed :=
  fun hready hquiet => (body hready hquiet).imp_left fun h => .present (by simpa using h)

theorem absent : Follows [.optional form] (Parsed.nothing inp) :=
  fun hready _ => ⟨.absent (.done _), hready⟩

theorem stop : Follows [.many form] (Parsed.nothing inp) :=
  fun hready _ => ⟨.stop (.done _), hready⟩

theorem again {parsed : Parsed inp} (unfolded : Follows (form ++ [.many form]) parsed) :
    Follows [.many form] parsed :=
  fun hready hquiet => (unfolded hready hquiet).imp_left .again

end Follows

theorem expect_follows (inp : Input) (kind : TokenKind) :
    Follows [.token kind] (.expect inp kind) := by
  rw [Parsed.expect]
  split
  · next taken h =>
    obtain ⟨hnext, hkind⟩ := Taken.first?_eq_some_iff.mp h
    exact .token hnext (of_decide_eq_true hkind)
  · exact .of_complains .report

theorem optional_follows (inp : Input) (kind : TokenKind) :
    Follows [.optional [.token kind]] (.optional inp kind) := by
  rw [Parsed.optional]
  split
  · next taken h =>
    obtain ⟨hnext, hkind⟩ := Taken.first?_eq_some_iff.mp h
    exact .present (.token hnext (of_decide_eq_true hkind))
  · exact .absent

theorem close_follows (inp : Input) (closing : TokenKind) (content : List TokenKind) :
    Follows [.token closing] (close inp closing content) := by
  rw [close]
  split
  · exact expect_follows inp closing
  · split
    · exact .of_complains .report
    · exact .of_complains (.append .report)

theorem noValue_follows (inp : Input) : Follows form (noValue inp) :=
  .of_complains (.append .report)

-- A comma with an item behind it, as often as one follows.
theorem separator_follows (inp : Input) (closing : TokenKind) (follows : TokenKind → Bool)
    {item : Symbol} {items : (mid : Input) → mid.size < inp.size → Parsed mid}
    (hitems : ∀ mid h, follows mid.peek → Follows item.commaSeparated (items mid h)) :
    Follows [.many [.token .comma, item]] ((separator inp closing follows).andThen items) := by
  cases hcomma : commaBefore? inp follows with
  | some comma =>
    obtain ⟨hnext, hkind, hfollows⟩ := commaBefore?_eq_some_iff.mp hcomma
    rw [separator_of_comma hcomma, Taken.andThen_eq_append]
    have hhead : Follows [.token .comma] comma.parsed := .token hnext hkind
    exact .again (hhead.append (hitems comma.rest comma.size_lt hfollows))
  | none =>
    by_cases hend : endsList inp
    · rw [separator_of_end hcomma hend]
      exact .stop
    · rw [separator_of_junk hcomma hend, Separator.andThen]
      split
      · exact .of_complains (.append .report)
      · exact .of_complains (.append (.append .report))

theorem literal_follows {token : Taken inp} (h : Taken.next? inp = some token)
    (hkind : token.token.kind.isLiteral) : Follows [.rule .literal] (literal token) := by
  apply Follows.underNode
  apply Follows.anyOf _ (.token h rfl)
  cases hk : token.token.kind <;> simp [hk, TokenKind.isLiteral] at hkind ⊢

theorem propertyName_follows {name : Taken inp} (h : Taken.next? inp = some name)
    (hkind : nameStart.contains name.token.kind) :
    Follows [.rule .propertyName] (name.underNode .propertyName).parsed := by
  rw [Taken.parsed_underNode]
  apply Follows.underNode
  apply Follows.anyOf _ (.token h rfl)
  simpa [nameStart] using hkind

mutual

theorem value_follows (inp : Input) : Follows [.value] (value inp) := by
  rw [value]
  split
  · exact noValue_follows inp
  · next token h =>
    split
    · next hkind => exact .anyOf (by simp) (objectLiteral_follows h hkind)
    · next hkind => exact .anyOf (by simp) (arrayLiteral_follows h hkind)
    · next hkind => exact .anyOf (by simp) (functionCall_follows h hkind)
    · split
      · next hkind => exact .anyOf (by simp) (literal_follows h hkind)
      · exact noValue_follows inp
termination_by 4 * inp.size + 1

theorem objectLiteral_follows {inp : Input} {opening : Taken inp}
    (h : Taken.next? inp = some opening) (hkind : opening.token.kind = .openBrace) :
    Follows [.rule .objectLiteral] (objectLiteral opening) := by
  rw [objectLiteral]
  refine .underNode (.takenThen (.token h hkind) fun mid _ => ?_)
  refine .andThen ?_ fun mid _ => ?_
  · split
    · next hstart => exact .present (.underNode (propertyList_follows mid hstart))
    · exact .absent
  · exact .andThen (optional_follows mid .comma) fun mid _ => close_follows mid _ _
termination_by 4 * inp.size

theorem propertyList_follows (inp : Input) (hstart : inp.isAtAny nameStart) :
    Follows (Symbol.commaSeparated (.rule .propertyAssignment)) (propertyList inp) := by
  rw [propertyList]
  split
  · next h =>
    obtain ⟨name, hname⟩ := Taken.exists_first? hstart rfl
    simp [h] at hname
  · next name h =>
    obtain ⟨hnext, hkind⟩ := Taken.first?_eq_some_iff.mp h
    refine .andThen (propertyAssignment_follows hnext hkind) fun mid _ => ?_
    exact separator_follows mid _ _ fun mid _ hstart => propertyList_follows mid hstart
termination_by 4 * inp.size + 1

theorem propertyAssignment_follows {inp : Input} {name : Taken inp}
    (h : Taken.next? inp = some name) (hkind : nameStart.contains name.token.kind) :
    Follows [.rule .propertyAssignment] (propertyAssignment name) := by
  rw [propertyAssignment]
  refine .underNode (.takenThen (propertyName_follows h hkind) fun mid _ => ?_)
  exact .andThen (expect_follows _ .colon) fun mid _ => propertyValue_follows mid
termination_by 4 * inp.size

theorem propertyValue_follows (inp : Input) :
    Follows [.rule .propertyValue] (propertyValue inp) := by
  rw [propertyValue]
  exact .underNode (value_follows inp)
termination_by 4 * inp.size + 2

theorem arrayLiteral_follows {inp : Input} {opening : Taken inp}
    (h : Taken.next? inp = some opening) (hkind : opening.token.kind = .openBracket) :
    Follows [.rule .arrayLiteral] (arrayLiteral opening) := by
  rw [arrayLiteral]
  refine .underNode (.takenThen (.token h hkind) fun mid _ => ?_)
  refine .andThen ?_ fun mid _ => ?_
  · split
    · exact .present (.underNode (elementList_follows mid))
    · exact .absent
  · exact .andThen (optional_follows mid .comma) fun mid _ => close_follows mid _ _
termination_by 4 * inp.size

theorem elementList_follows (inp : Input) :
    Follows (Symbol.commaSeparated (.rule .propertyValue)) (elementList inp) := by
  rw [elementList]
  refine .andThen (propertyValue_follows inp) fun mid _ => ?_
  exact separator_follows mid _ _ fun mid _ _ => elementList_follows mid
termination_by 4 * inp.size + 3

theorem functionCall_follows {inp : Input} {name : Taken inp}
    (h : Taken.next? inp = some name) (hkind : name.token.kind = .identifier) :
    Follows [.rule .functionCall] (functionCall name) := by
  rw [functionCall]
  exact .underNode (.takenThen (.token h hkind) fun mid _ => arguments_follows mid)
termination_by 4 * inp.size

theorem arguments_follows (inp : Input) : Follows [.rule .arguments] (arguments inp) := by
  rw [arguments]
  apply Follows.underNode
  split
  · exact .of_complains .report
  · next opening h =>
    obtain ⟨hnext, hkind⟩ := Taken.first?_eq_some_iff.mp h
    refine .takenThen (.token hnext (of_decide_eq_true hkind)) fun mid _ => ?_
    refine .andThen ?_ fun mid _ => expect_follows mid .closeParen
    split
    · exact .absent
    · exact .present (argumentList_follows mid)
termination_by 4 * inp.size + 1

theorem argumentList_follows (inp : Input) :
    Follows (Symbol.commaSeparated (.rule .argument)) (argumentList inp) := by
  rw [argumentList]
  refine .andThen (.underNode (value_follows inp)) fun mid _ => ?_
  exact separator_follows mid _ _ fun mid _ _ => argumentList_follows mid
termination_by 4 * inp.size + 3

end

theorem dottedParts_derives (tokens : List Token) :
    Derives [.many [.token .dot, .token .identifier]] tokens
      ((dottedParts tokens).1.map .terminal) (dottedParts tokens).2 := by
  fun_induction dottedParts tokens with
  | case1 dot part after rest hkinds parts rest' hparts ih =>
    simp only [Bool.and_eq_true, decide_eq_true_eq] at hkinds
    obtain ⟨⟨hdot, hpart⟩, _⟩ := hkinds
    rw [hparts] at ih
    exact .again (.token hdot (.token hpart ih))
  | case2 dot part after rest hkinds => exact .stop (.done _)
  | case3 tokens => exact .stop (.done _)

theorem collection_follows {name : Taken inp} (h : Taken.next? inp = some name)
    (hkind : name.token.kind = .identifier) : Follows [.rule .collection] (collection name) := by
  rw [collection]
  refine .underNode (.takenThen (.token h hkind) fun mid _ => ?_)
  exact fun hready _ => ⟨dottedParts_derives mid.ahead, hready⟩

-- The calls of a command, each behind a point.
def callsForm : Symbol := .many [.token .dot, .rule .functionCall]

-- What stands between the first word of a command and its end.
def bodyForm : List Symbol :=
  [.optional [.token .dot, .rule .collection], .token .dot, .rule .functionCall, callsForm]

-- What may stand behind the point of a member.
def memberSymbol (first : Bool) : Symbol :=
  if first then .anyOf [.rule .collection, .rule .functionCall] else .rule .functionCall

def membersForm (first : Bool) : List Symbol :=
  if first then [.optional [.token .dot, .rule .collection], callsForm] else [callsForm]

theorem Derives.members {first : Bool} {ahead rest : List Token} {trees : List Tree}
    (h : Derives [.token .dot, memberSymbol first, callsForm] ahead trees rest) :
    Derives (membersForm first) ahead trees rest := by
  obtain ⟨dot, ahead', trees', hdot, rfl, rfl, tail⟩ := Derives.token_iff.mp h
  cases first with
  | false => exact .again (.token hdot tail)
  | true =>
    obtain ⟨symbol, hsymbol, chosen⟩ := Derives.anyOf_iff.mp tail
    simp only [List.mem_cons, List.not_mem_nil, or_false] at hsymbol
    rcases hsymbol with rfl | rfl
    · exact .present (.token hdot chosen)
    · exact .absent (.again (.token hdot chosen))

mutual

theorem members_follows (inp : Input) (first : Bool) :
    Follows (membersForm first) (members inp first) := by
  rw [members]
  split
  · next dot h =>
    obtain ⟨hnext, hkind⟩ := Taken.first?_eq_some_iff.mp h
    have hdot : Follows [.token .dot] dot.parsed := .token hnext (of_decide_eq_true hkind)
    intro hready hquiet
    have hmember := hdot.takenThen (fun mid _ => member_follows mid first) hready hquiet
    exact hmember.imp_left .members
  · split
    · exact .of_complains (.append .report)
    · intro hready _
      refine ⟨?_, hready⟩
      cases first with
      | false => exact .stop (.done _)
      | true => exact .absent (.stop (.done _))
termination_by 2 * inp.size + 1

theorem member_follows (inp : Input) (first : Bool) :
    Follows [memberSymbol first, callsForm] (member inp first) := by
  rw [member]
  split
  · exact .of_complains .report
  · next name h =>
    obtain ⟨hnext, hkind⟩ := Taken.first?_eq_some_iff.mp h
    have hname := of_decide_eq_true hkind
    split
    · next hcollection =>
      have := collection_size_lt name
      simp only [Bool.and_eq_true] at hcollection
      rw [hcollection.1]
      have hhead : Follows [memberSymbol true] (collection name) :=
        .anyOf (by simp) (collection_follows hnext hname)
      exact hhead.append (members_follows _ false)
    · have := functionCall_size_lt name
      have hhead : Follows [memberSymbol first] (functionCall name) := by
        cases first with
        | false => exact functionCall_follows hnext hname
        | true => exact .anyOf (by simp) (functionCall_follows hnext hname)
      exact hhead.append (members_follows _ false)
termination_by 2 * inp.size

end

-- A command that calls something has the calls that the grammar asks for.
theorem Derives.called {ahead rest : List Token} {trees : List Tree}
    (h : Derives (membersForm true) ahead trees rest) (hcall : trees.any (·.is .functionCall)) :
    Derives bodyForm ahead trees rest := by
  rcases Derives.optional_iff.mp h with tail | unfolded
  · rcases Derives.many_iff.mp tail with hstop | hagain
    · obtain ⟨rfl, rfl⟩ := Derives.nil_iff.mp hstop
      simp at hcall
    · exact .absent hagain
  · obtain ⟨dot, _, _, hdot, rfl, rfl, named⟩ := Derives.token_iff.mp unfolded
    obtain ⟨children, mid, _, hbody, rfl, calls⟩ := Derives.rule_iff.mp named
    rcases Derives.many_iff.mp calls with hstop | hagain
    · obtain ⟨rfl, rfl⟩ := Derives.nil_iff.mp hstop
      simp [Tree.is, Tree.rule?] at hcall
    · exact .present (.token hdot (.rule hbody hagain))

theorem commandBody_follows (inp : Input) : Follows bodyForm (commandBody inp) := by
  intro hready hquiet
  obtain ⟨hmembers, hcheck⟩ := List.append_eq_nil_iff.mp hquiet
  obtain ⟨derived, hrest⟩ := members_follows inp true hready hmembers
  by_cases hcall : (members inp true).trees.any (·.is .functionCall)
  · have hnothing : callCheck (members inp true) = .nothing _ := by simp [callCheck, hcall]
    rw [commandBody, hnothing]
    refine ⟨?_, hrest⟩
    have hcalled := derived.called hcall
    rwa [← List.append_nil (members inp true).trees] at hcalled
  · have hcomplains : Complains (callCheck (members inp true)) := by
      rw [callCheck, if_neg (by simpa [hrest] using hcall)]
      exact .report
    exact absurd hcheck (hcomplains hrest)

theorem command_follows {db : Taken inp} (h : Taken.next? inp = some db)
    (hkind : db.token.kind = .db) : Follows [.rule .command] (command db) := by
  rw [command]
  refine .underNode (.takenThen (.token h hkind) fun mid _ => ?_)
  exact (commandBody_follows mid).append (optional_follows _ .semicolon)

theorem emptyCommand_follows {semicolon : Taken inp} (h : Taken.next? inp = some semicolon)
    (hkind : semicolon.token.kind = .semicolon) :
    Follows [.rule .emptyCommand] (emptyCommand semicolon) :=
  .underNode (.token h hkind)

theorem commandItem_follows {token : Taken inp} (h : Taken.next? inp = some token) :
    Follows [.anyOf [.rule .command, .rule .emptyCommand]] (commandItem token) := by
  rw [commandItem]
  split
  · next hkind => exact .anyOf (by simp) (command_follows h hkind)
  · next hkind => exact .anyOf (by simp) (emptyCommand_follows h hkind)
  · refine .of_complains fun hready hquiet => ?_
    exact Complains.report hready (List.append_eq_nil_iff.mp hquiet).1

theorem commandList_follows (inp : Input) :
    Follows (production .commands) (commandList inp) := by
  fun_induction commandList inp with
  | case1 | case2 => exact .stop
  | case3 inp token h hend ih => exact .again ((commandItem_follows h).append ih)

end QueryPad.Syntax
