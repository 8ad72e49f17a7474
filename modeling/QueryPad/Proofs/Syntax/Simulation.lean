import QueryPad.Proofs.Syntax.Steps

-- One induction over two readings at once: what relates single steps of them,
-- and readings put together, relates all that is read.
namespace QueryPad.Syntax

-- When two inputs are alike and when two readings of them are the same. A
-- semicolon need not be taken by both: no value, call or member takes one.
structure Simulation (Alike : Input → Input → Prop)
    (Same : ∀ {inp inp' : Input}, Parsed inp → Parsed inp' → Prop) : Prop where
  kinds {inp inp' : Input} : Alike inp inp' →
    (Taken.next? inp).map (·.token.kind) = (Taken.next? inp').map (·.token.kind)
  recovering {inp inp' : Input} : Alike inp inp' → inp.recovering = inp'.recovering
  rest {inp inp' : Input} {parsed : Parsed inp} {parsed' : Parsed inp'} :
    Same parsed parsed' → Alike parsed.rest parsed'.rest
  calls {inp inp' : Input} {parsed : Parsed inp} {parsed' : Parsed inp'} : Same parsed parsed' →
    parsed.trees.any (·.is .functionCall) = parsed'.trees.any (·.is .functionCall)
  nothing {inp inp' : Input} : Alike inp inp' → Same (.nothing inp) (.nothing inp')
  mismatched {inp inp' : Input} (expected : List TokenKind) : Alike inp inp' →
    Same (.report inp (.mismatched inp.current expected))
      (.report inp' (.mismatched inp'.current expected))
  missing {inp inp' : Input} (kind : TokenKind) : Alike inp inp' →
    Same (.report inp (.missing kind inp.current)) (.report inp' (.missing kind inp'.current))
  append {inp inp' : Input} {parsed : Parsed inp} {parsed' : Parsed inp'}
    {next : Parsed parsed.rest} {next' : Parsed parsed'.rest} : Same parsed parsed' →
      Same next next' → Same (parsed.append next) (parsed'.append next')
  underNode {inp inp' : Input} {parsed : Parsed inp} {parsed' : Parsed inp'} (rule : Rule) :
    Alike inp inp' → Same parsed parsed' → Same (parsed.underNode rule) (parsed'.underNode rule)
  taken {inp inp' : Input} {taken : Taken inp} {taken' : Taken inp'} : Alike inp inp' →
    Taken.next? inp = some taken → Taken.next? inp' = some taken' →
      taken.token.kind ≠ .semicolon → Same taken.parsed taken'.parsed
  skipTo {inp inp' : Input} (kinds : List TokenKind) : Alike inp inp' →
    Same (skipTo inp kinds) (skipTo inp' kinds)
  dotted {inp inp' : Input} : Alike inp inp' → Same (dotted inp) (dotted inp')

-- A token is found in both or in neither.
inductive SameTaken (Same : ∀ {inp inp' : Input}, Parsed inp → Parsed inp' → Prop)
    {inp inp' : Input} (taken? : Option (Taken inp)) (taken?' : Option (Taken inp')) : Prop where
  | found {taken : Taken inp} {taken' : Taken inp'} (h : taken? = some taken)
      (h' : taken?' = some taken') (hnext : Taken.next? inp = some taken)
      (hnext' : Taken.next? inp' = some taken') (hsame : Same taken.parsed taken'.parsed)
  | missing (h : taken? = none) (h' : taken?' = none)

namespace Simulation

variable {Alike : Input → Input → Prop}
  {Same : ∀ {inp inp' : Input}, Parsed inp → Parsed inp' → Prop}
  (simulation : Simulation Alike Same)

include simulation

section Steps

variable {inp inp' : Input} (h : Alike inp inp')

include h

theorem exists_next {taken : Taken inp} (hnext : Taken.next? inp = some taken) :
    ∃ taken' : Taken inp', Taken.next? inp' = some taken' ∧
      taken'.token.kind = taken.token.kind := by
  have hkinds := simulation.kinds h
  rw [hnext] at hkinds
  exact Option.map_eq_some_iff.mp hkinds.symm

theorem next_eq_none (hnext : Taken.next? inp = none) : Taken.next? inp' = none := by
  have hkinds := simulation.kinds h
  rw [hnext] at hkinds
  exact Option.map_eq_none_iff.mp hkinds.symm

theorem peek_eq : inp.peek = inp'.peek := by
  cases hnext : Taken.next? inp with
  | none =>
    have hnone := simulation.next_eq_none h hnext
    rw [Taken.peek_of_none hnext, Taken.peek_of_none hnone]
  | some taken =>
    obtain ⟨taken', hnext', hkind⟩ := simulation.exists_next h hnext
    rw [Taken.peek_eq hnext, Taken.peek_eq hnext', hkind]

theorem isAt_eq (kind : TokenKind) : inp.isAt kind = inp'.isAt kind := by
  rw [Input.isAt, Input.isAt, simulation.peek_eq h]

theorem isAtAny_eq (kinds : List TokenKind) : inp.isAtAny kinds = inp'.isAtAny kinds := by
  rw [Input.isAtAny, Input.isAtAny, simulation.peek_eq h]

theorem endsList_eq : endsList inp = endsList inp' := by
  rw [endsList, endsList, simulation.isAt_eq h, simulation.isAt_eq h, simulation.isAtAny_eq h]

theorem first (accepts : TokenKind → Bool) (haccepts : accepts .semicolon = false) :
    SameTaken Same (Taken.first? inp accepts) (Taken.first? inp' accepts) := by
  rw [Taken.first?, Taken.first?]
  cases hnext : Taken.next? inp with
  | none =>
    rw [simulation.next_eq_none h hnext]
    exact .missing rfl rfl
  | some taken =>
    obtain ⟨taken', hnext', hkind⟩ := simulation.exists_next h hnext
    rw [hnext', Option.filter_some, Option.filter_some, hkind]
    split
    · next haccepted =>
      have hplain : taken.token.kind ≠ .semicolon := by
        intro hsemicolon
        rw [hsemicolon, haccepts] at haccepted
        contradiction
      exact .found rfl rfl hnext hnext' (simulation.taken h hnext hnext' hplain)
    · exact .missing rfl rfl

theorem comma (follows : TokenKind → Bool) :
    SameTaken Same (commaBefore? inp follows) (commaBefore? inp' follows) := by
  rw [commaBefore?, commaBefore?]
  cases simulation.first h (· = .comma) rfl with
  | missing hnone hnone' => exact .missing (by rw [hnone]; rfl) (by rw [hnone']; rfl)
  | @found comma comma' hfound hfound' hnext hnext' hsame =>
    have hpeek : comma.rest.peek = comma'.rest.peek := simulation.peek_eq (simulation.rest hsame)
    rw [hfound, hfound', Option.filter_some, Option.filter_some, Taken.nth_one_eq hnext,
      Taken.nth_one_eq hnext', hpeek]
    split
    · exact .found rfl rfl hnext hnext' hsame
    · exact .missing rfl rfl

omit h in
theorem andThen {parsed : Parsed inp} {parsed' : Parsed inp'}
    {next : (mid : Input) → mid.size ≤ inp.size → Parsed mid}
    {next' : (mid : Input) → mid.size ≤ inp'.size → Parsed mid} (head : Same parsed parsed')
    (tail : ∀ mid mid' h h', Alike mid mid' → Same (next mid h) (next' mid' h')) :
    Same (parsed.andThen next) (parsed'.andThen next') :=
  simulation.append head (tail _ _ _ _ (simulation.rest head))

omit h in
theorem takenThen {taken : Taken inp} {taken' : Taken inp'}
    {next : (mid : Input) → mid.size < inp.size → Parsed mid}
    {next' : (mid : Input) → mid.size < inp'.size → Parsed mid}
    (head : Same taken.parsed taken'.parsed)
    (tail : ∀ mid mid' h h', Alike mid mid' → Same (next mid h) (next' mid' h')) :
    Same (taken.andThen next) (taken'.andThen next') := by
  rw [Taken.andThen_eq_append, Taken.andThen_eq_append]
  exact simulation.append head (tail _ _ _ _ (simulation.rest head))

theorem expect_same {kind : TokenKind} (hkind : kind ≠ .semicolon) :
    Same (.expect inp kind) (.expect inp' kind) := by
  rw [Parsed.expect, Parsed.expect]
  cases simulation.first h (· = kind) (by simpa using hkind.symm) with
  | found hfound hfound' _ _ hsame =>
    rw [hfound, hfound']
    exact hsame
  | missing hnone hnone' =>
    rw [hnone, hnone']
    exact simulation.missing kind h

theorem optional_same {kind : TokenKind} (hkind : kind ≠ .semicolon) :
    Same (.optional inp kind) (.optional inp' kind) := by
  rw [Parsed.optional, Parsed.optional]
  cases simulation.first h (· = kind) (by simpa using hkind.symm) with
  | found hfound hfound' _ _ hsame =>
    rw [hfound, hfound']
    exact hsame
  | missing hnone hnone' =>
    rw [hnone, hnone']
    exact simulation.nothing h

theorem close_same {closing : TokenKind} (content : List TokenKind) (hclosing : closing ≠ .semicolon) :
    Same (close inp closing content) (close inp' closing content) := by
  rw [close, close, ← simulation.isAt_eq h, ← simulation.isAt_eq h,
    ← simulation.isAtAny_eq h]
  split
  · exact simulation.expect_same h hclosing
  · split
    · exact simulation.missing closing h
    · refine simulation.andThen (simulation.mismatched _ h) fun mid mid' _ _ hmid => ?_
      refine simulation.andThen (simulation.skipTo _ hmid) fun mid mid' _ _ hmid => ?_
      exact simulation.expect_same hmid hclosing

theorem noValue_same : Same (noValue inp) (noValue inp') := by
  refine simulation.andThen (simulation.mismatched _ h) fun mid mid' _ _ hmid => ?_
  rw [← simulation.isAt_eq hmid, ← simulation.isAt_eq hmid]
  split
  · exact simulation.nothing hmid
  · exact simulation.skipTo _ hmid

theorem junkBefore_same (closing : TokenKind) :
    Same (junkBefore inp closing) (junkBefore inp' closing) :=
  simulation.andThen (simulation.mismatched _ h) fun _ _ _ _ hmid => simulation.skipTo _ hmid

theorem separator_same {closing : TokenKind} {follows : TokenKind → Bool}
    {items : (mid : Input) → mid.size < inp.size → Parsed mid}
    {items' : (mid : Input) → mid.size < inp'.size → Parsed mid}
    (hitems : ∀ mid mid' h h', Alike mid mid' → Same (items mid h) (items' mid' h')) :
    Same ((separator inp closing follows).andThen items)
      ((separator inp' closing follows).andThen items') := by
  cases simulation.comma h follows with
  | found hfound hfound' _ _ hsame =>
    rw [separator_of_comma hfound, separator_of_comma hfound']
    exact simulation.takenThen hsame hitems
  | missing hnone hnone' =>
    have hends := simulation.endsList_eq h
    by_cases hend : endsList inp
    · rw [separator_of_end hnone hend, separator_of_end hnone' (hends ▸ hend)]
      exact simulation.nothing h
    · rw [separator_of_junk hnone hend, separator_of_junk hnone' (hends ▸ hend),
        Separator.andThen, Separator.andThen]
      have hjunk := simulation.junkBefore_same h closing
      dsimp only
      cases simulation.comma (simulation.rest hjunk) follows with
      | found hfound hfound' _ _ hsame =>
        rw [hfound, hfound']
        exact simulation.append hjunk
          (simulation.takenThen hsame fun mid mid' _ _ hmid => hitems mid mid' _ _ hmid)
      | missing hnone hnone' =>
        rw [hnone, hnone']
        exact hjunk

end Steps

mutual

theorem value_same {inp inp' : Input} (h : Alike inp inp') : Same (value inp) (value inp') := by
  rw [value, value]
  cases hnext : Taken.next? inp with
  | none =>
    rw [simulation.next_eq_none h hnext]
    exact simulation.noValue_same h
  | some taken =>
    obtain ⟨taken', hnext', hkind⟩ := simulation.exists_next h hnext
    have htaken := simulation.taken h hnext hnext'
    rw [hnext']
    dsimp only
    rw [hkind]
    split
    · next hkind => exact objectLiteral_same h (htaken (by simp [hkind]))
    · next hkind => exact arrayLiteral_same h (htaken (by simp [hkind]))
    · next hkind => exact functionCall_same h (htaken (by simp [hkind]))
    · split
      · next hliteral =>
        refine simulation.underNode _ h (htaken fun hkind => ?_)
        simp [hkind, TokenKind.isLiteral] at hliteral
      · exact simulation.noValue_same h
termination_by 4 * inp.size + 1

theorem objectLiteral_same {inp inp' : Input} {opening : Taken inp} {opening' : Taken inp'}
    (h : Alike inp inp') (hsame : Same opening.parsed opening'.parsed) :
    Same (objectLiteral opening) (objectLiteral opening') := by
  rw [objectLiteral, objectLiteral]
  refine simulation.underNode _ h (simulation.takenThen hsame fun mid mid' _ _ hmid => ?_)
  refine simulation.andThen ?_ fun mid mid' _ _ hmid => simulation.andThen
    (simulation.optional_same hmid (by decide)) fun mid mid' _ _ hmid =>
      simulation.close_same hmid _ (by decide)
  rw [← simulation.isAtAny_eq hmid]
  split
  · exact simulation.underNode _ hmid (propertyList_same hmid)
  · exact simulation.nothing hmid
termination_by 4 * inp.size

theorem propertyList_same {inp inp' : Input} (h : Alike inp inp') :
    Same (propertyList inp) (propertyList inp') := by
  rw [propertyList, propertyList]
  cases simulation.first h nameStart.contains rfl with
  | missing hnone hnone' =>
    rw [hnone, hnone']
    exact simulation.nothing h
  | found hname hname' _ _ hsame =>
    rw [hname, hname']
    refine simulation.andThen (propertyAssignment_same h hsame) fun mid mid' _ _ hmid => ?_
    exact simulation.separator_same hmid fun mid mid' _ _ hmid => propertyList_same hmid
termination_by 4 * inp.size + 1

theorem propertyAssignment_same {inp inp' : Input} {name : Taken inp} {name' : Taken inp'}
    (h : Alike inp inp') (hsame : Same name.parsed name'.parsed) :
    Same (propertyAssignment name) (propertyAssignment name') := by
  rw [propertyAssignment, propertyAssignment]
  have hname : Same (name.underNode .propertyName).parsed
      (name'.underNode .propertyName).parsed := simulation.underNode _ h hsame
  refine simulation.underNode _ h (simulation.takenThen hname fun mid mid' _ _ hmid => ?_)
  exact simulation.andThen (simulation.expect_same hmid (by decide)) fun mid mid' _ _ hmid =>
    propertyValue_same hmid
termination_by 4 * inp.size

theorem propertyValue_same {inp inp' : Input} (h : Alike inp inp') :
    Same (propertyValue inp) (propertyValue inp') := by
  rw [propertyValue, propertyValue]
  exact simulation.underNode _ h (value_same h)
termination_by 4 * inp.size + 2

theorem arrayLiteral_same {inp inp' : Input} {opening : Taken inp} {opening' : Taken inp'}
    (h : Alike inp inp') (hsame : Same opening.parsed opening'.parsed) :
    Same (arrayLiteral opening) (arrayLiteral opening') := by
  rw [arrayLiteral, arrayLiteral]
  refine simulation.underNode _ h (simulation.takenThen hsame fun mid mid' _ _ hmid => ?_)
  refine simulation.andThen ?_ fun mid mid' _ _ hmid => simulation.andThen
    (simulation.optional_same hmid (by decide)) fun mid mid' _ _ hmid =>
      simulation.close_same hmid _ (by decide)
  rw [← simulation.isAtAny_eq hmid]
  split
  · exact simulation.underNode _ hmid (elementList_same hmid)
  · exact simulation.nothing hmid
termination_by 4 * inp.size

theorem elementList_same {inp inp' : Input} (h : Alike inp inp') :
    Same (elementList inp) (elementList inp') := by
  rw [elementList, elementList]
  refine simulation.andThen (propertyValue_same h) fun mid mid' _ _ hmid => ?_
  exact simulation.separator_same hmid fun mid mid' _ _ hmid => elementList_same hmid
termination_by 4 * inp.size + 3

theorem functionCall_same {inp inp' : Input} {name : Taken inp} {name' : Taken inp'}
    (h : Alike inp inp') (hsame : Same name.parsed name'.parsed) :
    Same (functionCall name) (functionCall name') := by
  rw [functionCall, functionCall]
  exact simulation.underNode _ h
    (simulation.takenThen hsame fun mid mid' _ _ hmid => arguments_same hmid)
termination_by 4 * inp.size

theorem arguments_same {inp inp' : Input} (h : Alike inp inp') :
    Same (arguments inp) (arguments inp') := by
  rw [arguments, arguments]
  apply simulation.underNode _ h
  cases simulation.first h (· = .openParen) rfl with
  | missing hnone hnone' =>
    rw [hnone, hnone']
    exact simulation.mismatched _ h
  | found hopening hopening' _ _ hsame =>
    rw [hopening, hopening']
    refine simulation.takenThen hsame fun mid mid' _ _ hmid => ?_
    refine simulation.andThen ?_ fun mid mid' _ _ hmid => simulation.expect_same hmid (by decide)
    rw [← simulation.isAt_eq hmid]
    split
    · exact simulation.nothing hmid
    · exact argumentList_same hmid
termination_by 4 * inp.size + 1

theorem argumentList_same {inp inp' : Input} (h : Alike inp inp') :
    Same (argumentList inp) (argumentList inp') := by
  rw [argumentList, argumentList]
  refine simulation.andThen (simulation.underNode _ h (value_same h))
    fun mid mid' _ _ hmid => ?_
  exact simulation.separator_same hmid fun mid mid' _ _ hmid => argumentList_same hmid
termination_by 4 * inp.size + 3

end

theorem collection_same {inp inp' : Input} {name : Taken inp} {name' : Taken inp'}
    (h : Alike inp inp') (hsame : Same name.parsed name'.parsed) :
    Same (collection name) (collection name') :=
  simulation.underNode _ h (simulation.takenThen hsame fun _ _ _ _ hmid => simulation.dotted hmid)

mutual

theorem members_same {inp inp' : Input} (h : Alike inp inp') (first : Bool) :
    Same (members inp first) (members inp' first) := by
  rw [members, members]
  cases simulation.first h (· = .dot) rfl with
  | found hdot hdot' _ _ hsame =>
    rw [hdot, hdot']
    exact simulation.takenThen hsame fun mid mid' _ _ hmid => member_same hmid first
  | missing hnone hnone' =>
    rw [hnone, hnone']
    dsimp only
    rw [← simulation.isAt_eq h]
    split
    · exact simulation.andThen (simulation.missing .dot h) fun mid mid' _ _ hmid =>
        member_same hmid first
    · exact simulation.nothing h
termination_by 2 * inp.size + 1

theorem member_same {inp inp' : Input} (h : Alike inp inp') (first : Bool) :
    Same (member inp first) (member inp' first) := by
  rw [member, member]
  cases simulation.first h (· = .identifier) rfl with
  | missing hnone hnone' =>
    rw [hnone, hnone']
    exact simulation.mismatched _ h
  | @found name name' hname hname' hnext hnext' hsame =>
    have hpeek : name.rest.peek = name'.rest.peek := simulation.peek_eq (simulation.rest hsame)
    rw [hname, hname']
    dsimp only
    rw [Taken.nth_one_eq hnext, Taken.nth_one_eq hnext', hpeek]
    have := collection_size_lt name
    have := functionCall_size_lt name
    split
    · have hhead := simulation.collection_same h hsame
      exact simulation.append hhead (members_same (simulation.rest hhead) false)
    · have hhead := simulation.functionCall_same h hsame
      exact simulation.append hhead (members_same (simulation.rest hhead) false)
termination_by 2 * inp.size

end

theorem commandBody_same {inp inp' : Input} (h : Alike inp inp') :
    Same (commandBody inp) (commandBody inp') := by
  have hmembers := simulation.members_same h true
  refine simulation.append hmembers ?_
  rw [callCheck, callCheck, ← simulation.calls hmembers,
    ← simulation.recovering (simulation.rest hmembers)]
  split
  · exact simulation.nothing (simulation.rest hmembers)
  · exact simulation.mismatched _ (simulation.rest hmembers)

end Simulation

end QueryPad.Syntax
