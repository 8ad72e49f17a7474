import QueryPad.Proofs.Syntax.Descent.Steps

-- The descent through values, calls and the lists of their items, one task for
-- each rule that calls the others.
namespace QueryPad.Syntax

variable {r : Reader}

theorem turn_noValue (h : r.inp.peek ∉ valueStart) :
    Task.turn r .value =
      if r.inp.isAt .comma || r.inp.isAt .colon then ([], r.mismatched valueStart)
      else ([.skip (.comma :: sync)], r.mismatched valueStart) := by
  cases hpeek : r.inp.peek <;> simp [hpeek, valueStart] at h <;>
    simp [Task.turn, hpeek, TokenKind.isLiteral]

theorem completes_noValue (h : r.inp.peek ∉ valueStart) :
    Completes [.value] r (r.after (noValue r.inp)) := by
  have hmid : ∀ kind, (r.mismatched valueStart).inp.isAt kind = r.inp.isAt kind := fun _ => rfl
  rw [noValue, after_mismatched, hmid, hmid]
  split
  · next hstop =>
    rw [Reader.after_nothing]
    exact .at_once ((turn_noValue h).trans (if_pos hstop))
  · next hgo => exact .turn ((turn_noValue h).trans (if_neg hgo)) (completes_skipTo _ .comma)

theorem turn_literal (h : r.inp.peek.isLiteral) :
    Task.turn r .value = ([], (r.enter .literal).bump.leave) := by
  cases hpeek : r.inp.peek <;> simp [hpeek, TokenKind.isLiteral] at h <;>
    simp [Task.turn, hpeek, TokenKind.isLiteral]

theorem completes_literal {token : Taken r.inp} (hnext : Taken.next? r.inp = some token)
    (hliteral : token.token.kind.isLiteral) :
    Completes [.value] r (r.after (literal token)) := by
  have hend : token.token.kind ≠ .endOfText := by
    intro hkind
    simp [hkind, TokenKind.isLiteral] at hliteral
  rw [literal, Reader.after_underNode, ← Reader.bump_eq (r.inp_enter _) hnext hend]
  exact .at_once (turn_literal (Taken.peek_eq hnext ▸ hliteral))

-- A literal is closed behind its items, whichever they are.
theorem completes_brackets (rule : Rule) (list : ItemList) (starts : List TokenKind)
    {opening : Taken r.inp} {first : (mid : Input) → mid.size < r.inp.size → Parsed mid}
    (hnext : Taken.next? r.inp = some opening) (hend : opening.token.kind ≠ .endOfText)
    (hturn : Task.turn r .value = Task.literal r rule list starts)
    (hfirst : Completes [.items list] ((r.enter rule).after opening.parsed)
      (((r.enter rule).after opening.parsed).after (first opening.rest opening.size_lt))) :
    Completes [.value] r (r.after <| .underNode rule <| opening.andThen fun mid h =>
      (first mid h).andThen fun mid _ => (Parsed.optional mid .comma).andThen fun mid _ =>
        close mid list.closing starts) := by
  have hclosing : list.closing ≠ .endOfText := by cases list <;> decide
  have hnode : Task.turn r .value =
      ([.items list, .optional .comma, .close list.closing starts] ++ [.leave],
        (r.enter rule).after opening.parsed) := by
    rw [hturn, Task.literal, Reader.bump_eq (r.inp_enter rule) hnext hend]
    rfl
  refine .node hnode ?_
  rw [Reader.after_andThen, Parsed.andThen, Reader.after_append, Parsed.andThen,
    Reader.after_append]
  exact hfirst.cons ((completes_optional (by decide)).cons (completes_close hclosing))

-- Items stand under a node of their own, if there are any.
theorem completes_items {rule : Rule} {list : ItemList} {starts : List TokenKind}
    {items : Parsed r.inp}
    (hturn : Task.turn r (.items list) =
      if r.inp.isAtAny starts then ([.item list, .leave], r.enter rule) else ([], r))
    (hitems : r.inp.isAtAny starts →
      Completes [.item list] (r.enter rule) ((r.enter rule).after items)) :
    Completes [.items list] r (r.after <|
      if r.inp.isAtAny starts then .underNode rule items else .nothing r.inp) := by
  split
  · next hstart =>
    have hnode : Task.turn r (.items list) = ([.item list] ++ [.leave], r.enter rule) :=
      hturn.trans (if_pos hstart)
    exact .node hnode (hitems hstart)
  · next hstart =>
    rw [Reader.after_nothing]
    exact .at_once (hturn.trans (if_neg hstart))

theorem completes_call {name : Taken r.inp}
    (hname : Taken.first? r.inp (· = .identifier) = some name)
    (harguments : ∀ mid : Reader, mid.inp = name.rest →
      Completes [.arguments] mid (mid.after (arguments mid.inp))) :
    Completes (Task.call r).1 (Task.call r).2 (r.after (functionCall name)) := by
  obtain ⟨hnext, hkind⟩ := Taken.first?_eq_some_iff.mp hname
  have hend : name.token.kind ≠ .endOfText := of_decide_eq_true hkind ▸ by decide
  have hcall : Task.call r =
      ([.arguments] ++ [.leave], (r.enter .functionCall).after name.parsed) := by
    rw [Task.call, Reader.bump_eq (r.inp_enter _) hnext hend]
    rfl
  rw [hcall, functionCall, Reader.after_underNode, Reader.after_andThen]
  exact (harguments _ rfl).append (.leave _)

-- A name is the start of a property.
theorem turn_property {name : Taken r.inp} (hnext : Taken.next? r.inp = some name)
    (hend : name.token.kind ≠ .endOfText) :
    Task.turn r (.item .properties) =
      ([.expect .colon, .propertyValue, .leave, .behindItem .properties],
        (r.enter .propertyAssignment).after (name.underNode .propertyName).parsed) := by
  have hinp : ((r.enter .propertyAssignment).enter .propertyName).inp = r.inp := rfl
  rw [Taken.parsed_underNode, Reader.after_underNode, ← Reader.bump_eq hinp hnext hend]
  rfl

mutual

theorem completes_value (r : Reader) : Completes [.value] r (r.after (value r.inp)) := by
  rw [value]
  split
  · next h => exact completes_noValue (by rw [Taken.peek_of_none h]; decide)
  · next token h =>
    have hpeek := Taken.peek_eq h
    have hsize : token.parsed.rest.size < r.inp.size := token.size_lt
    split
    · next hkind =>
      rw [objectLiteral]
      refine completes_brackets .objectLiteral .properties nameStart h
        (hkind ▸ by decide) (by simp [Task.turn, hpeek, hkind]) ?_
      exact completes_properties ((r.enter .objectLiteral).after token.parsed)
    · next hkind =>
      rw [arrayLiteral]
      refine completes_brackets .arrayLiteral .elements valueStart h
        (hkind ▸ by decide) (by simp [Task.turn, hpeek, hkind]) ?_
      exact completes_elements ((r.enter .arrayLiteral).after token.parsed)
    · next hkind =>
      have hname : Taken.first? r.inp (· = .identifier) = some token :=
        Taken.first?_eq_some_iff.mpr ⟨h, decide_eq_true hkind⟩
      refine .turn (by simp [Task.turn, hpeek, hkind]) (completes_call hname fun mid hmid => ?_)
      have : mid.inp.size < r.inp.size := hmid ▸ hsize
      exact completes_arguments mid
    · next hbrace hbracket hname =>
      split
      · next hliteral => exact completes_literal h hliteral
      · next hliteral =>
        refine completes_noValue fun hstart => ?_
        rw [hpeek] at hstart
        cases hkind : token.token.kind <;> simp_all [valueStart, TokenKind.isLiteral]
termination_by 4 * r.inp.size + 1

theorem completes_properties (r : Reader) :
    Completes [.items .properties] r (r.after <|
      if r.inp.isAtAny nameStart then
        .underNode .propertyNameAndValueList (propertyList r.inp)
      else .nothing r.inp) :=
  completes_items rfl fun hstart => completes_property (r.enter .propertyNameAndValueList) hstart
termination_by 4 * r.inp.size + 2

theorem completes_property (r : Reader) (hstart : r.inp.isAtAny nameStart) :
    Completes [.item .properties] r (r.after (propertyList r.inp)) := by
  obtain ⟨name, hname⟩ := Taken.exists_first? hstart rfl
  obtain ⟨hnext, hkind⟩ := Taken.first?_eq_some_iff.mp hname
  have hend : name.token.kind ≠ .endOfText := by
    intro hend
    simp [hend, nameStart] at hkind
  have hassignment : Completes ([.expect .colon, .propertyValue] ++ [.leave])
      ((r.enter .propertyAssignment).after (name.underNode .propertyName).parsed)
      (r.after (propertyAssignment name)) := by
    have : (Parsed.expect (name.underNode .propertyName).parsed.rest .colon).rest.size <
        r.inp.size := Nat.lt_of_le_of_lt (Parsed.size_le _) name.size_lt
    rw [propertyAssignment, Reader.after_underNode, Reader.after_andThen, Parsed.andThen,
      Reader.after_append]
    exact ((completes_expect (by decide)).cons (completes_propertyValue _)).append (.leave _)
  have hsize : (propertyAssignment name).rest.size < r.inp.size := by
    rw [propertyAssignment, Parsed.underNode_rest]
    exact (name.underNode .propertyName).andThen_size_lt _
  rw [propertyList, hname]
  simp only [Parsed.andThen, Reader.after_append]
  refine .turn (turn_property hnext hend)
    (hassignment.append (completes_behindItem fun mid h hfollows => ?_))
  have : mid.inp.size < r.inp.size := Nat.lt_trans h hsize
  exact completes_property mid hfollows
termination_by 4 * r.inp.size + 1

theorem completes_propertyValue (r : Reader) :
    Completes [.propertyValue] r (r.after (propertyValue r.inp)) := by
  have hnode : Task.turn r .propertyValue = ([.value] ++ [.leave], r.enter .propertyValue) := rfl
  rw [propertyValue]
  exact .node hnode (completes_value (r.enter .propertyValue))
termination_by 4 * r.inp.size + 2

theorem completes_elements (r : Reader) :
    Completes [.items .elements] r (r.after <|
      if r.inp.isAtAny valueStart then .underNode .elementList (elementList r.inp)
      else .nothing r.inp) :=
  completes_items rfl fun _ => completes_element (r.enter .elementList)
termination_by 4 * r.inp.size + 4

theorem completes_element (r : Reader) :
    Completes [.item .elements] r (r.after (elementList r.inp)) := by
  have hsize := (propertyValue r.inp).size_le
  rw [elementList, Parsed.andThen, Reader.after_append]
  refine .turn rfl ((completes_propertyValue r).cons (completes_behindItem fun mid h _ => ?_))
  have : mid.inp.size < r.inp.size := Nat.lt_of_lt_of_le h hsize
  exact completes_element mid
termination_by 4 * r.inp.size + 3

theorem completes_arguments (r : Reader) :
    Completes [.arguments] r (r.after (arguments r.inp)) := by
  rw [arguments]
  split
  · next h =>
    have hat : ¬ r.inp.isAt .openParen := by simp [not_isAt_of_first? (by decide) h]
    have hreport : (r.enter .arguments).after
          (.report r.inp (.mismatched r.inp.current [.openParen])) =
        (r.enter .arguments).mismatched [.openParen] := Reader.after_report _ _
    rw [Reader.after_underNode, hreport]
    exact .at_once (if_neg hat)
  · next opening h =>
    have hsize : opening.parsed.rest.size < r.inp.size := opening.size_lt
    have hnext := (Taken.first?_eq_some_iff.mp h).1
    have hend : opening.token.kind ≠ .endOfText :=
      of_decide_eq_true (Taken.first?_eq_some_iff.mp h).2 ▸ by decide
    have hnode : Task.turn r .arguments =
        ([.items .arguments, .expect .closeParen] ++ [.leave],
          (r.enter .arguments).after opening.parsed) := by
      rw [← Reader.bump_eq (r.inp_enter _) hnext hend]
      exact if_pos (isAt_of_first? h)
    refine .node hnode ?_
    rw [Reader.after_andThen, Parsed.andThen, Reader.after_append]
    refine .cons ?_ (completes_expect (by decide))
    exact completes_argumentList ((r.enter .arguments).after opening.parsed)
termination_by 4 * r.inp.size + 1

theorem completes_argumentList (r : Reader) :
    Completes [.items .arguments] r (r.after <|
      if r.inp.isAt .closeParen then .nothing r.inp else argumentList r.inp) := by
  split
  · next hclose =>
    rw [Reader.after_nothing]
    exact .at_once (by rw [Task.turn, if_pos hclose])
  · next hclose => exact .turn (by rw [Task.turn, if_neg hclose]) (completes_argument r)
termination_by 4 * r.inp.size + 4

theorem completes_argument (r : Reader) :
    Completes [.item .arguments] r (r.after (argumentList r.inp)) := by
  have hsize := (value r.inp).size_le
  have hvalue : Completes ([.value] ++ [.leave]) (r.enter .argument)
      (r.after ((value r.inp).underNode .argument)) := by
    rw [Reader.after_underNode]
    exact (completes_value (r.enter .argument)).append (.leave _)
  rw [argumentList, Parsed.andThen, Reader.after_append]
  refine .turn rfl (hvalue.append (completes_behindItem fun mid h _ => ?_))
  have : mid.inp.size < r.inp.size := Nat.lt_of_lt_of_le h hsize
  exact completes_argument mid
termination_by 4 * r.inp.size + 3

end

end QueryPad.Syntax
