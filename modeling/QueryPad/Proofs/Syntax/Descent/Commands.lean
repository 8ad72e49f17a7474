import QueryPad.Proofs.Syntax.Descent.Values
import QueryPad.Proofs.Syntax.Recovery

-- The descent through commands, and with it through a whole pad.
namespace QueryPad.Syntax

variable {inp : Input} {r : Reader}

-- Whether a method is called in what was read.
def Parsed.calls (parsed : Parsed inp) : Bool := parsed.trees.any (·.is .functionCall)

theorem calls_append (parsed : Parsed inp) (next : Parsed parsed.rest) :
    (parsed.append next).calls = (parsed.calls || next.calls) :=
  List.any_append

theorem calls_andThen {taken : Taken inp} (h : Taken.next? inp = some taken)
    (next : (mid : Input) → mid.size < inp.size → Parsed mid) :
    (taken.andThen next).calls = (next taken.rest taken.size_lt).calls := by
  simp [Parsed.calls, Taken.andThen, Taken.tree_eq h, Tree.is, Tree.rule?]

-- One part more of a dotted name.
theorem after_dotted {dot part next : Token} {rest : List Token} (r : Reader)
    (h : dot.kind = .dot && part.kind = .identifier && next.kind = .dot) :
    r.after (dotted ⟨dot :: part :: next :: rest, false⟩) =
      ((r.after (Taken.front dot (part :: next :: rest) false).parsed).after
        (Taken.front part (next :: rest) false).parsed).after (dotted ⟨next :: rest, false⟩) := by
  simp [Reader.after, dotted, dottedParts, h, Taken.parsed, Taken.andThen, Parsed.nothing,
    Taken.front, Tree.tokensOf, Tree.tokens, Tree.eventsOf, Tree.eventsFrom, Nat.add_assoc,
    Nat.add_comm 2]

theorem completes_dotted {tokens : List Token} {r : Reader} (hr : r.inp = ⟨tokens, false⟩) :
    Completes [.dotted] r (r.after (dotted ⟨tokens, false⟩)) := by
  induction tokens using dottedParts.induct generalizing r with
  | case1 dot part next rest hkinds _ _ _ ih =>
    have hkind := hkinds
    simp only [Bool.and_eq_true, decide_eq_true_eq] at hkind
    obtain ⟨⟨hdot, hpart⟩, -⟩ := hkind
    have hbump : r.bump = r.after (Taken.front dot (part :: next :: rest) false).parsed :=
      Reader.bump_eq hr rfl (show dot.kind ≠ _ from hdot ▸ by decide)
    have hagain : r.bump.bump = r.bump.after (Taken.front part (next :: rest) false).parsed :=
      Reader.bump_eq (congrArg Reader.inp hbump) rfl (show part.kind ≠ _ from hpart ▸ by decide)
    have hturn : Task.turn r .dotted = ([.dotted], r.bump.bump) := by
      rw [Task.turn, hr]
      exact if_pos hkinds
    rw [after_dotted r hkinds, ← hbump, ← hagain]
    exact .turn hturn (ih (congrArg Reader.inp hagain))
  | case2 dot part next rest hkinds =>
    have hturn : Task.turn r .dotted = ([], r) := by
      rw [Task.turn, hr]
      exact if_neg hkinds
    have hnone : dotted ⟨dot :: part :: next :: rest, false⟩ = .nothing _ := by
      simp [dotted, dottedParts, hkinds, Parsed.nothing]
    rw [hnone, ← hr, Reader.after_nothing]
    exact .at_once hturn
  | case3 tokens hshort =>
    have hlast : Input.nth ⟨tokens, false⟩ 2 = .endOfText := by
      rcases tokens with _ | ⟨dot, _ | ⟨part, _ | ⟨next, rest⟩⟩⟩
      · rfl
      · rfl
      · rfl
      · exact (hshort dot part next rest rfl).elim
    have hturn : Task.turn r .dotted = ([], r) := by
      rw [Task.turn, hr]
      exact if_neg (by simp [hlast])
    have hnone : dotted ⟨tokens, false⟩ = .nothing _ := by
      simp [dotted, dottedParts, Parsed.nothing]
    rw [hnone, ← hr, Reader.after_nothing]
    exact .at_once hturn

mutual

theorem completes_members (r : Reader) (called first : Bool) :
    Completes [.members called first] r
      ((r.after (members r.inp first)).checkCalls (called || (members r.inp first).calls)) := by
  rw [members]
  split
  · next dot h =>
    have hsize : dot.parsed.rest.size < r.inp.size := dot.size_lt
    have hturn : Task.turn r (.members called first) =
        ([.member called first], r.after dot.parsed) := by
      rw [Task.turn, if_pos (isAt_of_first? h), bump_of_first? (by decide) h]
    rw [calls_andThen (Taken.first?_eq_some_iff.mp h).1, Reader.after_andThen]
    exact .turn hturn (completes_member (r.after dot.parsed) called first)
  · next h =>
    have hat := not_isAt_of_first? (by decide) h
    split
    · next hname =>
      have hsize : (r.missing .dot).inp.size = r.inp.size := rfl
      have hturn : Task.turn r (.members called first) =
          ([.member called first], r.missing .dot) := by
        rw [Task.turn, hat, if_neg (by decide), if_pos hname]
      rw [Parsed.andThen, Reader.after_append, Reader.after_report]
      exact .turn hturn (completes_member (r.missing .dot) called first)
    · next hname =>
      have hturn : Task.turn r (.members called first) = ([.callCheck called], r) := by
        rw [Task.turn, hat, if_neg (by decide), if_neg hname]
      rw [Reader.after_nothing, show (Parsed.nothing r.inp).calls = false from rfl, Bool.or_false]
      exact .turn hturn (.at_once rfl)
termination_by 2 * r.inp.size + 1

theorem completes_member (r : Reader) (called first : Bool) :
    Completes [.member called first] r
      ((r.after (member r.inp first)).checkCalls (called || (member r.inp first).calls)) := by
  rw [member]
  split
  · next h =>
    have hturn : Task.turn r (.member called first) =
        ([.callCheck called], r.mismatched [.identifier]) := by
      rw [Task.turn, not_isAt_of_first? (by decide) h]
      rfl
    have hcalls (fault : SyntaxFault) : (Parsed.report r.inp fault).calls = false := rfl
    rw [Reader.after_report, hcalls, Bool.or_false]
    exact .turn hturn (.at_once rfl)
  · next name h =>
    have hat := isAt_of_first? h
    split
    · next hcollection =>
      have hsize := collection_size_lt name
      obtain ⟨hnext, hkind⟩ := Taken.first?_eq_some_iff.mp h
      have hend : name.token.kind ≠ .endOfText := of_decide_eq_true hkind ▸ by decide
      have hturn : Task.turn r (.member called first) =
          ([.dotted, .leave, .members called false], (r.enter .collection).after name.parsed) := by
        rw [Task.turn, hat, if_neg (by decide), if_pos hcollection,
          Reader.bump_eq (r.inp_enter _) hnext hend]
      have hparts : Completes [.dotted] ((r.enter .collection).after name.parsed)
          ((r.enter .collection).after (name.andThen fun mid _ => dotted mid)) := by
        have hready : name.rest = ⟨name.rest.ahead, false⟩ := by rw [← Taken.recovering_eq hnext]
        rw [Reader.after_andThen, hready]
        exact completes_dotted hready
      have hmembers := completes_members (r.after (collection name)) called false
      have hcalls : (collection name).calls = false := rfl
      rw [calls_append, hcalls, Bool.false_or, Reader.after_append]
      refine .turn hturn (hparts.cons (.cons (.leave _) ?_))
      rw [← Reader.after_underNode]
      exact hmembers
    · next hcall =>
      have hsize := functionCall_size_lt name
      have hturn : Task.turn r (.member called first) =
          ((Task.call r).1 ++ [.members true false], (Task.call r).2) := by
        rw [Task.turn, hat]
        exact if_neg hcall
      have hcalls : (functionCall name).calls = true := by rw [functionCall]; rfl
      have hmembers := completes_members (r.after (functionCall name)) true false
      rw [calls_append, hcalls, Reader.after_append, Bool.true_or, Bool.or_true]
      exact .turn hturn ((completes_call h fun mid _ => completes_arguments mid).append hmembers)
termination_by 2 * r.inp.size

end

theorem after_commandBody (r : Reader) :
    r.after (commandBody r.inp) =
      (r.after (members r.inp true)).checkCalls (members r.inp true).calls := by
  rw [commandBody, Reader.after_append, callCheck]
  split
  · next hquiet => exact (Reader.after_nothing _).trans (if_pos hquiet).symm
  · next hquiet => exact (Reader.after_report _ _).trans (if_neg hquiet).symm

theorem completes_command {db : Taken r.inp} (hnext : Taken.next? r.inp = some db)
    (hkind : db.token.kind = .db) :
    Completes ([.members false true, .optional .semicolon] ++ [.leave]) (r.enter .command).bump
      (r.after (command db)) := by
  rw [command, Reader.after_underNode, Reader.after_andThen, Parsed.andThen, Reader.after_append,
    Reader.bump_eq (r.inp_enter _) hnext (hkind ▸ by decide)]
  refine .append (.cons ?_ (completes_optional (by decide))) (.leave _)
  have hbody := after_commandBody ((r.enter .command).after db.parsed)
  have hmembers := completes_members ((r.enter .command).after db.parsed) false true
  rw [Bool.false_or, ← hbody] at hmembers
  exact hmembers

theorem turn_noCommand (h : r.inp.peek ∉ commandStart) :
    Task.turn r .commands =
      ([.skip commandStart, .commands], (r.mismatched commandStart).spoil) := by
  cases hpeek : r.inp.peek <;> simp [hpeek, commandStart] at h <;> simp [Task.turn, hpeek]

theorem after_noCommand {token : Taken r.inp} (hnext : Taken.next? r.inp = some token)
    (hskip : token.token.kind ∉ commandStart) :
    r.after (noCommand token) = (r.mismatched commandStart).spoil.after
      (.skipUntil (r.mismatched commandStart).spoil.inp commandStart.contains) := by
  have hgo : ¬ ((r.mismatched commandStart).inp.isAt .endOfText ||
      commandStart.contains (r.mismatched commandStart).inp.peek) := by
    have hpeek : (r.mismatched commandStart).inp.peek = token.token.kind := Taken.peek_eq hnext
    have hend : token.token.kind ≠ .endOfText := fun hend => hskip (hend ▸ by decide)
    simp [Input.isAt, hpeek, hskip, hend]
  rw [noCommand_eq hnext hskip, Reader.after_append, Reader.after_report,
    ← Taken.current_eq hnext, ← after_skipUntil hgo]
  rfl

-- All commands, to the end of the text.
theorem completes_commands (r : Reader) :
    Completes [.commands] r (r.after (commandList r.inp)) := by
  cases h : Taken.next? r.inp with
  | none =>
    have hpeek := Taken.peek_of_none h
    rw [commandList_of_end hpeek, Reader.after_nothing]
    exact .at_once (by rw [Task.turn, hpeek])
  | some token =>
    have hpeek := Taken.peek_eq h
    by_cases hend : token.token.kind = .endOfText
    · rw [commandList_of_end (hpeek.trans hend), Reader.after_nothing]
      exact .at_once (by rw [Task.turn, hpeek, hend])
    · have hsize := commandItem_size_lt token
      have hmore := completes_commands (r.after (commandItem token))
      rw [commandList_of_next h hend, Reader.after_append]
      by_cases hdb : token.token.kind = .db
      · have hitem : commandItem token = command token := by rw [commandItem, hdb]
        have hturn : Task.turn r .commands =
            (([.members false true, .optional .semicolon] ++ [.leave]) ++ [.commands],
              (r.enter .command).bump) := by
          rw [Task.turn, hpeek, hdb]
          rfl
        refine .turn hturn (.append ?_ hmore)
        rw [hitem]
        exact completes_command h hdb
      · by_cases hsemicolon : token.token.kind = .semicolon
        · have hitem : r.after (commandItem token) = (r.enter .emptyCommand).bump.leave := by
            rw [commandItem, hsemicolon, emptyCommand, Reader.after_underNode,
              Reader.bump_eq (r.inp_enter _) h hend]
          refine .turn (by rw [Task.turn, hpeek, hsemicolon, ← hitem]) hmore
        · have hskip : token.token.kind ∉ commandStart := by
            simpa [commandStart, hend] using ⟨hdb, hsemicolon⟩
          have hitem : commandItem token = noCommand token := by
            rw [commandItem]
            split <;> simp_all
          refine .turn (turn_noCommand (hpeek ▸ hskip)) (.cons ?_ hmore)
          rw [hitem, after_noCommand h hskip]
          exact completes_skip _ commandStart
termination_by r.inp.size

-- Where the descent ends, and what it has made of the tokens.
theorem completes_pad {tokens : List Token} {finish : Token}
    (htokens : ∀ token ∈ tokens, token.kind ≠ .endOfText) (hfinish : finish.kind = .endOfText) :
    Completes [.pad] (.start (tokens ++ [finish]))
      ⟨⟨[finish], false⟩, tokens.length, (parseTokens (tokens ++ [finish])).tree.eventsFrom 0,
        (parseTokens (tokens ++ [finish])).reports⟩ := by
  have hread : Tree.tokensOf (commandList ⟨tokens ++ [finish], false⟩).trees = tokens :=
    (commandList_consumes htokens hfinish false).1
  have hrest : (commandList ⟨tokens ++ [finish], false⟩).rest.ahead = [finish] :=
    (commandList_consumes htokens hfinish false).2
  have hcommands := completes_commands
    (((Reader.start (tokens ++ [finish])).enter .mongoCommands).enter .commands)
  have hend : Input.isAt (commandList ⟨tokens ++ [finish], false⟩).rest .endOfText := by
    simp [Input.isAt, Input.peek, Input.nth, hrest, hfinish]
  have hlast : ((((Reader.start (tokens ++ [finish])).enter .mongoCommands).enter .commands).after
        (commandList ⟨tokens ++ [finish], false⟩)).leave.bump.leave =
      ⟨⟨[finish], false⟩, tokens.length, (parseTokens (tokens ++ [finish])).tree.eventsFrom 0,
        (parseTokens (tokens ++ [finish])).reports⟩ := by
    simp [parseTokens_eq htokens hfinish, padTree, Reader.start, Reader.enter, Reader.after,
      Reader.leave, Reader.bump, hend, hrest, hread, Tree.eventsFrom, Tree.eventsOf, Tree.tokens]
  rw [← hlast]
  exact .turn rfl (hcommands.cons (.cons (.leave _) (.cons (.at_once rfl) (.leave _))))

end QueryPad.Syntax
