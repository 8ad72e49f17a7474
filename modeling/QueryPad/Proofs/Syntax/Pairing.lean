import Mathlib.Data.List.Forall2
import QueryPad.Proofs.Syntax.Simulation

-- Two texts whose tokens pair off are read alike: what is reported of a token
-- of the one is reported of its partner.
namespace QueryPad.Syntax

variable {Partner : Token → Token → Prop}

-- Two inputs whose tokens are partners one by one.
structure Paired (Partner : Token → Token → Prop) (inp inp' : Input) : Prop where
  ahead : List.Forall₂ Partner inp.ahead inp'.ahead
  recovering : inp.recovering = inp'.recovering

-- One report of a token and of its partner.
inductive PairedReport (Partner : Token → Token → Prop) : SyntaxReport → SyntaxReport → Prop where
  | mismatched {token token' : Token} (h : Partner token token') (expected : List TokenKind) :
      PairedReport Partner ⟨token.span, .mismatched token expected⟩
        ⟨token'.span, .mismatched token' expected⟩
  | missing {token token' : Token} (h : Partner token token') (kind : TokenKind) :
      PairedReport Partner ⟨token.span, .missing kind token⟩ ⟨token'.span, .missing kind token'⟩

-- Two readings with the same reports of partners.
structure PairedReading (Partner : Token → Token → Prop) {inp inp' : Input} (parsed : Parsed inp)
    (parsed' : Parsed inp') : Prop where
  calls : parsed.trees.any (·.is .functionCall) = parsed'.trees.any (·.is .functionCall)
  reports : List.Forall₂ (PairedReport Partner) parsed.reports parsed'.reports
  rest : Paired Partner parsed.rest parsed'.rest

namespace Paired

variable {inp inp' : Input} (h : Paired Partner inp inp')

include h

theorem recover :
    Paired Partner { inp with recovering := true } { inp' with recovering := true } :=
  ⟨h.ahead, rfl⟩

theorem current (hend : Partner (.atEnd 0) (.atEnd 0)) : Partner inp.current inp'.current := by
  obtain ⟨ahead, recovering⟩ := inp
  obtain ⟨ahead', recovering'⟩ := inp'
  cases h.ahead with
  | nil => exact hend
  | cons hfirst _ => exact hfirst

theorem complaint {fault fault' : SyntaxFault} (hfault : PairedReport Partner
    ⟨inp.current.span, fault⟩ ⟨inp'.current.span, fault'⟩) :
    List.Forall₂ (PairedReport Partner) (inp.complaint fault) (inp'.complaint fault') := by
  rw [Input.complaint, Input.complaint, h.recovering]
  split
  · exact .nil
  · exact .cons hfault .nil

end Paired

namespace PairedReading

variable {inp inp' : Input}

theorem nothing (h : Paired Partner inp inp') :
    PairedReading Partner (.nothing inp) (.nothing inp') := ⟨rfl, .nil, h⟩

theorem report {fault fault' : SyntaxFault} (h : Paired Partner inp inp')
    (hfault : PairedReport Partner ⟨inp.current.span, fault⟩ ⟨inp'.current.span, fault'⟩) :
    PairedReading Partner (.report inp fault) (.report inp' fault') :=
  ⟨rfl, h.complaint hfault, h.recover⟩

theorem append {parsed : Parsed inp} {parsed' : Parsed inp'} {next : Parsed parsed.rest}
    {next' : Parsed parsed'.rest} (head : PairedReading Partner parsed parsed')
    (tail : PairedReading Partner next next') :
    PairedReading Partner (parsed.append next) (parsed'.append next') where
  calls := by rw [Parsed.append_trees, Parsed.append_trees, List.any_append, List.any_append,
    head.calls, tail.calls]
  reports := List.rel_append head.reports tail.reports
  rest := tail.rest

theorem underNode {parsed : Parsed inp} {parsed' : Parsed inp'} (rule : Rule)
    (body : PairedReading Partner parsed parsed') :
    PairedReading Partner (parsed.underNode rule) (parsed'.underNode rule) where
  calls := by simp [Tree.is, Tree.rule?]
  reports := body.reports
  rest := body.rest

end PairedReading

-- The next tokens are partners, or there are none.
inductive PairedNext (Partner : Token → Token → Prop) (inp inp' : Input) : Prop where
  | found {taken : Taken inp} {taken' : Taken inp'} (h : Taken.next? inp = some taken)
      (h' : Taken.next? inp' = some taken') (hpartner : Partner taken.token taken'.token)
      (hrest : Paired Partner taken.rest taken'.rest)
  | missing (h : Taken.next? inp = none) (h' : Taken.next? inp' = none)

theorem Paired.next {inp inp' : Input} (h : Paired Partner inp inp') :
    PairedNext Partner inp inp' := by
  obtain ⟨ahead, recovering⟩ := inp
  obtain ⟨ahead', recovering'⟩ := inp'
  cases h.ahead with
  | nil => exact .missing rfl rfl
  | cons hfirst hmore => exact .found rfl rfl hfirst ⟨hmore, rfl⟩

-- Leaves are no calls.
theorem any_is_leaves {leaf : Token → Tree} (hleaf : ∀ token rule, (leaf token).is rule = false)
    (tokens : List Token) (rule : Rule) : (tokens.map leaf).any (·.is rule) = false := by
  rw [List.any_map, List.any_eq_false]
  intro token _
  simp [hleaf]

theorem Paired.taken {inp inp' : Input} {taken : Taken inp} {taken' : Taken inp'}
    (hpaired : Paired Partner inp inp') (h : Taken.next? inp = some taken)
    (h' : Taken.next? inp' = some taken') : PairedReading Partner taken.parsed taken'.parsed := by
  have htrees {inp : Input} {taken : Taken inp} (h : Taken.next? inp = some taken) :
      taken.parsed.trees = [taken.token].map .terminal := by
    simp [Taken.parsed, Taken.andThen, Parsed.nothing, Taken.tree_eq h]
  cases hpaired.next with
  | missing hnone =>
    rw [hnone] at h
    contradiction
  | found hnext hnext' _ hrest =>
    obtain rfl := Option.some.inj (h.symm.trans hnext)
    obtain rfl := Option.some.inj (h'.symm.trans hnext')
    refine ⟨?_, .nil, hrest⟩
    rw [htrees h, htrees h', any_is_leaves fun _ _ => rfl, any_is_leaves fun _ _ => rfl]

theorem Paired.padEnd {inp inp' : Input} (h : Paired Partner inp inp') :
    PairedReading Partner (padEnd inp) (Syntax.padEnd inp') := by
  rw [Syntax.padEnd, Syntax.padEnd]
  cases h.next with
  | missing hnone hnone' =>
    rw [hnone, hnone']
    exact .nothing h
  | found hnext hnext' =>
    rw [hnext, hnext']
    exact h.taken hnext hnext'

section Kinds

variable (hkind : ∀ token token', Partner token token' → token.kind = token'.kind)

include hkind

theorem forall₂_skipped (p : TokenKind → Bool) {tokens tokens' : List Token}
    (h : List.Forall₂ Partner tokens tokens') :
    List.Forall₂ Partner (tokens.dropWhile fun token => p token.kind)
      (tokens'.dropWhile fun token => p token.kind) := by
  induction h with
  | nil => exact .nil
  | @cons token token' tokens tokens' hfirst hmore ih =>
    rw [List.dropWhile_cons, List.dropWhile_cons, hkind token token' hfirst]
    split
    · exact ih
    · exact .cons hfirst hmore

theorem forall₂_dottedParts {tokens tokens' : List Token}
    (h : List.Forall₂ Partner tokens tokens') :
    List.Forall₂ Partner (dottedParts tokens).2 (dottedParts tokens').2 := by
  induction tokens using dottedParts.induct generalizing tokens' with
  | case1 dot part behind rest hkinds _ _ _ ih =>
    obtain _ | ⟨hdot, _ | ⟨hpart, _ | ⟨hbehind, hrest⟩⟩⟩ := h
    have hkinds' := hkinds
    rw [hkind _ _ hdot, hkind _ _ hpart, hkind _ _ hbehind] at hkinds'
    rw [dottedParts, dottedParts, if_pos hkinds, if_pos hkinds']
    exact ih (.cons hbehind hrest)
  | case2 dot part behind rest hkinds =>
    have hwhole := h
    obtain _ | ⟨hdot, _ | ⟨hpart, _ | ⟨hbehind, hrest⟩⟩⟩ := h
    have hkinds' := hkinds
    rw [hkind _ _ hdot, hkind _ _ hpart, hkind _ _ hbehind] at hkinds'
    rw [dottedParts, dottedParts, if_neg hkinds, if_neg hkinds']
    exact hwhole
  | case3 tokens hshort =>
    obtain _ | ⟨hfirst, _ | ⟨hsecond, _ | ⟨_, _⟩⟩⟩ := h
    · simp [dottedParts]
    · exact .cons hfirst .nil
    · exact .cons hfirst (.cons hsecond .nil)
    · exact absurd rfl (hshort _ _ _ _)

theorem Paired.skipUntil {inp inp' : Input} (h : Paired Partner inp inp')
    (stops : TokenKind → Bool) :
    PairedReading Partner (.skipUntil inp stops) (.skipUntil inp' stops) := by
  refine ⟨?_, .nil, ?_, h.recovering⟩
  · exact (any_is_leaves (fun _ _ => rfl) _ _).trans (any_is_leaves (fun _ _ => rfl) _ _).symm
  · exact forall₂_skipped hkind (fun kind => !(kind = .endOfText || stops kind)) h.ahead

theorem Paired.dotted {inp inp' : Input} (h : Paired Partner inp inp') :
    PairedReading Partner (dotted inp) (Syntax.dotted inp') := by
  refine ⟨?_, .nil, forall₂_dottedParts hkind h.ahead, h.recovering⟩
  exact (any_is_leaves (fun _ _ => rfl) _ _).trans (any_is_leaves (fun _ _ => rfl) _ _).symm

variable (hend : Partner (.atEnd 0) (.atEnd 0))

include hend

-- What relates partners of one kind relates all that is read of them.
theorem Paired.simulation : Simulation (Paired Partner) (PairedReading Partner) where
  kinds h := by
    cases h.next with
    | missing hnone hnone' => rw [hnone, hnone']; rfl
    | found hnext hnext' hpartner _ =>
      rw [hnext, hnext', Option.map_some, Option.map_some, hkind _ _ hpartner]
  recovering h := h.recovering
  rest h := h.rest
  calls h := h.calls
  nothing h := .nothing h
  mismatched expected h := .report h (.mismatched (h.current hend) expected)
  missing kind h := .report h (.missing (h.current hend) kind)
  append head tail := head.append tail
  underNode rule _ body := body.underNode rule
  taken h hnext hnext' _ := h.taken hnext hnext'
  skipTo _ h := h.skipUntil hkind _
  dotted h := h.dotted hkind

section Commands

variable {inp inp' : Input} (h : Paired Partner inp inp')

include h

omit hend in
theorem Paired.optional (kind : TokenKind) :
    PairedReading Partner (.optional inp kind) (.optional inp' kind) := by
  cases h.next with
  | missing hnone hnone' =>
    rw [Parsed.optional, Parsed.optional, Taken.first?, Taken.first?, hnone, hnone']
    exact .nothing h
  | found hnext hnext' hpartner _ =>
    rw [optional_eq hnext, optional_eq hnext', hkind _ _ hpartner]
    split
    · exact h.taken hnext hnext'
    · exact .nothing h

variable {token : Taken inp} {token' : Taken inp'} (hnext : Taken.next? inp = some token)
  (hnext' : Taken.next? inp' = some token')

include hnext hnext'

theorem Paired.command : PairedReading Partner (command token) (Syntax.command token') := by
  have simulation := Paired.simulation hkind hend
  refine .underNode _ (simulation.takenThen (h.taken hnext hnext') fun mid mid' _ _ hmid => ?_)
  exact simulation.andThen (simulation.commandBody_same hmid) fun _ _ _ _ hmid =>
    hmid.optional hkind .semicolon

theorem Paired.noCommand : PairedReading Partner (noCommand token) (Syntax.noCommand token') := by
  have hread := h.taken hnext hnext'
  have hspoiled : PairedReading Partner token.spoiled.parsed token'.spoiled.parsed :=
    ⟨rfl, .nil, hread.rest.recover⟩
  have hskipped : PairedReading Partner
      (token.spoiled.andThen fun mid _ => .skipUntil mid commandStart.contains)
      (token'.spoiled.andThen fun mid _ => .skipUntil mid commandStart.contains) :=
    (Paired.simulation hkind hend).takenThen hspoiled fun _ _ _ _ hmid => hmid.skipUntil hkind _
  have hcomplaint := h.complaint (.mismatched (h.current hend) commandStart)
  refine ⟨hskipped.calls, ?_, hskipped.rest⟩
  rw [Syntax.noCommand, Syntax.noCommand, ← Taken.current_eq hnext, ← Taken.current_eq hnext']
  exact List.rel_append hcomplaint hskipped.reports

theorem Paired.commandItem :
    PairedReading Partner (commandItem token) (Syntax.commandItem token') := by
  have hkinds := hkind _ _ (h.current hend)
  rw [Taken.current_eq hnext, Taken.current_eq hnext'] at hkinds
  rw [Syntax.commandItem, Syntax.commandItem, ← hkinds]
  split
  · exact h.command hkind hend hnext hnext'
  · exact .underNode _ (h.taken hnext hnext')
  · exact h.noCommand hkind hend hnext hnext'

end Commands

theorem Paired.commandList {inp inp' : Input} (h : Paired Partner inp inp') :
    PairedReading Partner (commandList inp) (Syntax.commandList inp') := by
  cases h.next with
  | missing hnone hnone' =>
    rw [commandList_of_end (Taken.peek_of_none hnone), commandList_of_end (Taken.peek_of_none hnone')]
    exact .nothing h
  | @found token token' hnext hnext' hpartner _ =>
    have hkinds := hkind _ _ hpartner
    by_cases hfinish : token.token.kind = .endOfText
    · rw [commandList_of_end ((Taken.peek_eq hnext).trans hfinish),
        commandList_of_end ((Taken.peek_eq hnext').trans (hkinds ▸ hfinish))]
      exact .nothing h
    · have hitem := h.commandItem hkind hend hnext hnext'
      have := commandItem_size_lt token
      rw [commandList_of_next hnext hfinish, commandList_of_next hnext' (hkinds ▸ hfinish)]
      exact hitem.append (Paired.commandList hitem.rest)
termination_by inp.size

-- The reports on texts of partners are reports on partners.
theorem parseTokens_paired {tokens tokens' : List Token} (h : List.Forall₂ Partner tokens tokens') :
    List.Forall₂ (PairedReport Partner) (parseTokens tokens).reports
      (parseTokens tokens').reports := by
  have hlist : PairedReading Partner (commandList ⟨tokens, false⟩) (commandList ⟨tokens', false⟩) :=
    Paired.commandList hkind hend ⟨h, rfl⟩
  have hbody : PairedReading Partner (padBody ⟨tokens, false⟩) (padBody ⟨tokens', false⟩) :=
    (Paired.simulation hkind hend).andThen (hlist.underNode .commands) fun _ _ _ _ hmid =>
      hmid.padEnd
  exact hbody.reports

end Kinds

end QueryPad.Syntax
