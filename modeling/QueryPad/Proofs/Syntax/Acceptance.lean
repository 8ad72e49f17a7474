import Mathlib.Data.List.Chain
import QueryPad.Proofs.Syntax.Completeness
import QueryPad.Proofs.Syntax.Lossless
import QueryPad.Proofs.Syntax.Soundness

-- The reader of pads accepts what the grammar derives and nothing else, and
-- what it builds then is the tree of the derivation.
namespace QueryPad

mutual

-- The leaves that no rule matched.
def Tree.errors : Tree → List Token
  | .terminal _ => []
  | .error token => [token]
  | .node _ _ children => Tree.errorsOf children

def Tree.errorsOf : List Tree → List Token
  | [] => []
  | tree :: trees => tree.errors ++ Tree.errorsOf trees

end

namespace Syntax

variable {ahead mid rest : List Token} {trees children : List Tree} {more : List Symbol}

-- A call is told from a part of a collection name by the third token.
theorem tokens_of_call (h : Derives (.token .dot :: .rule .functionCall :: more) ahead trees rest) :
    ∃ dot name opening after, ahead = dot :: name :: opening :: after ∧ dot.kind = .dot ∧
      name.kind = .identifier ∧ opening.kind = .openParen := by
  obtain ⟨dot, _, _, hdot, rfl, rfl, tail⟩ := Derives.token_iff.mp h
  obtain ⟨_, _, _, body, _, _⟩ := Derives.rule_iff.mp tail
  obtain ⟨name, _, _, hname, rfl, rfl, tail⟩ := Derives.token_iff.mp body
  obtain ⟨_, _, _, body, _, _⟩ := Derives.rule_iff.mp tail
  obtain ⟨opening, after, _, hopening, rfl, _, _⟩ := Derives.token_iff.mp body
  exact ⟨dot, name, opening, after, rfl, hdot, hname, hopening⟩

section Collection

variable {dot name opening : Token} {after : List Token} (hdot : dot.kind = .dot)
  (hopening : opening.kind = .openParen)

include hdot

theorem peek_of_parts (h : Derives [.many [.token .dot, .token .identifier]] ahead trees
    (dot :: name :: opening :: after)) : Input.peek ⟨ahead, false⟩ = .dot := by
  rcases Derives.many_iff.mp h with hstop | hagain
  · obtain ⟨_, rfl⟩ := Derives.nil_iff.mp hstop
    exact hdot
  · exact peek_of_token hagain

include hopening

theorem dottedParts_eq {ahead : List Token} {trees : List Tree}
    (h : Derives [.many [.token .dot, .token .identifier]] ahead trees
      (dot :: name :: opening :: after)) :
    (dottedParts ahead).1.map .terminal = trees ∧
      (dottedParts ahead).2 = dot :: name :: opening :: after := by
  rcases Derives.many_iff.mp h with hstop | hagain
  · obtain ⟨rfl, rfl⟩ := Derives.nil_iff.mp hstop
    simp [dottedParts, hopening]
  · obtain ⟨point, _, _, hpoint, rfl, rfl, named⟩ := Derives.token_iff.mp hagain
    obtain ⟨part, ahead, trees, hpart, rfl, rfl, tail⟩ := Derives.token_iff.mp named
    have hpeek := peek_of_parts hdot tail
    obtain ⟨hparts, hrest⟩ := dottedParts_eq tail
    cases ahead with
    | nil => simp [Input.peek, Input.nth] at hpeek
    | cons next ahead =>
      rw [Input.peek_cons] at hpeek
      rw [dottedParts]
      simp [hpoint, hpart, hpeek, hparts, hrest]
termination_by ahead.length

theorem collection_yields {first : Token}
    (h : Derives (production .collection) (first :: ahead) children
      (dot :: name :: opening :: after)) :
    Yields (collection (.front first ahead false)) [.node .collection first.start children]
      (dot :: name :: opening :: after) := by
  obtain ⟨_, _, trees, _, heq, rfl, tail⟩ := Derives.token_iff.mp h
  obtain ⟨rfl, rfl⟩ := List.cons.inj heq
  obtain ⟨hparts, hrest⟩ := dottedParts_eq hdot hopening tail
  exact .underNode (.takenThen fun _ => ⟨hparts, rfl, congrArg (Input.mk · false) hrest⟩)

end Collection

-- The calls of a command, up to what is no point.
theorem calls_yields {ahead : List Token} {trees : List Tree}
    (hrest : Input.peek ⟨rest, false⟩ ≠ .dot) (h : Derives [callsForm] ahead trees rest) :
    Yields (members ⟨ahead, false⟩ false) trees rest := by
  rcases Derives.many_iff.mp h with hstop | hagain
  · obtain ⟨rfl, rfl⟩ := Derives.nil_iff.mp hstop
    have hnone : Taken.first? ⟨ahead, false⟩ (· = .dot) = none := by
      cases ahead with
      | nil => rfl
      | cons token ahead =>
        rw [Taken.first?_cons, if_neg]
        simpa using hrest
    rw [members, hnone]
    exact .nothing
  · obtain ⟨dot, ahead, _, hdot, rfl, rfl, called⟩ := Derives.token_iff.mp hagain
    obtain ⟨call, mid, trees, body, rfl, tail⟩ := Derives.rule_iff.mp called
    obtain ⟨name, ahead, _, hname, rfl, _, _⟩ := Derives.token_iff.mp body
    rw [members, Taken.first?_cons, if_pos (by simpa using hdot)]
    refine .takenThen fun hsize => ?_
    rw [member, Taken.first?_cons, if_pos (by simpa using hname)]
    have hcall := functionCall_yields body
    have hshorter : Input.size ⟨mid, false⟩ < Input.size ⟨name :: ahead, false⟩ :=
      hcall.rest ▸ functionCall_size_lt (.front name ahead false)
    exact hcall.followedBy (members · false) (calls_yields hrest tail)
termination_by Input.size ⟨ahead, false⟩

theorem members_yields (hrest : Input.peek ⟨rest, false⟩ ≠ .dot)
    (h : Derives bodyForm ahead trees rest) : Yields (members ⟨ahead, false⟩ true) trees rest := by
  rcases Derives.optional_iff.mp h with hnone | hsome
  · obtain ⟨dot, ahead, _, hdot, rfl, rfl, tail⟩ := Derives.token_iff.mp hnone
    obtain ⟨call, mid, trees, body, rfl, calls⟩ := Derives.rule_iff.mp tail
    obtain ⟨name, ahead, _, hname, rfl, _, inside⟩ := Derives.token_iff.mp body
    obtain ⟨_, _, _, arguments, _, _⟩ := Derives.rule_iff.mp inside
    -- a bracket behind the name tells a call from a collection
    have hpeek : Input.peek ⟨ahead, false⟩ = .openParen := peek_of_token arguments
    rw [members, Taken.first?_cons, if_pos (by simpa using hdot)]
    refine .takenThen fun _ => ?_
    rw [member, Taken.first?_cons, if_pos (by simpa using hname)]
    dsimp only
    rw [Input.nth_one_cons _ _ _ false, hpeek]
    exact (functionCall_yields body).followedBy (members · false) (calls_yields hrest calls)
  · obtain ⟨dot, ahead, _, hdot, rfl, rfl, tail⟩ := Derives.token_iff.mp hsome
    obtain ⟨parts, mid, trees, body, rfl, called⟩ := Derives.rule_iff.mp tail
    obtain ⟨point, name, opening, after, rfl, hpoint, _, hopening⟩ := tokens_of_call called
    obtain ⟨first, ahead, _, hfirst, rfl, _, inside⟩ := Derives.token_iff.mp body
    have hpeek : Input.peek ⟨ahead, false⟩ = .dot := peek_of_parts hpoint inside
    rw [members, Taken.first?_cons, if_pos (by simpa using hdot)]
    refine .takenThen fun _ => ?_
    rw [member, Taken.first?_cons, if_pos (by simpa using hfirst)]
    dsimp only
    rw [Input.nth_one_cons _ _ _ false, hpeek]
    have hcalls : Yields (members ⟨point :: name :: opening :: after, false⟩ false) trees rest :=
      calls_yields hrest (.again called)
    exact (collection_yields hpoint hopening body).followedBy (members · false) hcalls

theorem any_call (h : Derives bodyForm ahead trees rest) :
    trees.any (·.is .functionCall) := by
  rcases Derives.optional_iff.mp h with hnone | hsome
  · obtain ⟨_, _, _, _, rfl, rfl, tail⟩ := Derives.token_iff.mp hnone
    obtain ⟨_, _, _, _, rfl, _⟩ := Derives.rule_iff.mp tail
    simp [Tree.is, Tree.rule?]
  · obtain ⟨_, _, _, _, rfl, rfl, named⟩ := Derives.token_iff.mp hsome
    obtain ⟨_, _, _, _, rfl, called⟩ := Derives.rule_iff.mp named
    obtain ⟨_, _, _, _, rfl, rfl, tail⟩ := Derives.token_iff.mp called
    obtain ⟨_, _, _, _, rfl, _⟩ := Derives.rule_iff.mp tail
    simp [Tree.is, Tree.rule?]

theorem commandBody_yields (hrest : Input.peek ⟨rest, false⟩ ≠ .dot)
    (h : Derives bodyForm ahead trees rest) : Yields (commandBody ⟨ahead, false⟩) trees rest := by
  have hmembers := members_yields hrest h
  have hcall : (members ⟨ahead, false⟩ true).trees.any (·.is .functionCall) := by
    rw [hmembers.trees]
    exact any_call h
  have hcheck : callCheck (members ⟨ahead, false⟩ true) = .nothing _ := by
    simp [callCheck, hcall]
  rw [commandBody, hcheck]
  refine ⟨?_, ?_, hmembers.rest⟩
  · rw [Parsed.append_trees, hmembers.trees]
    exact List.append_nil trees
  · rw [Parsed.append_reports, hmembers.quiet]
    rfl

theorem optionalSemicolon_nothing (h : Input.peek ⟨rest, false⟩ ≠ .semicolon) :
    Parsed.optional ⟨rest, false⟩ .semicolon = .nothing ⟨rest, false⟩ := by
  cases rest with
  | nil => rfl
  | cons token rest =>
    rw [optional_eq (Taken.next?_cons token rest false), if_neg]
    exact h

-- Without a semicolon of its own a command ends where none follows.
theorem command_yields {db : Token} (hdot : Input.peek ⟨rest, false⟩ ≠ .dot)
    (hsemicolon : Input.peek ⟨rest, false⟩ = .semicolon →
      ∃ token ∈ Tree.tokensOf children, token.kind = .semicolon)
    (h : Derives (production .command) (db :: ahead) children rest) :
    Yields (command (.front db ahead false)) [.node .command db.start children] rest := by
  obtain ⟨_, _, _, hkind, heq, rfl, tail⟩ := Derives.token_iff.mp h
  obtain ⟨rfl, rfl⟩ := List.cons.inj heq
  obtain ⟨body, mid, ending, hbody, hending, rfl⟩ := @Derives.split bodyForm _ _ _ _ tail
  refine .underNode (.takenThen fun _ => ?_)
  rcases Derives.optional_iff.mp hending with hnone | hsome
  · obtain ⟨rfl, rfl⟩ := Derives.nil_iff.mp hnone
    have hread := commandBody_yields hdot hbody
    have hinner := (commandBody_inner ⟨ahead, false⟩).tokens
    rw [hread.trees] at hinner
    -- a semicolon that follows would have to stand inside the body
    have hnext : Input.peek ⟨mid, false⟩ ≠ .semicolon := by
      intro hpeek
      obtain ⟨token, htoken, hown⟩ := hsemicolon hpeek
      rw [List.append_nil] at htoken
      rcases List.mem_cons.mp htoken with rfl | hinside
      · rw [hkind] at hown
        contradiction
      · exact (hinner token hinside).1 hown
    refine hread.andThen fun _ => ?_
    rw [optionalSemicolon_nothing hnext]
    exact .nothing
  · obtain ⟨semicolon, after, _, hsemi, rfl, rfl, hdone⟩ := Derives.token_iff.mp hsome
    obtain ⟨rfl, rfl⟩ := Derives.nil_iff.mp hdone
    have hread := commandBody_yields (by simp [hsemi]) hbody
    have htaken : Parsed.optional ⟨semicolon :: after, false⟩ .semicolon =
        (Taken.front semicolon after false).parsed :=
      (optional_eq (Taken.next?_cons semicolon after false) _).trans (if_pos hsemi)
    refine hread.andThen fun _ => ?_
    rw [htaken]
    exact .taken

-- Of the two ways to read a semicolon behind a command, the one that leaves
-- it to the command.
def TakesSemicolon (first second : Tree) : Prop :=
  first.is .command → second.is .emptyCommand → ∃ token ∈ first.tokens, token.kind = .semicolon

-- One of the commands of a pad, single semicolons among them.
inductive DerivesItem : List Token → Tree → List Token → Prop where
  | command {db : Token} {ahead rest : List Token} {children : List Tree} (hdb : db.kind = .db)
      (body : Derives (production .command) (db :: ahead) children rest) :
      DerivesItem (db :: ahead) (.node .command db.start children) rest
  | emptyCommand {semicolon : Token} {rest : List Token} (hkind : semicolon.kind = .semicolon) :
      DerivesItem (semicolon :: rest) (.node .emptyCommand semicolon.start [.terminal semicolon])
        rest

theorem commands_iff :
    Derives (production .commands) ahead trees rest ↔ trees = [] ∧ ahead = rest ∨
      ∃ tree trees' mid, trees = tree :: trees' ∧ DerivesItem ahead tree mid ∧
        Derives (production .commands) mid trees' rest := by
  constructor
  · intro h
    rcases Derives.many_iff.mp h with hstop | hagain
    · exact .inl (Derives.nil_iff.mp hstop)
    · obtain ⟨symbol, hsymbol, chosen⟩ := Derives.anyOf_iff.mp hagain
      simp only [List.mem_cons, List.not_mem_nil, or_false] at hsymbol
      rcases hsymbol with rfl | rfl
      · obtain ⟨children, mid, trees, body, rfl, tail⟩ := Derives.rule_iff.mp chosen
        obtain ⟨db, _, _, hdb, rfl, _, _⟩ := Derives.token_iff.mp body
        exact .inr ⟨_, trees, mid, rfl, .command hdb body, tail⟩
      · obtain ⟨children, mid, trees, body, rfl, tail⟩ := Derives.rule_iff.mp chosen
        obtain ⟨semicolon, _, _, hkind, rfl, rfl, hdone⟩ := Derives.token_iff.mp body
        obtain ⟨rfl, rfl⟩ := Derives.nil_iff.mp hdone
        exact .inr ⟨_, trees, _, rfl, .emptyCommand hkind, tail⟩
  · rintro (⟨rfl, rfl⟩ | ⟨tree, trees, mid, rfl, item, tail⟩)
    · exact .stop (.done _)
    · refine .again ?_
      cases item with
      | command _ body => exact .anyOf (by simp) (.rule body tail)
      | emptyCommand hkind => exact .anyOf (by simp) (.rule (.token hkind (.done _)) tail)

-- Behind a command stands none of its members.
theorem peek_of_commands (hrest : Input.peek ⟨rest, false⟩ = .endOfText)
    (h : Derives (production .commands) ahead trees rest) : Input.peek ⟨ahead, false⟩ ≠ .dot := by
  rcases commands_iff.mp h with ⟨rfl, rfl⟩ | ⟨_, _, _, rfl, item, _⟩
  · simp [hrest]
  · cases item with
    | command hdb => simp [hdb]
    | emptyCommand hkind => simp [hkind]

theorem commandItem_yields {tree : Tree} {token : Token}
    (hrest : Input.peek ⟨rest, false⟩ = .endOfText)
    (htaken : (tree :: trees).IsChain TakesSemicolon) (item : DerivesItem (token :: ahead) tree mid)
    (tail : Derives (production .commands) mid trees rest) :
    Yields (commandItem (.front token ahead false)) [tree] mid := by
  have hfront : (Taken.front token ahead false).token.kind = token.kind := rfl
  cases item with
  | command hdb body =>
    rw [commandItem, hfront, hdb]
    refine command_yields (peek_of_commands hrest tail) (fun hpeek => ?_) body
    rcases commands_iff.mp tail with ⟨rfl, rfl⟩ | ⟨next, _, _, rfl, item, _⟩
    · rw [hrest] at hpeek
      contradiction
    · cases item with
      | command hdb =>
        rw [Input.peek_cons, hdb] at hpeek
        contradiction
      | emptyCommand => exact htaken.rel (by rfl) (by rfl)
  | emptyCommand hkind =>
    rw [commandItem, hfront, hkind]
    exact Yields.taken.underNode

theorem commandList_yields {ahead : List Token} {trees : List Tree}
    (hrest : Input.peek ⟨rest, false⟩ = .endOfText)
    (htaken : trees.IsChain TakesSemicolon) (h : Derives (production .commands) ahead trees rest) :
    Yields (commandList ⟨ahead, false⟩) trees rest := by
  rcases commands_iff.mp h with ⟨rfl, rfl⟩ | ⟨tree, trees, mid, rfl, item, tail⟩
  · rw [commandList_of_end hrest]
    exact .nothing
  · obtain ⟨token, ahead, hend, rfl⟩ : ∃ token ahead', token.kind ≠ .endOfText ∧
        ahead = token :: ahead' := by
      cases item with
      | command hdb => exact ⟨_, _, by simp [hdb], rfl⟩
      | emptyCommand hkind => exact ⟨_, _, by simp [hkind], rfl⟩
    have hitem := commandItem_yields hrest htaken item tail
    have hshorter : Input.size ⟨mid, false⟩ < Input.size ⟨token :: ahead, false⟩ :=
      hitem.rest ▸ commandItem_size_lt (.front token ahead false)
    rw [commandList_of_next (Taken.next?_cons token ahead false) hend]
    exact hitem.followedBy commandList (commandList_yields hrest htaken.tail tail)
termination_by Input.size ⟨ahead, false⟩

-- A command can take the semicolon right after it.
theorem command_with_semicolon {semicolon : Token} (hkind : semicolon.kind = .semicolon)
    (hown : ∀ token ∈ Tree.tokensOf children, token.kind ≠ .semicolon)
    (h : Derives (production .command) ahead children (semicolon :: rest)) :
    Derives (production .command) ahead (children ++ [.terminal semicolon]) rest := by
  obtain ⟨front, mid, ending, hfront, hending, rfl⟩ :=
    @Derives.split (.token .db :: bodyForm) _ _ _ _ h
  rcases Derives.optional_iff.mp hending with hnone | hsome
  · obtain ⟨rfl, rfl⟩ := Derives.nil_iff.mp hnone
    rw [List.append_nil]
    exact hfront.append (.present (.token hkind (.done rest)))
  · obtain ⟨other, _, _, hother, rfl, rfl, _⟩ := Derives.token_iff.mp hsome
    refine absurd hother (hown other ?_)
    simp [Tree.tokensOf, Tree.tokens]

-- A single semicolon behind a command becomes the command's own.
theorem exists_merged {tree next : Tree} (item : DerivesItem ahead tree mid)
    (tail : Derives (production .commands) mid (next :: trees) rest)
    (hnext : ¬ TakesSemicolon tree next) :
    ∃ tree' mid', DerivesItem ahead tree' mid' ∧ Derives (production .commands) mid' trees rest ∧
      ∃ token ∈ tree'.tokens, token.kind = .semicolon := by
  simp only [TakesSemicolon, not_forall, not_exists, not_and] at hnext
  obtain ⟨hcommand, hempty, hown⟩ := hnext
  rcases commands_iff.mp tail with ⟨hnil, _⟩ | ⟨_, _, after, heq, item', tail'⟩
  · contradiction
  · obtain ⟨rfl, rfl⟩ := List.cons.inj heq
    cases item with
    | emptyCommand => simp [Tree.is, Tree.rule?] at hcommand
    | @command db _ _ children hdb body =>
      cases item' with
      | command => simp [Tree.is, Tree.rule?] at hempty
      | @emptyCommand semicolon _ hkind =>
        have body' := command_with_semicolon hkind hown body
        refine ⟨_, after, .command hdb body', tail', semicolon, ?_, hkind⟩
        simp [Tree.tokens, Tree.tokensOf]

-- Every pad can be derived so that no command leaves its semicolon.
theorem exists_takesSemicolon (h : Derives (production .commands) ahead trees rest) :
    ∃ trees', Derives (production .commands) ahead trees' rest ∧
      trees'.IsChain TakesSemicolon := by
  induction trees generalizing ahead with
  | nil => exact ⟨[], h, .nil⟩
  | cons tree trees ih =>
    rcases commands_iff.mp h with ⟨hnil, _⟩ | ⟨_, _, mid, heq, item, tail⟩
    · contradiction
    · obtain ⟨rfl, rfl⟩ := List.cons.inj heq
      obtain ⟨trees', tail, htaken⟩ := ih tail
      cases trees' with
      | nil => exact ⟨[tree], commands_iff.mpr (.inr ⟨_, _, _, rfl, item, tail⟩), .singleton tree⟩
      | cons next trees' =>
        by_cases hnext : TakesSemicolon tree next
        · exact ⟨tree :: next :: trees', commands_iff.mpr (.inr ⟨_, _, _, rfl, item, tail⟩),
            .cons_cons hnext htaken⟩
        · obtain ⟨tree', mid', item', tail', hown⟩ := exists_merged item tail hnext
          exact ⟨tree' :: trees', commands_iff.mpr (.inr ⟨_, _, _, rfl, item', tail'⟩),
            List.isChain_cons.mpr ⟨fun _ _ _ _ => hown, htaken.tail⟩⟩

theorem Derives.tokens {form : List Symbol} (h : Derives form ahead trees rest) :
    Tree.tokensOf trees ++ rest = ahead := by
  induction h with
  | done => rfl
  | token _ _ ih => simp [Tree.tokensOf, Tree.tokens, ih]
  | rule _ _ body ih => rw [Tree.tokensOf, Tree.tokens, List.append_assoc, ih, body]
  | anyOf _ _ ih | absent _ ih | present _ ih | stop _ ih | again _ ih => exact ih

theorem Derives.errors {form : List Symbol} (h : Derives form ahead trees rest) :
    Tree.errorsOf trees = [] := by
  induction h with
  | done => rfl
  | token _ _ ih => simp [Tree.errorsOf, Tree.errors, ih]
  | rule _ _ body ih => simp [Tree.errorsOf, Tree.errors, body, ih]
  | anyOf _ _ ih | absent _ ih | present _ ih | stop _ ih | again _ ih => exact ih

section Pads

variable {tokens : List Token} {finish : Token} {tree : Tree} {commands : List Tree}

-- A pad is derived by way of its commands.
theorem pad_iff (hfinish : finish.kind = .endOfText) :
    Derives [.rule .mongoCommands] (tokens ++ [finish]) [tree] [] ↔
      ∃ commands, tree = padTree (tokens ++ [finish]) commands finish ∧
        Derives (production .commands) (tokens ++ [finish]) commands [finish] := by
  constructor
  · intro h
    obtain ⟨_, _, _, body, heq, hdone⟩ := Derives.rule_iff.mp h
    obtain ⟨rfl, rfl⟩ := Derives.nil_iff.mp hdone
    obtain ⟨rfl, _⟩ := List.cons.inj heq
    obtain ⟨commands, _, _, inside, rfl, tail⟩ := Derives.rule_iff.mp body
    obtain ⟨last, _, _, _, rfl, rfl, hdone⟩ := Derives.token_iff.mp tail
    obtain ⟨rfl, rfl⟩ := Derives.nil_iff.mp hdone
    have hlast : [last] = [finish] := List.append_inj_right' inside.tokens rfl
    obtain ⟨rfl, _⟩ := List.cons.inj hlast
    exact ⟨commands, rfl, inside⟩
  · rintro ⟨commands, rfl, inside⟩
    exact .rule (.rule inside (.token hfinish (.done []))) (.done [])

-- The derivation trees in which no command leaves the semicolon behind it.
def SemicolonsTaken (tree : Tree) : Prop :=
  (tree.children.flatMap Tree.children).IsChain TakesSemicolon

theorem semicolonsTaken_padTree :
    SemicolonsTaken (padTree tokens commands finish) ↔ commands.IsChain TakesSemicolon := by
  simp [SemicolonsTaken, padTree, Tree.children]

theorem exists_semicolonsTaken (hfinish : finish.kind = .endOfText)
    (h : Derives [.rule .mongoCommands] (tokens ++ [finish]) [tree] []) :
    ∃ tree', Derives [.rule .mongoCommands] (tokens ++ [finish]) [tree'] [] ∧
      SemicolonsTaken tree' := by
  obtain ⟨commands, rfl, inside⟩ := (pad_iff hfinish).mp h
  obtain ⟨commands', inside', htaken⟩ := exists_takesSemicolon inside
  exact ⟨_, (pad_iff hfinish).mpr ⟨commands', rfl, inside'⟩, semicolonsTaken_padTree.mpr htaken⟩

variable (htokens : ∀ token ∈ tokens, token.kind ≠ .endOfText) (hfinish : finish.kind = .endOfText)

include htokens hfinish

theorem derives_of_quiet (hquiet : (parseTokens (tokens ++ [finish])).reports = []) :
    Derives [.rule .mongoCommands] (tokens ++ [finish])
      [(parseTokens (tokens ++ [finish])).tree] [] := by
  rw [parseTokens_eq htokens hfinish] at hquiet ⊢
  obtain ⟨derived, _⟩ := commandList_follows ⟨tokens ++ [finish], false⟩ rfl hquiet
  rw [(commandList_consumes htokens hfinish false).2] at derived
  exact (pad_iff hfinish).mpr ⟨_, rfl, derived⟩

theorem parseTokens_of_derives (htaken : SemicolonsTaken tree)
    (h : Derives [.rule .mongoCommands] (tokens ++ [finish]) [tree] []) :
    parseTokens (tokens ++ [finish]) = ⟨tree, []⟩ := by
  obtain ⟨commands, rfl, inside⟩ := (pad_iff hfinish).mp h
  have hread : Yields (commandList ⟨tokens ++ [finish], false⟩) commands [finish] :=
    commandList_yields hfinish (semicolonsTaken_padTree.mp htaken) inside
  rw [parseTokens_eq htokens hfinish, hread.trees, hread.quiet]

-- Nothing is reported exactly of what the grammar derives, and the tree is
-- then the one derivation tree in which commands take their semicolons.
theorem parseTokens_accepts :
    ((parseTokens (tokens ++ [finish])).reports = [] ↔
      ∃ tree, Derives [.rule .mongoCommands] (tokens ++ [finish]) [tree] []) ∧
    ((parseTokens (tokens ++ [finish])).reports = [] →
      (parseTokens (tokens ++ [finish])).tree.errors = [] ∧
      Derives [.rule .mongoCommands] (tokens ++ [finish])
        [(parseTokens (tokens ++ [finish])).tree] [] ∧
      SemicolonsTaken (parseTokens (tokens ++ [finish])).tree ∧
      ∀ tree, Derives [.rule .mongoCommands] (tokens ++ [finish]) [tree] [] →
        SemicolonsTaken tree → tree = (parseTokens (tokens ++ [finish])).tree) := by
  refine ⟨⟨fun hquiet => ⟨_, derives_of_quiet htokens hfinish hquiet⟩, ?_⟩, fun hquiet => ?_⟩
  · rintro ⟨tree, derived⟩
    obtain ⟨tree', derived', htaken⟩ := exists_semicolonsTaken hfinish derived
    rw [parseTokens_of_derives htokens hfinish htaken derived']
  · have derived := derives_of_quiet htokens hfinish hquiet
    refine ⟨?_, derived, ?_, fun tree derived' htaken => ?_⟩
    · simpa [Tree.errorsOf] using derived.errors
    · obtain ⟨tree', derived', htaken⟩ := exists_semicolonsTaken hfinish derived
      rwa [parseTokens_of_derives htokens hfinish htaken derived']
    · rw [parseTokens_of_derives htokens hfinish htaken derived']

end Pads

def closedCall : List Token :=
  [⟨.db, 0, ['d', 'b']⟩, ⟨.dot, 2, ['.']⟩, ⟨.identifier, 3, ['f']⟩, ⟨.openParen, 4, ['(']⟩,
    ⟨.closeParen, 5, [')']⟩, ⟨.semicolon, 6, [';']⟩]

theorem closedCall_derives :
    ∃ tree, Derives [.rule .mongoCommands] (closedCall ++ [.atEnd 7]) [tree] [] := by
  have harguments : ∀ rest, Derives (production .arguments)
      (⟨.openParen, 4, ['(']⟩ :: ⟨.closeParen, 5, [')']⟩ :: rest) _ rest :=
    fun rest => .token rfl (.absent (.token rfl (.done rest)))
  have hcommand : Derives (production .command) (closedCall ++ [.atEnd 7]) _ [.atEnd 7] :=
    .token rfl (.absent (.token rfl (.rule (.token rfl (.rule (harguments _) (.done _)))
      (.stop (.present (.token rfl (.done _)))))))
  exact ⟨_, .rule (.rule (.again (.anyOf (by simp) (.rule hcommand (.stop (.done _)))))
    (.token rfl (.done []))) (.done [])⟩

theorem parseTokens_closedCall :
    (parseTokens (closedCall ++ [.atEnd 7])).reports = [] ∧
      (parseTokens (closedCall ++ [.atEnd 7])).tree.errors = [] := by
  obtain ⟨haccepts, htree⟩ := @parseTokens_accepts closedCall (.atEnd 7) (by decide) rfl
  have hquiet := haccepts.mpr closedCall_derives
  exact ⟨hquiet, (htree hquiet).1⟩

end Syntax

end QueryPad
