import QueryPad.Proofs.Syntax.Lossless
import QueryPad.Proofs.Syntax.Places

-- The word for a database begins a command wherever it stands, but for the
-- places where an object asks for the name of a property.
namespace QueryPad

namespace Place

-- Objects ask for a name behind their brace, and behind a comma that parts two
-- properties.
def asksName (place : Place) : Bool :=
  place.matched && (place.token.kind = .openBrace && place.rule = .objectLiteral ||
    place.token.kind = .comma && place.rule = .propertyNameAndValueList)

theorem asksName_of_rule {place : Place} (hobject : place.rule ≠ .objectLiteral)
    (hlist : place.rule ≠ .propertyNameAndValueList) : place.asksName = false := by
  simp [asksName, hobject, hlist]

-- The word begins a command, or names a property if a name is due.
def Fits (due : Bool) (place : Place) : Prop :=
  place.token.kind = .db →
    place.matched ∧ place.index = 0 ∧ place.rule = if due then .propertyName else .command

def AllFit : Bool → List Place → Prop
  | _, [] => True
  | due, place :: places => place.Fits due ∧ AllFit place.asksName places

-- Whether a name is due behind these leaves.
def dueAfter : Bool → List Place → Bool
  | due, [] => due
  | _, place :: places => dueAfter place.asksName places

section AllFit

variable {due : Bool} {place : Place} {places more : List Place}

@[simp] theorem dueAfter_append :
    dueAfter due (places ++ more) = dueAfter (dueAfter due places) more := by
  induction places generalizing due with
  | nil => rfl
  | cons place places ih => exact ih

theorem allFit_append :
    AllFit due (places ++ more) ↔ AllFit due places ∧ AllFit (dueAfter due places) more := by
  induction places generalizing due with
  | nil => simp [AllFit, dueAfter]
  | cons place places ih => simp [AllFit, dueAfter, ih, and_assoc]

theorem AllFit.fits {number : Nat} (h : AllFit due places) (hplace : places[number]? = some place) :
    place.Fits (dueAfter due (places.take number)) := by
  induction places generalizing due number with
  | nil => simp at hplace
  | cons first places ih =>
    cases number with
    | zero =>
      obtain rfl := Option.some.inj hplace
      exact h.1
    | succ number => exact ih h.2 hplace

theorem dueAfter_take_succ {number : Nat} (hplace : places[number]? = some place) :
    dueAfter due (places.take (number + 1)) = place.asksName := by
  rw [List.take_add_one, hplace, dueAfter_append]
  rfl

end AllFit

end Place

namespace Syntax

open Place

variable {inp : Input}

-- The leaves of a reading fit. Whether a name is due counts only where the
-- word for a database comes next.
def Orderly (before after : Bool) (rule : Rule) (parsed : Parsed inp) : Prop :=
  ∀ index due, (inp.peek = .db → due = before) →
    AllFit due (Tree.placesOf rule index parsed.trees) ∧
      (parsed.rest.peek = .db → dueAfter due (Tree.placesOf rule index parsed.trees) = after)

namespace Orderly

variable {rule : Rule} {before between after : Bool}

theorem append {parsed : Parsed inp} {next : Parsed parsed.rest}
    (head : Orderly before between rule parsed) (tail : Orderly between after rule next) :
    Orderly before after rule (parsed.append next) := by
  intro index due hdue
  obtain ⟨hfit, hbetween⟩ := head index due hdue
  obtain ⟨hmore, hafter⟩ := tail (index + parsed.trees.length) _ hbetween
  rw [Parsed.append_trees, Tree.placesOf_append, allFit_append, dueAfter_append]
  exact ⟨⟨hfit, hmore⟩, hafter⟩

theorem underNode {inner : Rule} {parsed : Parsed inp} (body : Orderly before after inner parsed) :
    Orderly before after rule (parsed.underNode inner) := by
  intro index due hdue
  rw [Parsed.underNode_trees, Tree.placesOf, Tree.placesOf, List.append_nil, Tree.placesIn]
  exact body 0 due hdue

-- Any token but the word itself may be matched.
theorem token (rule : Rule) {taken : Taken inp} (h : Taken.next? inp = some taken)
    (hkind : taken.token.kind ≠ .db) (index : Nat) :
    Orderly false (asksName ⟨taken.token, true, rule, index⟩) rule taken.parsed := by
  intro index due _
  have htrees : taken.parsed.trees = [.terminal taken.token] := by
    simp [Taken.parsed, Taken.andThen, Parsed.nothing, Taken.tree_eq h]
  rw [htrees]
  exact ⟨⟨fun hdb => absurd hdb hkind, trivial⟩, fun _ => rfl⟩

theorem errors {tokens : List Token} (h : ∀ token ∈ tokens, token.kind ≠ .db) (index : Nat)
    (due : Bool) :
    AllFit due (Tree.placesOf rule index (tokens.map .error)) ∧
      (tokens ≠ [] → dueAfter due (Tree.placesOf rule index (tokens.map .error)) = false) := by
  induction tokens generalizing index due with
  | nil => exact ⟨trivial, fun hne => absurd rfl hne⟩
  | cons token tokens ih =>
    obtain ⟨hfit, hdue⟩ := ih (fun t ht => h t (by simp [ht])) (index + 1) false
    refine ⟨⟨fun hdb => absurd hdb (h token (by simp)), hfit⟩, fun _ => ?_⟩
    rw [List.map_cons, Tree.placesOf, Tree.placesIn, List.singleton_append, dueAfter]
    cases tokens with
    | nil => rfl
    | cons next tokens => exact hdue (by simp)

theorem skipUntil {stops : TokenKind → Bool} (h : stops .db) :
    Orderly false false rule (Parsed.skipUntil inp stops) := by
  intro index due hdue
  have hskipped : ∀ token ∈ inp.ahead.takeWhile fun token =>
      !(token.kind = .endOfText || stops token.kind), token.kind ≠ .db := by
    intro token htoken hdb
    simpa [hdb, h] using List.mem_takeWhile_imp htoken
  obtain ⟨hfit, hfalse⟩ := errors hskipped index due
  refine ⟨hfit, fun hpeek => ?_⟩
  by_cases hnone : inp.ahead.takeWhile
      (fun token => !(token.kind = .endOfText || stops token.kind)) = []
  · -- nothing is skipped, and the word is still to come
    have hrest : (Parsed.skipUntil inp stops).rest = inp := by
      have hjoin := (Parsed.skipUntil inp stops).lossless
      simp only [Parsed.skipUntil, hnone, List.map_nil, Tree.tokensOf, List.nil_append] at hjoin ⊢
      rw [hjoin]
    have hsame : (Parsed.skipUntil inp stops).trees = [] := congrArg (List.map Tree.error) hnone
    rw [hrest] at hpeek
    rw [hsame]
    exact hdue hpeek
  · exact hfalse hnone

end Orderly

theorem orderly : Scheme fun before after rule _ parsed => Orderly before after rule parsed where
  nothing _ _ _ _ hdue := ⟨trivial, hdue⟩
  noName := by
    intro rule inp hnone index due _
    refine ⟨trivial, fun hpeek => absurd ?_ hnone⟩
    have hdb : inp.peek = .db := hpeek
    simp [Input.isAtAny, hdb, nameStart]
  report _ _ _ _ _ hdue := ⟨trivial, hdue⟩
  append := .append
  underNode _ _ _ body := body.underNode
  valueNode _ _ _ _ _ body := body.underNode
  token := by
    intro rule inp taken h hplain
    have hkind : taken.token.kind ≠ .db := by
      intro hkind
      simp [hkind, isPlain] at hplain
    have htoken := Orderly.token rule h hkind 0
    have hasks : asksName ⟨taken.token, true, rule, 0⟩ = false := by
      cases hkind : taken.token.kind <;> simp_all [asksName, isPlain]
    rwa [hasks] at htoken
  brace := by
    intro inp taken h hkind
    have htoken := Orderly.token .objectLiteral h (by simp [hkind]) 0
    simpa [asksName, hkind] using htoken
  comma := by
    intro inp taken h hkind
    have htoken := Orderly.token .propertyNameAndValueList h (by simp [hkind]) 0
    simpa [asksName, hkind] using htoken
  name := by
    intro inp taken h _ index due hdue
    have htrees : (taken.underNode .propertyName).parsed.trees =
        [.node .propertyName inp.current.start [.terminal taken.token]] := by
      rw [Taken.parsed_underNode, ← Taken.tree_eq h]
      rfl
    have hasks : asksName ⟨taken.token, true, .propertyName, 0⟩ = false :=
      asksName_of_rule (by simp) (by simp)
    rw [htrees]
    refine ⟨⟨fun hdb => ?_, trivial⟩, fun _ => hasks⟩
    have hdb : taken.token.kind = .db := hdb
    exact ⟨rfl, rfl, by rw [hdue (Taken.peek_eq h ▸ hdb)]; rfl⟩
  skip _ _ kinds := .skipUntil (by simp [sync])

theorem command_orderly {db : Taken inp} (h : Taken.next? inp = some db) :
    Orderly false false .commands (command db) := by
  have hbody : Orderly false false .command
      ((commandBody db.rest).append (.optional (commandBody db.rest).rest .semicolon)) := by
    refine .append (orderly.commandBody_holds _) ?_
    rw [Parsed.optional]
    split
    · next semicolon hsemicolon =>
      obtain ⟨hnext, hkind⟩ := Taken.first?_eq_some_iff.mp hsemicolon
      have hkind : semicolon.token.kind = .semicolon := of_decide_eq_true hkind
      have htoken := Orderly.token .command hnext (by simp [hkind]) 0
      simpa [asksName, hkind] using htoken
    · exact orderly.nothing _ _
  intro index due hdue
  have htrees : (command db).trees = [.node .command inp.current.start (.terminal db.token ::
      ((commandBody db.rest).append
        (.optional (commandBody db.rest).rest .semicolon)).trees)] := command_trees h
  -- behind the word that begins the command no name is due
  have hasks : asksName ⟨db.token, true, .command, 0⟩ = false :=
    asksName_of_rule (by simp) (by simp)
  obtain ⟨hfit, hafter⟩ := hbody 1 _ fun _ => hasks
  rw [htrees]
  simp only [Tree.placesOf, Tree.placesIn, List.append_nil, List.singleton_append]
  refine ⟨⟨fun hdb => ?_, hfit⟩, hafter⟩
  have hdb : db.token.kind = .db := hdb
  exact ⟨rfl, rfl, by rw [hdue (Taken.peek_eq h ▸ hdb)]; rfl⟩

theorem noCommand_orderly {token : Taken inp} (hkind : token.token.kind ≠ .db) :
    Orderly false false .commands (noCommand token) := by
  intro index due _
  have hskipped := @Orderly.skipUntil token.spoiled.rest .commands commandStart.contains rfl
    (index + 1) false fun _ => rfl
  exact ⟨⟨fun hdb => absurd hdb hkind, hskipped.1⟩, hskipped.2⟩

theorem commandItem_orderly {token : Taken inp} (h : Taken.next? inp = some token) :
    Orderly false false .commands (commandItem token) := by
  rw [commandItem]
  split
  · exact command_orderly h
  · next hkind =>
    have htoken := Orderly.token .emptyCommand h (by simp [hkind]) 0
    exact .underNode (by simpa [asksName, hkind] using htoken)
  · next hdb _ => exact noCommand_orderly hdb

theorem commandList_orderly (inp : Input) : Orderly false false .commands (commandList inp) := by
  fun_induction commandList inp with
  | case1 | case2 => exact orderly.nothing _ _
  | case3 inp token h hend ih => exact (commandItem_orderly h).append ih

-- Behind the brace of an object, or behind a comma between its properties.
def NameAskedAt (tokens : List Token) (rows : List Row) (number : Nat) : Prop :=
  ∃ before index token, number = before + 1 ∧ tokens[before]? = some token ∧
    (token.kind = .openBrace ∧ StandsUnder rows .objectLiteral index before ∨
      token.kind = .comma ∧ StandsUnder rows .propertyNameAndValueList index before)

section Table

variable {tokens : List Token} {finish db : Token} {number : Nat}

theorem exists_places (htokens : ∀ token ∈ tokens, token.kind ≠ .endOfText)
    (hfinish : finish.kind = .endOfText) :
    ∃ start children,
      (parseTokens (tokens ++ [finish])).tree = .node .mongoCommands start children ∧
      Tree.tokensOf children = tokens ++ [finish] ∧
      AllFit false (Tree.placesOf .mongoCommands 0 children) := by
  have hread := tokens_parseTokens htokens hfinish
  rw [parseTokens_eq htokens hfinish] at hread ⊢
  refine ⟨_, _, rfl, hread, ?_⟩
  obtain ⟨hfit, _⟩ := commandList_orderly ⟨tokens ++ [finish], false⟩ 0 false fun _ => rfl
  simp only [Tree.placesOf, Tree.placesIn, List.append_nil]
  exact allFit_append.mpr ⟨hfit, fun hdb => by simp [hfinish] at hdb, trivial⟩

theorem nameAskedAt_iff {start : Nat} {children : List Tree} {rule : Rule} {place : Place}
    (htoken : tokens[number]? = some place.token)
    (hplace : (Tree.placesOf rule 0 children)[number]? = some place) :
    NameAskedAt tokens (Tree.node rule start children).table (number + 1) ↔ place.asksName := by
  simp only [asksName, Bool.and_eq_true, Bool.or_eq_true, decide_eq_true_eq]
  constructor
  · rintro ⟨before, index, token, hnumber, hbefore, hstands⟩
    obtain rfl : number = before := Nat.succ.inj hnumber
    obtain rfl : place.token = token := Option.some.inj (htoken.symm.trans hbefore)
    rcases hstands with ⟨hkind, hstands⟩ | ⟨hkind, hstands⟩
    · obtain ⟨hmatched, hrule⟩ := Tree.place_of_standsUnder hplace hstands
      exact ⟨hmatched, .inl ⟨hkind, hrule⟩⟩
    · obtain ⟨hmatched, hrule⟩ := Tree.place_of_standsUnder hplace hstands
      exact ⟨hmatched, .inr ⟨hkind, hrule⟩⟩
  · rintro ⟨hmatched, hasks⟩
    have hstands := Tree.standsUnder_of_place start hplace hmatched
    refine ⟨number, place.index, place.token, rfl, htoken, ?_⟩
    rcases hasks with ⟨hkind, hrule⟩ | ⟨hkind, hrule⟩
    · exact .inl ⟨hkind, hrule ▸ hstands⟩
    · exact .inr ⟨hkind, hrule ▸ hstands⟩

-- The word for a database is the first child of a command. Only where an object
-- asks for a name it is the name of a property instead.
theorem parseTokens_db (htokens : ∀ token ∈ tokens, token.kind ≠ .endOfText)
    (hfinish : finish.kind = .endOfText) (hdb : tokens[number]? = some db) (hkind : db.kind = .db) :
    (¬ NameAskedAt tokens (parseTokens (tokens ++ [finish])).tree.table number →
        StandsUnder (parseTokens (tokens ++ [finish])).tree.table .command 0 number) ∧
      (NameAskedAt tokens (parseTokens (tokens ++ [finish])).tree.table number →
        StandsUnder (parseTokens (tokens ++ [finish])).tree.table .propertyName 0 number) := by
  obtain ⟨start, children, htree, hread, hfit⟩ := exists_places htokens hfinish
  have hnumber := (List.getElem?_eq_some_iff.mp hdb).1
  have htoken : ∀ number < tokens.length, ∃ place,
      (Tree.placesOf .mongoCommands 0 children)[number]? = some place ∧
        tokens[number]? = some place.token := by
    intro number hnumber
    have hall : ((Tree.placesOf .mongoCommands 0 children).map Place.token)[number]? =
        tokens[number]? := by
      rw [Tree.placesOf_tokens, hread, List.getElem?_append_left hnumber]
    rw [List.getElem?_map, List.getElem?_eq_getElem hnumber] at hall
    obtain ⟨place, hplace, hsame⟩ := Option.map_eq_some_iff.mp hall
    exact ⟨place, hplace, by rw [hsame, List.getElem?_eq_getElem hnumber]⟩
  obtain ⟨place, hplace, hsame⟩ := htoken number hnumber
  obtain rfl : db = place.token := Option.some.inj (hdb.symm.trans hsame)
  obtain ⟨hmatched, hindex, hrule⟩ := hfit.fits hplace hkind
  have hstands := Tree.standsUnder_of_place start hplace hmatched
  rw [hindex, hrule] at hstands
  rw [htree]
  cases number with
  | zero => exact ⟨fun _ => hstands, fun ⟨_, _, _, hzero, _⟩ => absurd hzero (by simp)⟩
  | succ before =>
    obtain ⟨previous, hprevious, htokenBefore⟩ := htoken before (by omega)
    rw [dueAfter_take_succ hprevious] at hstands
    rw [nameAskedAt_iff htokenBefore hprevious]
    cases hasks : previous.asksName <;> simp [hasks] at hstands ⊢ <;> exact hstands

end Table

-- A command that breaks off inside an object, and the next one behind it.
def openObject : List Token :=
  [⟨.db, 0, ['d', 'b']⟩, ⟨.dot, 2, ['.']⟩, ⟨.identifier, 3, ['f']⟩, ⟨.openParen, 4, ['(']⟩,
    ⟨.openBrace, 5, ['\x7b']⟩, ⟨.db, 7, ['d', 'b']⟩, ⟨.dot, 9, ['.']⟩]

theorem openObject_asksName :
    NameAskedAt openObject (parseTokens (openObject ++ [.atEnd 10])).tree.table 5 :=
  ⟨4, 0, ⟨.openBrace, 5, ['\x7b']⟩, rfl, rfl, .inl ⟨rfl, by decide +kernel⟩⟩

theorem parseTokens_openObject :
    (∀ token ∈ openObject, token.kind ≠ .endOfText) ∧
      StandsUnder (parseTokens (openObject ++ [.atEnd 10])).tree.table .command 0 0 ∧
      StandsUnder (parseTokens (openObject ++ [.atEnd 10])).tree.table .propertyName 0 5 := by
  have hkinds : ∀ token ∈ openObject, token.kind ≠ .endOfText := by decide
  have hfirst := @parseTokens_db openObject (.atEnd 10) ⟨.db, 0, ['d', 'b']⟩ 0 hkinds rfl rfl rfl
  have hsecond := @parseTokens_db openObject (.atEnd 10) ⟨.db, 7, ['d', 'b']⟩ 5 hkinds rfl rfl rfl
  refine ⟨hkinds, hfirst.1 ?_, hsecond.2 openObject_asksName⟩
  rintro ⟨before, index, token, hnumber, _⟩
  omega

-- Not even a point behind the word keeps an open object from taking it.
theorem openObject_takes_command :
    ¬ ∀ (tokens : List Token) (finish db dot : Token) (number : Nat),
      (∀ token ∈ tokens, token.kind ≠ .endOfText) → finish.kind = .endOfText →
        tokens[number]? = some db → db.kind = .db → tokens[number + 1]? = some dot →
          dot.kind = .dot →
            StandsUnder (parseTokens (tokens ++ [finish])).tree.table .command 0 number := by
  intro hall
  have htaken :
      ¬ StandsUnder (parseTokens (openObject ++ [.atEnd 10])).tree.table .command 0 5 := by
    decide +kernel
  exact htaken (hall openObject (.atEnd 10) ⟨.db, 7, ['d', 'b']⟩ ⟨.dot, 9, ['.']⟩ 5
    (by decide) rfl rfl rfl rfl rfl)

end Syntax

end QueryPad
