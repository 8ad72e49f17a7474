import Mathlib
import QueryPad.Proofs.Command.Rereading
import QueryPad.Proofs.Json.Layout
import QueryPad.Proofs.Json.Storing

-- Plain JSON as the argument of a call: it is read as the value that it is.
namespace QueryPad

open Text

namespace Json

open Syntax

-- Wherever its words stand, they are a tree that means the value.
def IsRead (json : Json) : Prop :=
  ∀ tokens, tokens.map Token.word = json.words → ∀ rest, ∃ tree,
    Derives [Symbol.value] (tokens ++ rest) [tree] rest ∧ tree.isLeaf = false ∧
      ∀ occasion, tree.convert occasion = .of json.merged

section Reading

variable {json : Json} {items : List Json} {fields : List (String × Json)} {tokens : List Token}

-- The tokens of some words in brackets, cut at the brackets.
theorem exists_enclosed {first last : TokenKind × List Char} {words : List (TokenKind × List Char)}
    (htokens : tokens.map Token.word = first :: (words ++ [last])) :
    ∃ opening inside closing, tokens = opening :: (inside ++ [closing]) ∧
      opening.word = first ∧ inside.map Token.word = words ∧ closing.word = last := by
  obtain ⟨opening, tokens, rfl, hopening, htokens⟩ := List.map_eq_cons_iff.mp htokens
  obtain ⟨inside, last, rfl, hinside, hlast⟩ := List.map_eq_append_iff.mp htokens
  obtain ⟨closing, rfl, hclosing⟩ := List.map_eq_singleton_iff.mp hlast
  exact ⟨opening, inside, closing, rfl, hopening, hinside, hclosing⟩

theorem isRead_literal {kind : TokenKind} {chars : List Char} (hkind : kind.isLiteral)
    (hwords : json.words = [(kind, chars)])
    (hmeans : ∀ whole token, token.kind = kind → token.chars = chars →
      Literal.ofToken whole token = .ok json.merged) : json.IsRead := by
  intro tokens htokens rest
  rw [hwords] at htokens
  obtain ⟨token, rfl, htoken⟩ := List.map_eq_singleton_iff.mp htokens
  obtain ⟨rfl, rfl⟩ := Prod.mk.inj htoken
  have hbody : Derives (production .literal) (token :: rest) [.terminal token] rest := by
    refine .anyOf ?_ (.token rfl (.done rest))
    revert hkind
    cases token.kind <;> simp [TokenKind.isLiteral]
  refine ⟨_, .anyOf (by simp) (.rule hbody (.done rest)), rfl, fun occasion => ?_⟩
  rw [Tree.convert, Literal.ofLeaf, hmeans _ token rfl rfl]
  rfl

theorem isRead_null : IsRead null := by
  refine isRead_literal rfl rfl fun whole token hkind _ => ?_
  rw [Literal.ofToken, hkind]
  rfl

theorem isRead_bool (value : Bool) : IsRead (bool value) := by
  refine isRead_literal rfl rfl fun whole token hkind hchars => ?_
  rw [Literal.ofToken, hkind, hchars]
  cases value <;> rfl

theorem isRead_number {value : JsonNumber} (h : value.reread? = some value) :
    IsRead (number value) := by
  refine isRead_literal rfl rfl fun whole token hkind hchars => ?_
  rw [Literal.ofToken, hkind]
  dsimp only
  rw [hchars, ← JsonNumber.reread?, h]
  rfl

theorem unquote_stringChars (text : String) : Literal.unquote (stringChars text) = text.toList := by
  rw [stringChars, Literal.unquote]
  simp [Literal.isQuote]

theorem isRead_string (text : String) : IsRead (string text) := by
  refine isRead_literal rfl rfl fun whole token hkind hchars => ?_
  rw [Literal.ofToken, hkind]
  dsimp only
  rw [hchars, unquote_stringChars, String.ofList_toList]
  rfl

theorem convertFirst_singleton {tree : Tree} (h : tree.isLeaf = false) (occasion : Occasion) :
    Tree.convertFirst occasion [tree] = tree.convert occasion := by
  cases tree with
  | node => rfl
  | _ => contradiction

theorem IsRead.propertyValue (h : json.IsRead) (htokens : tokens.map Token.word = json.words)
    (rest : List Token) : ∃ start children,
      Derives [.rule .propertyValue] (tokens ++ rest) [.node .propertyValue start children] rest ∧
        ∀ occasion, Tree.convertFirst occasion children = .of json.merged := by
  obtain ⟨tree, derived, hnode, hmeans⟩ := h tokens htokens rest
  refine ⟨_, [tree], .rule derived (.done rest), fun occasion => ?_⟩
  rw [convertFirst_singleton hnode, hmeans]

section Array

theorem exists_elementsBehind (h : ∀ item ∈ items, item.IsRead)
    (htokens : tokens.map Token.word = wordsBehindItem items) (rest : List Token) :
    ∃ trees, Derives [.many [.token .comma, .rule .propertyValue]] (tokens ++ rest) trees rest ∧
      ∀ occasion, Tree.convertElements occasion trees = (mergedItems items, []) := by
  induction items generalizing tokens with
  | nil =>
    obtain rfl := List.map_eq_nil_iff.mp htokens
    exact ⟨[], .stop (.done rest), fun _ => rfl⟩
  | cons item items ih =>
    obtain ⟨hitem, hitems⟩ := List.forall_mem_cons.mp h
    obtain ⟨comma, tokens, rfl, hcomma, htokens⟩ := List.map_eq_cons_iff.mp htokens
    obtain ⟨front, back, rfl, hfront, hback⟩ := List.map_eq_append_iff.mp htokens
    obtain ⟨start, children, derived, hmeans⟩ := hitem.propertyValue hfront (back ++ rest)
    obtain ⟨trees, tail, hmore⟩ := ih hitems hback
    rw [List.cons_append, List.append_assoc]
    refine ⟨_, .again (.token (Prod.mk.inj hcomma).1 (derived.append tail)), fun occasion => ?_⟩
    simp only [List.singleton_append, Tree.convertElements, hmeans, hmore, mergedItems]
    rfl

theorem exists_elementList (h : ∀ item ∈ items, item.IsRead)
    (htokens : tokens.map Token.word = wordsOfItems items) (rest : List Token) :
    ∃ trees, Derives [.optional [.rule .elementList]] (tokens ++ rest) trees rest ∧
      ∀ occasion closing, Tree.convertElementLists occasion (trees ++ [.terminal closing]) =
        (mergedItems items, []) := by
  cases items with
  | nil =>
    obtain rfl := List.map_eq_nil_iff.mp htokens
    exact ⟨[], .absent (.done rest), fun _ _ => rfl⟩
  | cons item items =>
    obtain ⟨hitem, hitems⟩ := List.forall_mem_cons.mp h
    obtain ⟨front, back, rfl, hfront, hback⟩ := List.map_eq_append_iff.mp htokens
    obtain ⟨start, children, derived, hmeans⟩ := hitem.propertyValue hfront (back ++ rest)
    obtain ⟨trees, tail, hmore⟩ := exists_elementsBehind hitems hback rest
    rw [List.append_assoc]
    refine ⟨_, .present (.rule (derived.append tail) (.done rest)), fun occasion closing => ?_⟩
    simp only [List.singleton_append, List.append_nil, Tree.convertElementLists,
      Tree.convertElements, hmeans, hmore, mergedItems]
    rfl

theorem isRead_array (h : ∀ item ∈ items, item.IsRead) : IsRead (array items) := by
  intro tokens htokens rest
  obtain ⟨opening, inside, closing, rfl, hopening, hinside, hclosing⟩ := exists_enclosed htokens
  obtain ⟨trees, derived, hmeans⟩ := exists_elementList h hinside (closing :: rest)
  have hclose : Derives [.optional [.token .comma], .token .closeBracket] (closing :: rest)
      [.terminal closing] rest := .absent (.token (Prod.mk.inj hclosing).1 (.done rest))
  have hbody : Derives (production .arrayLiteral) (opening :: (inside ++ (closing :: rest)))
      (.terminal opening :: (trees ++ [.terminal closing])) rest :=
    .token (Prod.mk.inj hopening).1 (derived.append hclose)
  rw [List.cons_append, List.append_assoc, List.singleton_append]
  refine ⟨_, .anyOf (by simp) (.rule hbody (.done rest)), rfl, fun occasion => ?_⟩
  rw [Tree.convert, Tree.convertElementLists, hmeans]
  · rfl
  · exact fun _ _ heq => Tree.noConfusion heq

end Array

section Object

theorem IsRead.propertyAssignment (h : json.IsRead) {key : String}
    (htokens : tokens.map Token.word =
      (.string, stringChars key) :: (.colon, [':']) :: json.words) (rest : List Token) :
    ∃ start parts, Derives [.rule .propertyAssignment] (tokens ++ rest)
        [.node .propertyAssignment start parts] rest ∧
      ∀ occasion trees,
        Tree.convertAssignments occasion (.node .propertyAssignment start parts :: trees) =
          ((key, json.merged) :: (Tree.convertAssignments occasion trees).1,
            (Tree.convertAssignments occasion trees).2) := by
  obtain ⟨name, tokens, rfl, hname, htokens⟩ := List.map_eq_cons_iff.mp htokens
  obtain ⟨colon, tokens, rfl, hcolon, htokens⟩ := List.map_eq_cons_iff.mp htokens
  obtain ⟨hkind, hchars⟩ := Prod.mk.inj hname
  obtain ⟨start, children, derived, hmeans⟩ := h.propertyValue htokens rest
  have hnamed : Derives (production .propertyName) (name :: colon :: (tokens ++ rest))
      [.terminal name] (colon :: (tokens ++ rest)) := .anyOf (by simp) (.token hkind (.done _))
  have hbody : Derives (production .propertyAssignment) (name :: colon :: (tokens ++ rest))
      [.node .propertyName name.start [.terminal name], .terminal colon,
        .node .propertyValue start children] rest :=
    .rule hnamed (.token (Prod.mk.inj hcolon).1 derived)
  refine ⟨_, _, .rule hbody (.done rest), fun occasion trees => ?_⟩
  have hkey : Tree.chars (.node .propertyName name.start [.terminal name]) = stringChars key := by
    simp [Tree.chars, Tree.tokens, Tree.tokensOf, hchars]
  simp [Tree.convertAssignments, Tree.is, Tree.rule?, Tree.convertValueOf, hmeans, hkey,
    unquote_stringChars, Conversion.of]

theorem exists_assignmentsBehind (h : ∀ field ∈ fields, field.2.IsRead)
    (htokens : tokens.map Token.word = wordsBehindField fields) (rest : List Token) :
    ∃ trees,
      Derives [.many [.token .comma, .rule .propertyAssignment]] (tokens ++ rest) trees rest ∧
        ∀ occasion, Tree.convertAssignments occasion trees = (mergedFields fields, []) := by
  induction fields generalizing tokens with
  | nil =>
    obtain rfl := List.map_eq_nil_iff.mp htokens
    exact ⟨[], .stop (.done rest), fun _ => rfl⟩
  | cons field fields ih =>
    obtain ⟨hfield, hfields⟩ := List.forall_mem_cons.mp h
    obtain ⟨comma, tokens, rfl, hcomma, htokens⟩ := List.map_eq_cons_iff.mp htokens
    rw [← List.cons_append, ← List.cons_append] at htokens
    obtain ⟨front, back, rfl, hfront, hback⟩ := List.map_eq_append_iff.mp htokens
    obtain ⟨start, parts, derived, hmeans⟩ := hfield.propertyAssignment hfront (back ++ rest)
    obtain ⟨trees, tail, hmore⟩ := ih hfields hback
    rw [List.cons_append, List.append_assoc]
    refine ⟨_, .again (.token (Prod.mk.inj hcomma).1 (derived.append tail)), fun occasion => ?_⟩
    rw [Tree.convertAssignments, List.singleton_append, hmeans, hmore]
    · rfl
    · exact fun _ _ heq => Tree.noConfusion heq

theorem exists_assignmentList (h : ∀ field ∈ fields, field.2.IsRead)
    (htokens : tokens.map Token.word = wordsOfFields fields) (rest : List Token) :
    ∃ trees,
      Derives [.optional [.rule .propertyNameAndValueList]] (tokens ++ rest) trees rest ∧
        ∀ occasion closing, Tree.convertLists occasion (trees ++ [.terminal closing]) =
          (mergedFields fields, []) := by
  cases fields with
  | nil =>
    obtain rfl := List.map_eq_nil_iff.mp htokens
    exact ⟨[], .absent (.done rest), fun _ _ => rfl⟩
  | cons field fields =>
    obtain ⟨hfield, hfields⟩ := List.forall_mem_cons.mp h
    rw [wordsOfFields, ← List.cons_append, ← List.cons_append] at htokens
    obtain ⟨front, back, rfl, hfront, hback⟩ := List.map_eq_append_iff.mp htokens
    obtain ⟨start, parts, derived, hmeans⟩ := hfield.propertyAssignment hfront (back ++ rest)
    obtain ⟨trees, tail, hmore⟩ := exists_assignmentsBehind hfields hback rest
    rw [List.append_assoc]
    refine ⟨_, .present (.rule (derived.append tail) (.done rest)), fun occasion closing => ?_⟩
    simp only [List.singleton_append, List.append_nil, Tree.convertLists, hmeans, hmore,
      mergedFields]

theorem isRead_object (h : ∀ field ∈ fields, field.2.IsRead) : IsRead (object fields) := by
  intro tokens htokens rest
  obtain ⟨opening, inside, closing, rfl, hopening, hinside, hclosing⟩ := exists_enclosed htokens
  obtain ⟨trees, derived, hmeans⟩ := exists_assignmentList h hinside (closing :: rest)
  have hclose : Derives [.optional [.token .comma], .token .closeBrace] (closing :: rest)
      [.terminal closing] rest := .absent (.token (Prod.mk.inj hclosing).1 (.done rest))
  have hbody : Derives (production .objectLiteral) (opening :: (inside ++ (closing :: rest)))
      (.terminal opening :: (trees ++ [.terminal closing])) rest :=
    .token (Prod.mk.inj hopening).1 (derived.append hclose)
  rw [List.cons_append, List.append_assoc, List.singleton_append]
  refine ⟨_, .anyOf (by simp) (.rule hbody (.done rest)), rfl, fun occasion => ?_⟩
  rw [Tree.convert, Tree.convertLists, hmeans]
  · rfl
  · exact fun _ _ heq => Tree.noConfusion heq

end Object

end Reading

theorem IsPlain.isRead {json : Json} (h : json.IsPlain) : json.IsRead := by
  induction h with
  | null => exact isRead_null
  | bool value => exact isRead_bool value
  | integer low high => exact isRead_number (reread?_of_bounds low high)
  | string _ => exact isRead_string _
  | array _ ih => exact isRead_array ih
  | object _ _ ih => exact isRead_object ih

section Call

-- The words of a call with the value as its argument.
def callWords (json : Json) (collection name : String) : List (TokenKind × List Char) :=
  (.db, "db".toList) :: (.dot, ['.']) :: (.identifier, collection.toList) :: (.dot, ['.']) ::
    (.identifier, name.toList) :: (.openParen, ['(']) :: (json.words ++ [(.closeParen, [')'])])

variable {json : Json} {collection name : String}

theorem LaidOut.call {text : String} (h : LaidOut json.words text.toList) :
    LaidOut (json.callWords collection name)
      ("db." ++ collection ++ "." ++ name ++ "(" ++ text ++ ")").toList := by
  have hclosed : LaidOut (json.words ++ [(.closeParen, [')'])]) (text.toList ++ [')']) :=
    h.append (.word .done)
  have hcall : LaidOut (json.callWords collection name) ("db".toList ++ (['.'] ++
      (collection.toList ++ (['.'] ++ (name.toList ++ (['('] ++ (text.toList ++ [')']))))))) :=
    .word (.word (.word (.word (.word (.word hclosed)))))
  simpa using hcall

theorem IsPlain.isWord_call (h : json.IsPlain) (hcollection : IsIdentifier collection)
    (hname : IsIdentifier name) :
    ∀ word ∈ json.callWords collection name, IsWord word.1 word.2 := by
  simp only [callWords, List.forall_mem_cons, List.forall_mem_append]
  exact ⟨isWord_db, isWord_mark rfl, hcollection.isWord, isWord_mark rfl, hname.isWord,
    isWord_mark rfl, h.isWord, isWord_mark rfl, List.forall_mem_nil _⟩

-- Wherever the words of the call stand, they are a command with the one argument.
theorem IsRead.exists_command (h : json.IsRead) {tokens : List Token}
    (htokens : tokens.map Token.word = json.callWords collection name) (rest : List Token) :
    ∃ command argument, Derives [.rule .command] (tokens ++ rest) [command] rest ∧
      (command.childOf? .collection).map Tree.text = some collection ∧
      (∃ call, command.calls = [call] ∧ call.calledName = name ∧ call.argumentsOf = [argument]) ∧
      ∀ occasion, argument.convert occasion = .of json.merged := by
  obtain ⟨db, tokens, rfl, hdb, htokens⟩ := List.map_eq_cons_iff.mp htokens
  obtain ⟨dot, tokens, rfl, hdot, htokens⟩ := List.map_eq_cons_iff.mp htokens
  obtain ⟨place, tokens, rfl, hplace, htokens⟩ := List.map_eq_cons_iff.mp htokens
  obtain ⟨point, tokens, rfl, hpoint, htokens⟩ := List.map_eq_cons_iff.mp htokens
  obtain ⟨called, tokens, rfl, hcalled, htokens⟩ := List.map_eq_cons_iff.mp htokens
  obtain ⟨opening, inside, closing, rfl, hopening, hinside, hclosing⟩ := exists_enclosed htokens
  simp only [Token.word, Prod.mk.injEq] at hdb hdot hplace hpoint hcalled hopening hclosing
  obtain ⟨tree, derived, hnode, hmeans⟩ := h inside hinside (closing :: rest)
  have harguments : Derives (production .arguments) (opening :: (inside ++ (closing :: rest)))
      [.terminal opening, .node .argument (startOf (inside ++ (closing :: rest))) [tree],
        .terminal closing] rest :=
    .token hopening.1 (.present (.rule derived (.stop (.token hclosing.1 (.done rest)))))
  have hcall : Derives (production .functionCall)
      (called :: opening :: (inside ++ (closing :: rest))) _ rest :=
    .token hcalled.1 (.rule harguments (.done rest))
  have hcollection : ∀ behind, Derives (production .collection) (place :: behind)
      [.terminal place] behind := fun behind => .token hplace.1 (.stop (.done behind))
  have hcommand : Derives (production .command) _ _ rest :=
    .token hdb.1 (.present (.token hdot.1 (.rule (hcollection _) (.token hpoint.1
      (.rule hcall (.stop (.absent (.done rest))))))))
  simp only [List.cons_append, List.append_assoc, List.nil_append]
  refine ⟨_, _, .rule hcommand (.done rest), ?_, ⟨_, rfl, ?_, rfl⟩, fun occasion => ?_⟩
  · simp [Tree.childOf?, Tree.children, Tree.is, Tree.rule?, Tree.text, Tree.chars, Tree.tokens,
      Tree.tokensOf, hplace.2]
  · simp [Tree.calledName, Tree.children, Tree.text, Tree.chars, Tree.tokens, hcalled.2]
  · rw [Tree.convert, convertFirst_singleton hnode, hmeans]

-- The grammar lets the words of the call stand one right behind the other.
theorem IsRead.apart_call (h : json.IsRead) :
    (json.callWords collection name).IsChain fun before after => before.1.apart after.1 := by
  have htokens : ((json.callWords collection name).map fun word =>
      Token.mk word.1 0 word.2).map Token.word = json.callWords collection name := by
    rw [List.map_map]
    exact List.map_id _
  obtain ⟨command, _, derived, _⟩ := h.exists_command htokens [.atEnd 0]
  have hapart := (pad_of_command rfl derived).apart.left_of_append
  exact (List.isChain_map _).mp hapart

end Call

theorem IsPlain.ofTree_argument {json : Json} (h : json.IsPlain)
    (hdepth : json.depth ≤ JsonReader.levels) {occasion : Occasion} {tree : Tree}
    (hmeans : tree.convert occasion = .of json.merged) :
    Argument.ofTree occasion tree = (⟨json.merged.compact, json.image⟩, []) := by
  have hmerged := h.merged
  have hread : ofText json.merged.render = .ok json.merged := by
    have hreread := hmerged.reread? ((depth_merged_le json).trans hdepth)
    rw [merged_merged] at hreread
    exact ofText_render_eq hreread
  have hstored : Bson.ofExtendedText
      (.ofList (Regex.halveEscapes json.merged.render.toList)) = .ok json.image := by
    rw [halveEscapes_render, thinned_eq_self hmerged.sparesEscapes, String.ofList_toList,
      Bson.ofExtendedText, hread]
    exact h.ofJson_merged
  rw [Argument.ofTree, hmeans]
  dsimp only [Conversion.of]
  rw [hstored, hmerged.render_eq]

end Json

namespace Pad

open Json Syntax

-- Plain JSON is accepted as it is: the command has the value as its one argument,
-- in the text without blanks and in what is stored with every key once.
theorem commands_plainJson {collection name : String} (hcollection : IsIdentifier collection)
    (hname : IsIdentifier name) {json : Json} (hplain : json.IsPlain) (hdepth : json.depth ≤ 127)
    {text : String} (hlayout : LaidOut json.words text.toList) (occasion : Occasion) :
    ∃ command,
      (ofText ("db." ++ collection ++ "." ++ name ++ "(" ++ text ++ ")")).commands occasion =
        [command] ∧
      command.errors = [] ∧ command.collection = some collection ∧ command.name = name ∧
      command.arguments = [⟨json.merged.compact, json.image⟩] ∧ command.chained = false := by
  generalize hpad : "db." ++ collection ++ "." ++ name ++ "(" ++ text ++ ")" = pad
  have hspells : Spells (json.callWords collection name) pad.toList := by
    exact hpad ▸ hlayout.call.spells (hplain.isWord_call hcollection hname) hplain.isRead.apart_call
  obtain ⟨hwords, hlexed⟩ := hspells.lex
  obtain ⟨node, argument, derived, hplace, ⟨call, hcalls, hcalled, hargument⟩, hmeans⟩ :=
    hplain.isRead.exists_command hwords [.atEnd (lex pad.toList).stop]
  obtain ⟨hparse, hnodes⟩ := nodesOf_of_derives derived
  have hcommands := commands_of_quiet hlexed hparse occasion
  rw [hnodes] at hcommands
  have hread := hplain.ofTree_argument hdepth (hmeans occasion)
  refine ⟨_, hcommands, ?_⟩
  simp [Command.ofTree, hcalls, hcalled, hargument, hread, hplace, hname.isEmpty_eq]

-- The key that is there twice takes its last value.
theorem commands_plainJson_repeatedKey :
    ∃ command, (ofText "db.c.find(\x7b \"n\": 1,\n\"n\" : true\x7d)").commands ⟨⟨0, 0⟩, ⟨0⟩⟩ =
        [command] ∧
      command.errors = [] ∧ command.collection = some "c" ∧ command.name = "find" ∧
      command.arguments = [⟨"\x7b\"n\":true\x7d", .object [("n", .bool true)]⟩] ∧
      command.chained = false := by
  have hcollection : IsIdentifier "c" :=
    ⟨⟨'c', [], rfl, by decide, by simp⟩, by decide⟩
  have hname : IsIdentifier "find" :=
    ⟨⟨'f', ['i', 'n', 'd'], rfl, by decide, List.all_eq_true.mp (by decide)⟩, by decide⟩
  have hkey : IsPlainText "n" := List.all_eq_true.mp (by decide)
  have hplain : IsPlain (.object [("n", .int 1), ("n", .bool true)]) := by
    refine .object (by simp [hkey, markerKeys]) ?_
    simpa using ⟨IsPlain.integer (by decide) (by decide), IsPlain.bool true⟩
  have hlayout : LaidOut (object [("n", .int 1), ("n", .bool true)]).words
      "\x7b \"n\": 1,\n\"n\" : true\x7d".toList := by
    have htext : "\x7b \"n\": 1,\n\"n\" : true\x7d".toList =
        ['{'] ++ ' ' :: (stringChars "n" ++ ([':'] ++ ' ' ::
          ((JsonNumber.integer 1).render.toList ++ ([','] ++ '\n' :: (stringChars "n" ++ ' ' ::
            ([':'] ++ ' ' :: ("true".toList ++ (['}'] ++ []))))))))  := by decide +kernel
    rw [htext]
    have hblank : ' ' ∈ [' ', '\t', '\n', '\r'] := by simp
    exact .word (.blank hblank (.word (.word (.blank hblank (.word (.word (.blank (by simp)
      (.word (.blank hblank (.word (.blank hblank (.word (.word .done)))))))))))))
  have hcommands := commands_plainJson hcollection hname hplain (by decide) hlayout ⟨⟨0, 0⟩, ⟨0⟩⟩
  have hpad : "db." ++ "c" ++ "." ++ "find" ++ "(" ++ "\x7b \"n\": 1,\n\"n\" : true\x7d" ++ ")" =
      "db.c.find(\x7b \"n\": 1,\n\"n\" : true\x7d)" := by decide +kernel
  have hcompact : (object [("n", .int 1), ("n", .bool true)]).merged.compact =
      "\x7b\"n\":true\x7d" := by decide +kernel
  rwa [hpad, hcompact] at hcommands

end Pad

end QueryPad
