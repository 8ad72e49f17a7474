import QueryPad.Proofs.Syntax.Lossless
import QueryPad.Proofs.Syntax.Resumption
import QueryPad.Proofs.Syntax.Steps
import QueryPad.Proofs.Token.Continuation

-- A command that ends with the name being typed, or with the point before it:
-- what is read of it in front of whatever begins another command.
namespace QueryPad.Syntax

-- Points and names in turn.
inductive AreDotted : List Token → Prop where
  | nil : AreDotted []
  | cons {dot part : Token} {tokens : List Token} (hdot : dot.kind = .dot)
      (hpart : part.kind = .identifier) (tail : AreDotted tokens) :
      AreDotted (dot :: part :: tokens)

-- A point, the name behind it if there is one, and no more of the command.
structure IsOpen (point : Token) (name : Option Token) (later : List Token) : Prop where
  point : point.kind = .dot
  name : ∀ token ∈ name, token.kind = .identifier
  later : commandStart.contains (Input.peek ⟨later, false⟩)

variable {db dot part point : Token} {name : Option Token} {tokens later rest : List Token}
  {recovering first : Bool}

theorem IsOpen.not_peek (h : IsOpen point name later) (kind : TokenKind)
    (hkind : commandStart.contains kind = false) (recovering : Bool) :
    Input.peek ⟨later, recovering⟩ ≠ kind := by
  intro heq
  have hlater : commandStart.contains (Input.peek ⟨later, recovering⟩) := h.later
  rw [heq, hkind] at hlater
  contradiction

theorem dottedParts_of_peek (h : Input.peek ⟨tokens, false⟩ ≠ .dot) :
    dottedParts tokens = ([], tokens) := by
  fun_cases dottedParts tokens with
  | case1 dot part after rest hkinds =>
    simp only [Bool.and_eq_true, decide_eq_true_eq] at hkinds
    exact absurd hkinds.1.1 h
  | _ => rfl

theorem AreDotted.dottedParts_eq (h : AreDotted tokens) (hopen : IsOpen point name later) :
    dottedParts (tokens ++ point :: (name.toList ++ later)) =
      (tokens, point :: (name.toList ++ later)) := by
  have hdot := hopen.not_peek .dot rfl false
  have hidentifier := hopen.not_peek .identifier rfl false
  induction h with
  | nil =>
    cases name with
    | none =>
      rcases later with _ | ⟨a, _ | ⟨b, later⟩⟩
      · simp [dottedParts]
      · simp [dottedParts]
      · rw [Input.peek_cons] at hidentifier
        simp [dottedParts, hidentifier]
    | some token =>
      cases later with
      | nil => simp [dottedParts]
      | cons a later =>
        rw [Input.peek_cons] at hdot
        simp [dottedParts, hdot]
  | @cons dot part tokens hkind hpart tail ih =>
    obtain ⟨after, behind, hbehind, hafter⟩ : ∃ after behind,
        tokens ++ point :: (name.toList ++ later) = after :: behind ∧ after.kind = .dot := by
      cases tail with
      | nil => exact ⟨point, _, rfl, hopen.point⟩
      | cons hnext => exact ⟨_, _, rfl, hnext⟩
    rw [hbehind] at ih
    rw [List.cons_append, List.cons_append, hbehind, dottedParts, ih]
    simp [hkind, hpart, hafter]

theorem members_point (hpoint : point.kind = .dot) :
    (members ⟨point :: rest, recovering⟩ first).trees =
      .terminal point :: (member ⟨rest, false⟩ first).trees := by
  rw [members]
  simp [hpoint, Taken.andThen, Taken.front]

theorem members_none (hopen : IsOpen point name later) :
    (members ⟨later, recovering⟩ first).trees = [] := by
  have hdot : Taken.first? ⟨later, recovering⟩ (· = .dot) = none :=
    Taken.first?_eq_none (decide_eq_false (hopen.not_peek .dot rfl recovering))
  have hidentifier : Input.isAt ⟨later, recovering⟩ .identifier = false :=
    decide_eq_false (hopen.not_peek .identifier rfl recovering)
  rw [members, hdot]
  dsimp only
  rw [hidentifier, Bool.and_false, if_neg Bool.false_ne_true]
  rfl

theorem member_none (hopen : IsOpen point name later) :
    (member ⟨later, recovering⟩ first).trees = [] := by
  have hidentifier : Taken.first? ⟨later, recovering⟩ (· = .identifier) = none :=
    Taken.first?_eq_none (decide_eq_false (hopen.not_peek .identifier rfl recovering))
  rw [member, hidentifier]
  rfl

-- A first name that is not called is the collection, with all that is dotted to it.
theorem member_collection (hpart : part.kind = .identifier)
    (hnext : Input.peek ⟨rest, false⟩ ≠ .openParen) :
    (member ⟨part :: rest, recovering⟩ true).trees =
      .node .collection part.start (.terminal part :: (dottedParts rest).1.map .terminal) ::
        (members ⟨(dottedParts rest).2, false⟩ false).trees := by
  have hfirst : Taken.first? ⟨part :: rest, recovering⟩ (· = .identifier) =
      some (.front part rest recovering) := by simp [hpart]
  have hnth : (Input.nth ⟨part :: rest, recovering⟩ 1) ≠ .openParen := by
    rwa [Input.nth_one_cons part rest recovering false]
  rw [member, hfirst]
  dsimp only
  rw [if_pos (by simp [hnth])]
  rfl

-- A later name is called, though its arguments may be missing.
theorem member_functionCall (hpart : part.kind = .identifier) (hopen : IsOpen point name later) :
    (member ⟨part :: later, recovering⟩ false).trees =
      [.node .functionCall part.start
        [.terminal part, .node .arguments (startOf later) []]] := by
  have hfirst : Taken.first? ⟨part :: later, recovering⟩ (· = .identifier) =
      some (.front part later recovering) := by simp [hpart]
  have hparen : Taken.first? ⟨later, false⟩ (· = .openParen) = none :=
    Taken.first?_eq_none (decide_eq_false (hopen.not_peek .openParen rfl false))
  have hcall : (functionCall (.front part later recovering)).trees =
        [.node .functionCall part.start
          [.terminal part, .node .arguments (startOf later) []]] ∧
      (functionCall (.front part later recovering)).rest = ⟨later, true⟩ := by
    simp [functionCall, Taken.andThen, Taken.front, arguments, hparen, Parsed.report,
      Parsed.underNode, startOf, Input.current]
  rw [member, hfirst]
  dsimp only
  rw [if_neg (by simp), Parsed.append_trees, hcall.1, hcall.2, members_none hopen]
  rfl

-- What a name is read as right behind the word for the database.
theorem members_open_first (hopen : IsOpen point name later) :
    (members ⟨point :: (name.toList ++ later), recovering⟩ true).trees =
      .terminal point ::
        name.toList.map fun token => .node .collection token.start [.terminal token] := by
  rw [members_point hopen.point]
  cases name with
  | none =>
    have hnone := @member_none point none later false true hopen
    simpa using hnone
  | some token =>
    have hpart := hopen.name token rfl
    have hcollection := @member_collection token later false hpart
      (hopen.not_peek .openParen rfl false)
    rw [dottedParts_of_peek (hopen.not_peek .dot rfl false), members_none hopen] at hcollection
    simpa using hcollection

-- What it is read as behind a collection.
theorem members_open (hopen : IsOpen point name later) :
    (members ⟨point :: (name.toList ++ later), recovering⟩ false).trees =
      .terminal point ::
        name.toList.map fun token => .node .functionCall token.start
          [.terminal token, .node .arguments (startOf later) []] := by
  rw [members_point hopen.point]
  cases name with
  | none =>
    have hnone := @member_none point none later false false hopen
    simpa using hnone
  | some token =>
    have hcall := @member_functionCall token point (some token) later false
      (hopen.name token rfl) hopen
    simpa using hcall

theorem members_dotted (hdot : dot.kind = .dot) (hpart : part.kind = .identifier)
    (hdotted : AreDotted tokens) (hopen : IsOpen point name later) :
    (members ⟨dot :: part :: (tokens ++ point :: (name.toList ++ later)), recovering⟩ true).trees =
      .terminal dot :: .node .collection part.start (.terminal part :: tokens.map .terminal) ::
        .terminal point :: name.toList.map fun token => .node .functionCall token.start
          [.terminal token, .node .arguments (startOf later) []] := by
  have hnext : Input.peek ⟨tokens ++ point :: (name.toList ++ later), false⟩ ≠ .openParen := by
    cases hdotted with
    | nil => simp [hopen.point]
    | cons hdot => simp [hdot]
  rw [members_point hdot, member_collection hpart hnext, hdotted.dottedParts_eq hopen,
    members_open hopen]

-- The members of a command are in its tree, with a semicolon behind them at most.
theorem exists_command (hdb : db.kind = .db) (rest : List Token) :
    ∃ closing more, (commandList ⟨db :: rest, recovering⟩).trees =
      .node .command db.start
        (.terminal db :: ((members ⟨rest, false⟩ true).trees ++ closing)) :: more := by
  have hend : db.kind ≠ .endOfText := by simp [hdb]
  have hlist := @commandList_of_next ⟨db :: rest, recovering⟩ (.front db rest recovering) rfl hend
  have hitem : commandItem (.front db rest recovering) = command (.front db rest recovering) := by
    simp [commandItem, Taken.front, hdb]
  have hcheck : (callCheck (members ⟨rest, false⟩ true)).trees = [] := by
    rw [callCheck]
    split <;> rfl
  have hcommand : (command (.front db rest recovering)).trees =
      [.node .command db.start (.terminal db ::
        ((members ⟨rest, false⟩ true).trees ++ (callCheck (members ⟨rest, false⟩ true)).trees ++
          (Parsed.optional (commandBody ⟨rest, false⟩).rest .semicolon).trees))] := rfl
  rw [hcheck, List.append_nil] at hcommand
  rw [hlist, hitem, Parsed.append_trees, hcommand]
  exact ⟨_, _, rfl⟩

-- What the members do not take stands behind them.
theorem exists_command_of_members {typed : List Token} {finish : Token} (hdb : db.kind = .db)
    (hkinds : ∀ token ∈ db :: (typed ++ later), token.kind ≠ .endOfText)
    (hfinish : finish.kind = .endOfText)
    (hmembers : Tree.tokensOf (members ⟨typed ++ (later ++ [finish]), false⟩ true).trees = typed) :
    ∃ closing more, (commandList ⟨db :: (typed ++ (later ++ [finish])), recovering⟩).trees =
        .node .command db.start (.terminal db ::
          ((members ⟨typed ++ (later ++ [finish]), false⟩ true).trees ++ closing)) :: more ∧
      Tree.tokensOf closing ++ Tree.tokensOf more = later := by
  obtain ⟨closing, more, htrees⟩ :=
    @exists_command db recovering hdb (typed ++ (later ++ [finish]))
  have hread := (@commandList_consumes _ [] _ hkinds hfinish recovering).1
  rw [List.cons_append, List.append_assoc, htrees] at hread
  simp only [Tree.tokensOf, Tree.tokens, Tree.tokensOf_append, hmembers, List.append_assoc,
    List.cons_append, List.nil_append, List.cons.injEq, true_and, List.append_cancel_left_eq]
    at hread
  exact ⟨closing, more, htrees, hread⟩

end QueryPad.Syntax

-- The tokens of a text in which a name is being typed behind a point, whatever
-- stands before the command and whatever command follows.
namespace QueryPad

open Text

-- The tokens of a command that is being typed: its points and names, the last
-- point, and the name behind it from one offset to another.
structure IsTyped (dots : List Token) (point : Token) (name : Option Token) (later : List Token)
    (start stop : Nat) : Prop where
  dotted : Syntax.AreDotted dots
  isOpen : ∀ finish, Syntax.IsOpen point name (later ++ [.atEnd finish])
  point_stop : point.stop = start
  name_span : ∀ token ∈ name, token.start = start ∧ token.stop = stop
  start_eq : name = none → start = stop
  stop_le : ∀ token ∈ later, stop ≤ token.start

section Text

-- An empty text, or a line end and behind it what begins another command.
def BeginsCommand (text : List Char) : Prop :=
  text = [] ∨ ∃ c rest, text = c :: rest ∧ isLineTerminator c ∧
    ∃ first, (lex rest).tokens.head? = some first ∧ (first.kind = .db ∨ first.kind = .semicolon)

variable {text : List Char}

theorem BeginsCommand.head? (h : BeginsCommand text) : ∀ c ∈ text.head?, isLineTerminator c := by
  rcases h with rfl | ⟨c, rest, rfl, hline, _⟩
  · simp
  · intro d hd
    obtain rfl := Option.some.inj hd
    exact hline

theorem BeginsCommand.ends (h : BeginsCommand text) (kind : TokenKind) : kind.Ends text := by
  intro c hc
  simp [kind.takes_of_isBlank (isBlank_of_isLineTerminator (h.head? c hc))]

-- Wherever it stands, its first token begins a command.
theorem BeginsCommand.peek (h : BeginsCommand text) (start finish : Nat) :
    Syntax.commandStart.contains
      (Syntax.Input.peek ⟨tokensFrom start text ++ [.atEnd finish], false⟩) := by
  rcases h with rfl | ⟨c, rest, rfl, hline, first, hfirst, hkind⟩
  · rw [tokensFrom_nil]
    rfl
  · have hwords := tokensFrom_words 0 (start + c.utf8Size) rest
    have hhead := congrArg List.head? hwords
    rw [List.head?_map, List.head?_map, show (tokensFrom 0 rest).head? = some first from hfirst,
      Option.map_some] at hhead
    obtain ⟨token, htoken, hword⟩ := Option.map_eq_some_iff.mp hhead.symm
    obtain ⟨more, hmore⟩ := List.head?_eq_some_iff.mp htoken
    rw [tokensFrom_blank (isBlank_of_isLineTerminator hline), hmore, List.cons_append,
      Syntax.Input.peek_cons]
    have hsame : token.kind = first.kind := congrArg Prod.fst hword
    rw [hsame]
    rcases hkind with hdb | hsemicolon
    · rw [hdb]
      rfl
    · rw [hsemicolon]
      rfl

variable {parts : List String} {name : String} {after : List Char}

-- The names of a collection, with a point before each.
def dottedChars (parts : List String) : List Char := parts.flatMap fun part => '.' :: part.toList

theorem isWord_dot : IsWord .dot ['.'] := isWord_mark rfl

theorem exists_dots (hparts : ∀ part ∈ parts, IsIdentifier part) (start : Nat) :
    ∃ dots, Syntax.AreDotted dots ∧ dots.isEmpty = parts.isEmpty ∧
      ∀ rest, rest.head? = some '.' → tokensFrom start (dottedChars parts ++ rest) =
        dots ++ tokensFrom (start + byteSize (dottedChars parts)) rest := by
  induction parts generalizing start with
  | nil => exact ⟨[], .nil, rfl, fun rest _ => rfl⟩
  | cons part parts ih =>
    obtain ⟨hpart, hparts⟩ := List.forall_mem_cons.mp hparts
    have hword := hpart.isWord
    obtain ⟨dots, hdots, _, hread⟩ := ih hparts (start + byteSize ['.'] + byteSize part.toList)
    refine ⟨⟨.dot, start, ['.']⟩ :: ⟨.identifier, start + byteSize ['.'], part.toList⟩ :: dots,
      .cons rfl rfl hdots, rfl, fun rest hrest => ?_⟩
    have hnext : TokenKind.identifier.Ends (dottedChars parts ++ rest) := by
      intro c hc
      have hpoint : (dottedChars parts ++ rest).head? = some '.' := by
        cases parts with
        | nil => exact hrest
        | cons => rfl
      obtain rfl := Option.some.inj (hpoint.symm.trans hc)
      decide
    have hchars : dottedChars (part :: parts) ++ rest =
        ['.'] ++ (part.toList ++ (dottedChars parts ++ rest)) := by simp [dottedChars]
    have hsize : byteSize (dottedChars (part :: parts)) =
        byteSize ['.'] + byteSize part.toList + byteSize (dottedChars parts) := by
      simp only [dottedChars, List.flatMap_cons, List.cons_append, byteSize_cons, byteSize_append,
        byteSize_nil]
      omega
    rw [hchars, tokensFrom_word isWord_dot (TokenKind.ends_of_apart rfl hword _),
      tokensFrom_word hword hnext, hread rest hrest, hsize]
    simp only [List.cons_append, Nat.add_assoc]

-- A name that may still be empty is read as one token or none.
theorem exists_name (hname : name = "" ∨ IsIdentifier name) (hafter : BeginsCommand after)
    (start : Nat) :
    ∃ named : Option Token, tokensFrom start (name.toList ++ after) =
        named.toList ++ tokensFrom (start + byteSize name.toList) after ∧
      (∀ token ∈ named, token.kind = .identifier ∧ token.start = start ∧
        token.stop = start + byteSize name.toList) ∧
      (named = none → start = start + byteSize name.toList) ∧
      TokenKind.dot.Ends (name.toList ++ after) := by
  rcases hname with rfl | hname
  · exact ⟨none, rfl, by simp, fun _ => rfl, hafter.ends .dot⟩
  · have hword := hname.isWord
    refine ⟨some ⟨.identifier, start, name.toList⟩, tokensFrom_word hword (hafter.ends _) start, ?_,
      by simp, TokenKind.ends_of_apart rfl hword after⟩
    intro token htoken
    obtain rfl := Option.some.inj htoken
    exact ⟨rfl, rfl, rfl⟩

theorem exists_isTyped (hparts : ∀ part ∈ parts, IsIdentifier part)
    (hname : name = "" ∨ IsIdentifier name) (hafter : BeginsCommand after) (start : Nat) :
    ∃ db dots point named later, db.kind = .db ∧ dots.isEmpty = parts.isEmpty ∧
      tokensFrom start (['d', 'b'] ++ (dottedChars parts ++ (['.'] ++ (name.toList ++ after)))) =
        db :: (dots ++ point :: (named.toList ++ later)) ∧
      IsTyped dots point named later
        (start + byteSize (['d', 'b'] ++ (dottedChars parts ++ ['.'])))
        (start + byteSize (['d', 'b'] ++ (dottedChars parts ++ ['.'])) + byteSize name.toList) := by
  obtain ⟨dots, hdots, hempty, hread⟩ := exists_dots hparts (start + byteSize ['d', 'b'])
  generalize hfront : start + byteSize (['d', 'b'] ++ (dottedChars parts ++ ['.'])) = front
  obtain ⟨named, hnamed, hspan, hnone, hends⟩ := exists_name hname hafter front
  have hpoint : start + byteSize ['d', 'b'] + byteSize (dottedChars parts) + byteSize ['.'] =
      front := by
    rw [← hfront, byteSize_append, byteSize_append]
    omega
  have hnext : TokenKind.db.Ends (dottedChars parts ++ (['.'] ++ (name.toList ++ after))) := by
    intro c hc
    have hhead : (dottedChars parts ++ (['.'] ++ (name.toList ++ after))).head? = some '.' := by
      cases parts <;> rfl
    obtain rfl := Option.some.inj (hhead.symm.trans hc)
    decide
  refine ⟨⟨.db, start, ['d', 'b']⟩, dots,
    ⟨.dot, start + byteSize ['d', 'b'] + byteSize (dottedChars parts), ['.']⟩, named,
    tokensFrom (front + byteSize name.toList) after, rfl, hempty, ?_, ?_⟩
  · rw [tokensFrom_word isWord_db hnext, hread _ rfl, tokensFrom_word isWord_dot hends, hpoint, hnamed]
  · exact {
      dotted := hdots
      isOpen := fun finish =>
        ⟨rfl, fun token htoken => (hspan token htoken).1, hafter.peek _ finish⟩
      point_stop := hpoint
      name_span := fun token htoken => (hspan token htoken).2
      start_eq := hnone
      stop_le := fun token htoken => start_le_of_mem_tokensFrom htoken }

-- Nothing that is typed ends a line or a regular expression.
theorem of_mem_typed (hparts : ∀ part ∈ parts, IsIdentifier part)
    (hname : name = "" ∨ IsIdentifier name) :
    ∀ c ∈ ['d', 'b'] ++ (dottedChars parts ++ (['.'] ++ name.toList)),
      (c ≠ '/' ∧ c ≠ '\\') ∧ c ≠ '\n' ∧ c ≠ '\r' := by
  have hplain : ∀ c, Scan.isWordPart c ∨ c = '.' →
      (c ≠ '/' ∧ c ≠ '\\') ∧ c ≠ '\n' ∧ c ≠ '\r' := by
    rintro c (hc | rfl)
    · refine ⟨⟨?_, ?_⟩, ?_, ?_⟩ <;> rintro rfl <;> exact absurd hc (by decide)
    · decide
  intro c hc
  apply hplain
  simp only [dottedChars, List.mem_append, List.mem_cons, List.mem_flatMap, List.not_mem_nil,
    or_false] at hc
  rcases hc with (rfl | rfl) | ⟨part, hpart, rfl | hc⟩ | rfl | hc
  · exact .inl (by decide)
  · exact .inl (by decide)
  · exact .inr rfl
  · exact .inl ((hparts part hpart).isWordPart c hc)
  · exact .inr rfl
  · rcases hname with rfl | hname
    · simp at hc
    · exact .inl (hname.isWordPart c hc)

theorem dottedChars_eq (hne : parts ≠ []) :
    dottedChars parts = '.' :: ['.'].intercalate (parts.map String.toList) := by
  induction parts with
  | nil => contradiction
  | cons part parts ih =>
    cases parts with
    | nil => simp [dottedChars]
    | cons other parts =>
      have hrest := ih (List.cons_ne_nil _ _)
      rw [dottedChars, List.flatMap_cons, ← dottedChars, hrest]
      simp

theorem exists_lex_typed {before front : List Char} (hbefore : IsClosed before)
    (hparts : ∀ part ∈ parts, IsIdentifier part) (hname : name = "" ∨ IsIdentifier name)
    (hafter : BeginsCommand after)
    (hfront : front = before ++ (['d', 'b'] ++ (dottedChars parts ++ ['.']))) :
    ∃ db dots point named later, db.kind = .db ∧ dots.isEmpty = parts.isEmpty ∧
      (lex (front ++ (name.toList ++ after))).tokens =
        (lex before).tokens ++ db :: (dots ++ point :: (named.toList ++ later)) ∧
      IsTyped dots point named later (byteSize front) (byteSize (front ++ name.toList)) := by
  obtain ⟨db, dots, point, named, later, hdb, hempty, htokens, htyped⟩ :=
    exists_isTyped hparts hname hafter (byteSize before)
  have hplain := of_mem_typed hparts hname
  have hnone := @Scan.regexBody_eq_none after _ (fun c hc => (hplain c hc).1) hafter.head?
  refine ⟨db, dots, point, named, later, hdb, hempty, ?_, ?_⟩
  · have happend := lex_append hbefore hnone
    have hsame : before ++ ((['d', 'b'] ++ (dottedChars parts ++ (['.'] ++ name.toList))) ++
        after) = front ++ (name.toList ++ after) := by
      rw [hfront]
      simp
    rw [hsame] at happend
    rw [happend, ← htokens]
    simp
  · rwa [← byteSize_append, ← hfront, ← byteSize_append] at htyped

end Text

namespace Syntax

theorem tokensOf_terminals (tokens : List Token) :
    Tree.tokensOf (tokens.map .terminal) = tokens := by
  simp [Tree.tokensOf_eq_flatMap, List.flatMap_map, Tree.tokens]

variable {db point : Token} {dots later : List Token} {name : Option Token}
  {start stop finish : Nat}

theorem tokensOf_members (htyped : IsTyped dots point name later start stop) :
    Tree.tokensOf (members
      ⟨dots ++ point :: (name.toList ++ (later ++ [.atEnd finish])), false⟩ true).trees =
        dots ++ point :: name.toList := by
  have hopen := htyped.isOpen finish
  cases htyped.dotted with
  | nil =>
    rw [List.nil_append, members_open_first hopen]
    cases name <;> rfl
  | @cons dot part tokens hdot hpart htokens =>
    rw [List.cons_append, List.cons_append, members_dotted hdot hpart htokens hopen]
    have hparts := tokensOf_terminals tokens
    cases name <;> simp [Tree.tokensOf, Tree.tokens, hparts]

-- What a semicolon closes is read by itself.
theorem exists_trees_append {text : List Char} (h : IsClosed text) (after : List Token) :
    ∃ items, (commandList ⟨(lex text).tokens ++ after, false⟩).trees =
      items ++ (commandList ⟨after, false⟩).trees := by
  rcases h.exists_last with hnone | ⟨first, semicolon, hlast, hkind⟩
  · exact ⟨[], by rw [hnone]; rfl⟩
  · have hfirst : ∀ token ∈ first, token.kind ≠ .endOfText := by
      intro token htoken
      apply @kind_ne_endOfText_of_mem_lex text
      simp [hlast, htoken]
    have hfinish : (Token.atEnd 0).kind = .endOfText := rfl
    have hresumes := commandList_before hfirst hkind hfinish after
    rw [hlast, List.append_assoc, List.singleton_append]
    exact ⟨_, hresumes.trees⟩

end Syntax

end QueryPad
