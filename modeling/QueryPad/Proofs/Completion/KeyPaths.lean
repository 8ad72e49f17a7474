import QueryPad.Proofs.Checked.Places
import QueryPad.Proofs.Command.Rereading
import QueryPad.Proofs.Completion.KeyPlaces
import QueryPad.Proofs.Completion.Standing
import QueryPad.Proofs.Syntax.Leaves
import QueryPad.Proofs.Token.Continuation

-- The tokens before a place in a literal tell the same of it as the tree does:
-- whether a name stands there, and which keys and arrays lead to it.
namespace QueryPad

open Text

namespace Completion

open Syntax Focus

section Front

variable {front : List Char}

theorem not_key_of_not_isWordPart {c : Char} (hpart : Scan.isWordPart c = false) (hdot : c ≠ '.')
    (hquotes : c ≠ '"' ∧ c ≠ '\'') : ¬ isKeyChar c ∧ ¬ Literal.isQuote c := by
  have hkey : isKeyChar c = (Scan.isWordPart c || c = '.') := rfl
  simp [hkey, hpart, hdot, Literal.isQuote, hquotes]

theorem not_key_of_isBlank {c : Char} (h : isBlank c) : ¬ isKeyChar c ∧ ¬ Literal.isQuote c := by
  refine not_key_of_not_isWordPart (of_isBlank h).2.1 ?_ ⟨?_, ?_⟩ <;>
  · rintro rfl
    revert h
    decide +kernel

theorem not_key_of_markKind {c : Char} {kind : TokenKind} (h : Piece.markKind c = some kind)
    (hleads : leadsIn kind) : ¬ isKeyChar c ∧ ¬ Literal.isQuote c := by
  refine not_key_of_not_isWordPart (Piece.of_markKind h).2.1 ?_ ⟨?_, ?_⟩
  · rintro rfl
    obtain rfl := Option.some.inj h
    contradiction
  all_goals
    rintro rfl
    contradiction

theorem chars_of_leadsIn {c : Char} {rest : List Char} {kind : TokenKind} (hleads : leadsIn kind)
    (h : (Piece.next c rest).1 = .token kind) :
    (Piece.next c rest).2.1 = [c] ∧ Piece.markKind c = some kind := by
  have hmark : kind.isMark := by
    revert hleads
    cases kind <;> decide
  have hkind := Piece.markKind_of_isMark hmark h
  have hends : kind.Ends rest := by
    intro d _
    cases kind <;> simp [leadsIn, TokenKind.takes] at hleads ⊢
  obtain ⟨d, more, hchars, hnext⟩ := isWord_mark hkind rest hends
  obtain ⟨rfl, rfl⟩ := List.cons.inj hchars
  exact ⟨congrArg (·.2.1) hnext, hkind⟩

-- Behind a mark that leads to a name or a value no key is begun.
theorem not_key_of_leadsIn (hover : IsOver front)
    (hmark : ∃ mark ∈ (lex front).tokens.getLast?, leadsIn mark.kind) :
    ∀ c ∈ front.getLast?, ¬ isKeyChar c ∧ ¬ Literal.isQuote c := by
  have hjoin := piecesFrom_join 0 front
  obtain hnone | ⟨pieces, piece, hpieces⟩ := (piecesFrom 0 front).eq_nil_or_concat'
  · rw [hnone] at hjoin
    simp [← hjoin]
  · have hend : piece ∈ (piecesFrom 0 front).getLast? := by simp [hpieces]
    obtain ⟨c, rest, hkind, hchars⟩ := exists_next_of_mem_piecesFrom (List.mem_of_getLast? hend)
    have hne := Piece.next_taken_ne_nil c rest
    intro d hd
    rw [← hjoin, hpieces, List.flatMap_append, List.flatMap_singleton, hchars,
      List.getLast?_append_of_ne_nil _ hne] at hd
    rcases hover.last_piece hend with hbetween | ⟨token, htoken, hlast⟩
    · rw [hkind] at hbetween
      rcases Piece.getLast?_of_next hbetween d hd with hblank | rfl
      · exact not_key_of_isBlank hblank
      · decide +kernel
    · obtain ⟨mark, hself, hleads⟩ := hmark
      obtain rfl := Option.some.inj (hlast.symm.trans hself)
      have htoken := congrArg Piece.kind (Piece.eq_of_token? htoken)
      obtain ⟨hone, hmark⟩ := chars_of_leadsIn hleads (hkind.symm.trans htoken)
      rw [hone] at hd
      obtain rfl := Option.some.inj hd
      exact not_key_of_markKind hmark hleads

theorem endsWithKey_nil (h : ∀ c ∈ front.getLast?, ¬ isKeyChar c ∧ ¬ Literal.isQuote c) :
    EndsWithKey front [] :=
  ⟨[], [], rfl, by simp, by simpa using fun c hc => (h c hc).1,
    .inr ⟨rfl, fun c hc => (h c hc).2⟩⟩

end Front

section Opening

variable {tokens tokens' first later : List Token} {token : Token} {more : List Char}

-- What the brackets are taken for does not depend on where the tokens stand.
theorem foldl_read_words (h : tokens.map Token.word = tokens'.map Token.word)
    (open_ : List Frame) : tokens.foldl Frame.read open_ = tokens'.foldl Frame.read open_ := by
  have hwords : ∀ tokens : List Token, tokens.foldl Frame.read open_ =
      (tokens.map Token.word).foldl (fun open_ word => Frame.read open_ ⟨word.1, 0, word.2⟩)
        open_ := by
    intro tokens
    rw [List.foldl_map]
    rfl
  rw [hwords, hwords, h]

-- A call, up to its arguments.
def callOpening : List Char := "db.c.f(".toList

theorem exists_opening : ∃ opening : List Token, (∀ token ∈ opening, token.kind.isPlain) ∧
    ∀ more, (lex (callOpening ++ more)).tokens = opening ++ tokensFrom 7 more := by
  have hname : ∀ {c}, Scan.isWordStart c → Piece.wordKind [c] = .identifier →
      IsWord .identifier [c] := by
    intro c hc hkind
    exact hkind ▸ isWord_word hc (by simp)
  have hcollection := @hname 'c' (by decide) (by decide)
  have hfunction := @hname 'f' (by decide) (by decide)
  have hdot : IsWord .dot ['.'] := isWord_mark rfl
  have hparen : IsWord .openParen ['('] := isWord_mark rfl
  refine ⟨[⟨.db, 0, ['d', 'b']⟩, ⟨.dot, 2, ['.']⟩, ⟨.identifier, 3, ['c']⟩, ⟨.dot, 4, ['.']⟩,
    ⟨.identifier, 5, ['f']⟩, ⟨.openParen, 6, ['(']⟩], by decide, fun more => ?_⟩
  show tokensFrom 0 (['d', 'b'] ++ (['.'] ++ (['c'] ++ (['.'] ++ (['f'] ++ (['('] ++ more)))))) = _
  rw [tokensFrom_word isWord_db (TokenKind.ends_of_apart rfl hdot _),
    tokensFrom_word hdot (TokenKind.ends_of_apart rfl hcollection _),
    tokensFrom_word hcollection (TokenKind.ends_of_apart rfl hdot _),
    tokensFrom_word hdot (TokenKind.ends_of_apart rfl hfunction _),
    tokensFrom_word hfunction (TokenKind.ends_of_apart rfl hparen _),
    tokensFrom_word hparen (by simp [TokenKind.Ends, TokenKind.takes])]
  rfl

-- Behind a mark in a bracket of the arguments, the arguments alone are read as
-- they are behind the opening of the call.
theorem exists_front (hread : (lex (callOpening ++ more)).reports = [])
    (htokens : (lex (callOpening ++ more)).tokens = first ++ token :: later)
    (hdot : token.kind ≠ .dot) (hopen : first.foldl Frame.read [] ≠ [])
    (hmark : ∃ mark ∈ first.getLast?, leadsIn mark.kind) :
    ∃ front behind, more = front ++ (token.chars ++ behind) ∧
      token.start = 7 + byteSize front ∧ EndsWithKey front [] ∧
      (lex front).tokens.foldl Frame.read [] = first.foldl Frame.read [] := by
  obtain ⟨opening, hplain, hopening⟩ := exists_opening
  have hinside : ∃ inside, first = opening ++ inside ∧
      tokensFrom 7 more = inside ++ token :: later := by
    rw [hopening] at htokens
    rcases List.append_eq_append_iff.mp htokens with hsplit | ⟨left, rfl, -⟩
    · exact hsplit
    · refine absurd (Closed.of_plain fun token htoken => hplain token ?_).read_nil hopen
      exact List.mem_append_left _ htoken
  obtain ⟨inside, hfirst, hmore⟩ := hinside
  obtain ⟨whole, behind, htext, hstart, hwhole, hover⟩ := lex_cut hread htokens hdot
  have hmem : token ∈ tokensFrom 7 more := by simp [hmore]
  have hbelow : byteSize callOpening ≤ byteSize whole :=
    hstart ▸ start_le_of_mem_tokensFrom hmem
  obtain ⟨front, rfl, rfl⟩ := LineIndex.exists_append_of_byteSize_le htext hbelow
  rw [hopening, hfirst] at hwhole
  have hsame := List.append_cancel_left hwhole
  refine ⟨front, behind, rfl, ?_, endsWithKey_nil fun c hc => ?_, ?_⟩
  · rw [hstart, byteSize_append]
    rfl
  · apply not_key_of_leadsIn hover
    · rwa [hopening, hsame, ← hfirst]
    · rw [List.getLast?_append, Option.mem_def.mp hc]
      rfl
  · rw [hfirst, List.foldl_append, (Closed.of_plain hplain).read_nil, ← hsame]
    exact foldl_read_words (tokensFrom_words 0 7 front) []

end Opening

-- Names and values begin with tokens of their own.
theorem exists_first {tree : Tree} {part : Part} (h : IsPart part tree)
    (hrule : tree.is .propertyName ∨ tree.is .propertyValue) : ∃ token more,
      tree.tokens = token :: more ∧ token.kind ≠ .dot ∧ token.kind ≠ .endOfText := by
  rcases hrule with hrule | hrule
  all_goals
    obtain ⟨start, children, rfl⟩ := Tree.is_iff.mp hrule
    obtain ⟨ahead, rest, hderived⟩ := h.derives
  · obtain ⟨token, hkind, -, rfl⟩ := derives_propertyName hderived
    refine ⟨token, [], rfl, ?_, ?_⟩ <;>
    · intro hself
      simp [hself, nameStart] at hkind
  · obtain ⟨symbol, hsymbol, chosen⟩ := Derives.anyOf_iff.mp hderived
    simp only [List.mem_cons, List.not_mem_nil, or_false] at hsymbol
    rcases hsymbol with rfl | rfl | rfl | rfl
    all_goals obtain ⟨held, _, _, body, rfl, -⟩ := Derives.rule_iff.mp chosen
    · obtain ⟨token, hkind, -, rfl⟩ := derives_literal body
      refine ⟨token, _, rfl, ?_, ?_⟩ <;>
      · intro hself
        simp [hself] at hkind
    all_goals
      obtain ⟨token, _, _, hkind, -, rfl, -⟩ := Derives.token_iff.mp body
      exact ⟨token, _, rfl, by simp [hkind], by simp [hkind]⟩

section Agreement

open Pad

variable {text : String} {focus : Focus}

-- The tokens before a place, and the one that it begins with.
theorem exists_split_of_under (h : Under (root (ofText text).tree) focus) {token : Token}
    {more : List Token} (hfirst : focus.tree.tokens = token :: more)
    (hend : token.kind ≠ .endOfText) : token.start = focus.tree.start ∧
      ∃ later, (lex text.toList).tokens =
        (ofText text).tree.tokens.take focus.tokensBefore ++ token :: later := by
  obtain ⟨found, hfound, hstart⟩ := exists_firstToken h
  obtain ⟨rest, hrest⟩ := tokens_leading h
  rw [hfirst, List.cons_append] at hrest
  have hself : token = found := by
    have hhead := congrArg (·[0]?) hrest
    rw [List.getElem?_cons_zero, List.getElem?_drop, Nat.add_zero, hfound] at hhead
    exact Option.some.inj hhead
  refine ⟨hself ▸ hstart, ?_⟩
  have hall := List.take_append_drop focus.tokensBefore (lex text.toList).all
  rw [← hrest] at hall
  rw [tokens_tree]
  generalize (lex text.toList).all.take focus.tokensBefore = first at hall
  rw [allTokens_eq] at hall
  obtain hnone | ⟨later, last, hlater⟩ := (more ++ rest).eq_nil_or_concat'
  · rw [hnone] at hall
    have hlast := (List.append_inj' hall rfl).2
    rw [(List.cons.inj hlast).1] at hend
    exact absurd rfl hend
  · rw [hlater, ← List.cons_append, ← List.append_assoc] at hall
    exact ⟨later, (List.append_inj' hall rfl).1.symm⟩

theorem isPart_tree (hparse : (ofText text).parse.reports = []) :
    IsPart (.rule .mongoCommands) (ofText text).tree := by
  obtain ⟨part, hpart, hself⟩ := (derives_of_quiet hparse).part_of_mem (List.mem_singleton_self _)
  obtain rfl := List.mem_singleton.mp hpart
  exact hself

variable {inside : String} (hlexed : (ofText ("db.c.f(" ++ inside ++ ")")).lexed.reports = [])
  (hparse : (ofText ("db.c.f(" ++ inside ++ ")")).parse.reports = [])
  (h : Under (root (ofText ("db.c.f(" ++ inside ++ ")")).tree) focus)

include hlexed hparse h

-- The arguments up to a name or a value, read as they are in the call.
theorem exists_front_of_under {frame : Frame} {outer : List Frame}
    (hrule : focus.tree.is .propertyName ∨ focus.tree.is .propertyValue)
    (hread : ((ofText ("db.c.f(" ++ inside ++ ")")).tree.tokens.take focus.tokensBefore).foldl
      Frame.read [] = frame :: outer) :
    ∃ front after, inside.toList = front ++ after ∧ focus.tree.start = 7 + byteSize front ∧
      EndsWithKey front [] ∧ (lex front).tokens.foldl Frame.read [] = frame :: outer := by
  have htext : ("db.c.f(" ++ inside ++ ")").toList = callOpening ++ (inside.toList ++ [')']) := by
    rw [String.toList_append, String.toList_append, List.append_assoc]
    rfl
  have hroot := isPart_tree hparse
  obtain ⟨part, hpart⟩ := hroot.under h
  obtain ⟨token, more, hfirst, hdot, hend⟩ := exists_first hpart hrule
  obtain ⟨hstart, later, htokens⟩ := exists_split_of_under h hfirst hend
  have hmark := exists_mark_of_under hroot rfl h (by
    rcases hrule with hrule | hrule <;> obtain ⟨start, children, heq⟩ := Tree.is_iff.mp hrule <;>
      rw [heq] <;> rfl)
  rw [htext] at htokens
  obtain ⟨front, behind, hmore, hplace, hkey, hsame⟩ := exists_front (htext ▸ hlexed) htokens
    hdot (by simp [hread]) hmark
  rw [hread] at hsame
  rcases List.append_eq_append_iff.mp hmore with ⟨left, hfront, hclosing⟩ | ⟨after, hinside, -⟩
  · -- the token is no later than the closing parenthesis
    have hmem : token ∈ (lex (callOpening ++ (inside.toList ++ [')']))).tokens := by simp [htokens]
    have hfilled := chars_ne_nil_of_mem_lex hmem
    have hlength := congrArg List.length hclosing
    have hpos := List.length_pos_iff.mpr hfilled
    rw [List.length_append, List.length_append, List.length_singleton] at hlength
    obtain rfl : left = [] := List.eq_nil_of_length_eq_zero (by omega)
    exact ⟨front, [], by simp [hfront], hstart ▸ hplace, hkey, hsame⟩
  · exact ⟨front, after, hinside, hstart ▸ hplace, hkey, hsame⟩

theorem exists_keyPlace?_of_under {frame : Frame} {outer : List Frame}
    (hrule : focus.tree.is .propertyName ∨ focus.tree.is .propertyValue)
    (hread : ((ofText ("db.c.f(" ++ inside ++ ")")).tree.tokens.take focus.tokensBefore).foldl
      Frame.read [] = frame :: outer) :
    ∃ offset, focus.tree.start = 7 + offset ∧ Checked.keyPlace? inside.toList offset =
      .ok (if frame.isSettled then none
        else some ⟨outer.reverse.map Frame.step, offset, false⟩) := by
  obtain ⟨front, after, hinside, hstart, hkey, hsame⟩ :=
    exists_front_of_under hlexed hparse h hrule hread
  have hslice : slice? inside.toList 0 (byteSize front) = some front :=
    hinside ▸ slice?_append [] front after
  have hplace := keyPlace?_of_endsWithKey hkey
  rw [List.append_nil] at hplace
  refine ⟨byteSize front, hstart, ?_⟩
  rw [Checked.keyPlace?_eq hslice, hplace, Checked.keyPlaceAfter, hsame]
  cases frame with
  | array => rfl
  | object key expectsKey => cases expectsKey <;> rfl

-- Where a name of an object begins, and each of the calls around it that are
-- values has at most one argument, a key is taken to be typed, with the way
-- that leads to the object in the tree. Where a value begins, none is.
theorem keyPlace?_of_under
    (hone : ∀ call, Under (root (ofText ("db.c.f(" ++ inside ++ ")")).tree) call →
      call.isInnerCall → call.tree.argumentsOf.length ≤ 1) :
    (focus.tree.is .propertyName → ∃ offset, focus.tree.start = 7 + offset ∧
      Checked.keyPlace? inside.toList offset = .ok (some ⟨focus.steps, offset, false⟩)) ∧
    (focus.tree.is .propertyValue → ∃ offset, focus.tree.start = 7 + offset ∧
      Checked.keyPlace? inside.toList offset = .ok none) := by
  have hstands := stands_of_under (isPart_tree hparse) (.outside (.inl rfl)) hone h
  generalize hread : ((ofText ("db.c.f(" ++ inside ++ ")")).tree.tokens.take
    focus.tokensBefore).foldl Frame.read [] = open_ at hstands
  constructor
  all_goals
    intro hrule
    obtain ⟨start, children, htree⟩ := Tree.is_iff.mp hrule
    have hself := hstands (by rw [htree]; rfl)
    rw [htree] at hself
  · obtain ⟨outer, rfl, hsteps⟩ := hself.exists_object rfl
    rw [hsteps]
    exact exists_keyPlace?_of_under hlexed hparse h (.inl hrule) hread
  · obtain ⟨-, hplace, hopen⟩ := hself.of_isInValue rfl
    obtain ⟨frame, outer, rfl⟩ := List.exists_cons_of_ne_nil (hplace rfl)
    obtain ⟨offset, hstart, hnone⟩ :=
      exists_keyPlace?_of_under hlexed hparse h (.inr hrule) hread
    rw [if_pos (hopen frame rfl).1] at hnone
    exact ⟨offset, hstart, hnone⟩

end Agreement

open Pad in
-- A name and its value, in an object that a call has in an object in arrays.
theorem keyPlace?_of_under_nested : ∃ inside : String,
    inside = "\x7b\"a.b\": [\x7b'd': /* x: */ [1, \x7be: f(\x7bg: null\x7d)\x7d]\x7d]\x7d" ∧
      ∃ name value : Focus, name.tree.is .propertyName ∧
        name.steps = [.key "a.b", .item, .key "d", .item, .key "e"] ∧
        Checked.keyPlace? inside.toList 35 = .ok (some ⟨name.steps, 35, false⟩) ∧
        value.tree.is .propertyValue ∧ Checked.keyPlace? inside.toList 38 = .ok none := by
  generalize hinside :
    "\x7b\"a.b\": [\x7b'd': /* x: */ [1, \x7be: f(\x7bg: null\x7d)\x7d]\x7d]\x7d" = inside
  have hreports : (ofText ("db.c.f(" ++ inside ++ ")")).lexed.reports = [] ∧
      (ofText ("db.c.f(" ++ inside ++ ")")).parse.reports = [] := by
    subst hinside
    decide +kernel
  have hcalls : ∀ call ∈ (ofText ("db.c.f(" ++ inside ++ ")")).tree.nodesOf .functionCall,
      call.argumentsOf.length ≤ 1 := by
    subst hinside
    decide +kernel
  have hone : ∀ call, Under (root (ofText ("db.c.f(" ++ inside ++ ")")).tree) call →
      call.isInnerCall → call.tree.argumentsOf.length ≤ 1 := by
    intro call hcall hinner
    exact hcalls _ (hcall.mem_nodesOf (Bool.and_eq_true_iff.mp hinner).1)
  have hleaves : (∃ leaf ∈ (root (ofText ("db.c.f(" ++ inside ++ ")")).tree).leaves,
      leaf.parent?.any fun name => name.tree.is .propertyName && name.tree.start = 42 &&
        name.steps = [.key "a.b", .item, .key "d", .item, .key "e"]) ∧
      ∃ leaf ∈ (root (ofText ("db.c.f(" ++ inside ++ ")")).tree).leaves,
        (leaf.parent?.bind Focus.parent?).any fun value =>
          value.tree.is .propertyValue && value.tree.start = 45 := by
    subst hinside
    decide +kernel
  obtain ⟨⟨first, hfirst, hname⟩, second, hsecond, hvalue⟩ := hleaves
  obtain ⟨name, hparent, hname⟩ := (Option.any_eq_true _ _).mp hname
  obtain ⟨value, hparent', hvalue⟩ := (Option.any_eq_true _ _).mp hvalue
  obtain ⟨literal, hliteral, hparent'⟩ := Option.bind_eq_some_iff.mp hparent'
  simp only [Bool.and_eq_true, decide_eq_true_eq] at hname hvalue
  have habove := ((under_of_mem_leaves hfirst).parent? hparent).1
  have habove' := (((under_of_mem_leaves hsecond).parent? hliteral).1.parent? hparent').1
  obtain ⟨offset, hstart, hplace⟩ :=
    (keyPlace?_of_under hreports.1 hreports.2 habove hone).1 hname.1.1
  obtain ⟨offset', hstart', hplace'⟩ :=
    (keyPlace?_of_under hreports.1 hreports.2 habove' hone).2 hvalue.1
  obtain rfl : offset = 35 := by omega
  obtain rfl : offset' = 38 := by omega
  exact ⟨inside, rfl, name, value, hname.1.1, hname.2, hplace, hvalue.1, hplace'⟩

end Completion

end QueryPad
