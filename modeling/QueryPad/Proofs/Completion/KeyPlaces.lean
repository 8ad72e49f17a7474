import QueryPad.Proofs.Checked.Embedded
import QueryPad.Proofs.Completion.Brackets
import QueryPad.Proofs.Token.Prefixes

-- Where a key is taken to be typed: as far as the tokens before it tell, in an
-- object, behind the brace or a comma. Parentheses are not looked at, nor what
-- the text before the key breaks off in.
namespace QueryPad.Completion

open Text

section Split

variable {front key : List Char}

theorem not_isKeyChar_of_isQuote {c : Char} (h : Literal.isQuote c) : ¬ isKeyChar c := by
  have hquotes : isKeyChar '"' = false ∧ isKeyChar '\'' = false := by decide +kernel
  simp only [Literal.isQuote, Bool.or_eq_true, decide_eq_true_eq] at h
  rcases h with rfl | rfl <;> simp [hquotes]

theorem splitKey_append {rest word : List Char} (hword : ∀ c ∈ word, isKeyChar c)
    (hrest : ∀ c ∈ rest.getLast?, ¬ isKeyChar c) : splitKey (rest ++ word) = (rest, word) := by
  have htaken : (rest ++ word).reverse.takeWhile isKeyChar = word.reverse := by
    rw [List.reverse_append]
    refine (takeWhile_append_stop ?_ ?_).1
    · simpa using hword
    · rwa [List.head?_reverse]
  rw [splitKey, htaken, List.reverse_reverse, List.length_append, Nat.add_sub_cancel,
    List.take_left]

-- What is made of the tokens before a key.
theorem keyPlace?_of_endsWithKey (h : EndsWithKey front key) :
    keyPlace? (front ++ key) =
      Checked.keyPlaceAfter front (key.head?.any Literal.isQuote) := by
  obtain ⟨quote, word, rfl, hword, hlast, hquote⟩ := h.split
  rw [← List.append_assoc, keyPlace?, splitKey_append hword hlast]
  rcases hquote with ⟨c, rfl, hc⟩ | ⟨rfl, hnone⟩
  · have hquoted : (front ++ [c]).getLast?.any Literal.isQuote := by simpa using hc
    have hhead : ([c] ++ word).head?.any Literal.isQuote := hc
    dsimp only
    rw [if_pos hquoted, hquoted, hhead, List.dropLast_concat]
    rfl
  · have hquoted : front.getLast?.any Literal.isQuote = false := by
      cases hfront : front.getLast? with
      | none => rfl
      | some c => simpa using hnone c hfront
    have hhead : word.head?.any Literal.isQuote = false := by
      cases word with
      | nil => rfl
      | cons c word =>
        have hkey := hword c (by simp)
        simpa using fun hself => not_isKeyChar_of_isQuote hself hkey
    rw [List.append_nil, List.nil_append, hhead]
    dsimp only
    rw [hquoted]
    rfl

theorem exists_endsWithKey (before : List Char) :
    ∃ front key, before = front ++ key ∧ EndsWithKey front key := by
  obtain ⟨rest, word, -, rfl, hword, hlast⟩ := splitKey_spec before
  by_cases hquoted : rest.getLast?.any Literal.isQuote
  · obtain ⟨quote, hquote, hself⟩ := (Option.any_eq_true _ _).mp hquoted
    obtain ⟨front, rfl⟩ := List.getLast?_eq_some_iff.mp hquote
    exact ⟨front, quote :: word, by simp,
      ⟨[quote], word, rfl, hword, hlast, .inl ⟨quote, rfl, hself⟩⟩⟩
  · refine ⟨rest, word, rfl, ⟨[], word, rfl, hword, by simpa using hlast, .inr ⟨rfl, ?_⟩⟩⟩
    intro c hc hself
    exact hquoted (by simp [Option.mem_def.mp hc, hself])

end Split

-- The innermost open bracket is a brace, and in it a name is to come.
theorem reads_object_iff {tokens : List Token} :
    (∃ key outer, tokens.foldl Frame.read [] = .object key true :: outer) ↔
      ∃ brace before own, Innermost tokens brace before own ∧ brace.kind = .openBrace ∧
        AwaitsName own := by
  constructor
  · rintro ⟨key, outer, h⟩
    obtain ⟨bracket, before, own, hself, hframe, -⟩ := exists_innermost h
    by_cases harray : bracket.kind = .openBracket
    · rw [Frame.ofBracket, if_pos harray, Frame.after_array] at hframe
      contradiction
    · have hbrace : bracket.kind = .openBrace := by
        have hopens := hself.opens
        cases hkind : bracket.kind <;> simp [hkind, TokenKind.opensFrame] at hopens harray ⊢
      obtain ⟨key', expectsKey, hafter, hawaits⟩ := Frame.after_object own
      rw [Frame.ofBracket, if_neg harray, hafter] at hframe
      obtain ⟨-, rfl⟩ := Frame.object.inj hframe
      exact ⟨bracket, before, own, hself, hbrace, hawaits.mp rfl⟩
  · rintro ⟨brace, before, own, hself, hbrace, hawaits⟩
    obtain ⟨key, expectsKey, hafter, hexpects⟩ := Frame.after_object own
    refine ⟨key, before.foldl Frame.read [], ?_⟩
    rw [hself.read, Frame.ofBracket, if_neg (by simp [hbrace]), hafter, hexpects.mpr hawaits]

-- A parenthesis inside a value has a comma behind it where a name is to come.
theorem exists_comma_of_awaitsName {before behind : List Token} {token : Token}
    (h : AwaitsName (before ++ token :: behind)) (hkind : token.kind = .openParen)
    (hbefore : ¬ AwaitsName before) : ∃ comma ∈ behind, comma.kind = .comma := by
  by_contra hnone
  apply hbefore
  intro other hother
  apply h other
  have hall : ∀ later ∈ (token :: behind).reverse, decide (later.kind ≠ .comma) := by
    intro later hlater
    rcases List.mem_cons.mp (List.mem_reverse.mp hlater) with rfl | hmem
    · simp [hkind]
    · exact decide_eq_true fun hcomma => hnone ⟨later, hmem, hcomma⟩
  rw [currentItem, List.rtakeWhile, List.reverse_append, List.takeWhile_append_of_pos hall,
    List.reverse_append]
  exact List.mem_append_left _ hother

section Places

variable {text before : List Char} {offset start : Nat} {quoted : Bool}

-- A key is completed exactly where the tokens before it leave a brace open that
-- awaits a name. The text before the key is over if a token of a text without
-- mistakes begins there. A value's parenthesis is open there only if a comma
-- stands behind it, as between the arguments of a call.
theorem keyPlace?_some_iff (h : slice? text 0 offset = some before) :
    (∃ path, Checked.keyPlace? text offset = .ok (some ⟨path, start, quoted⟩)) ↔
      ∃ front key brace outside own, before = front ++ key ∧ EndsWithKey front key ∧
        start = byteSize front ∧ quoted = key.head?.any Literal.isQuote ∧
        Innermost (lex front).tokens brace outside own ∧ brace.kind = .openBrace ∧
        AwaitsName own ∧
        ((lex text).reports = [] → ∀ token ∈ (lex text).tokens, token.start = start →
          token.kind ≠ .dot → IsOver front) ∧
        ∀ first paren rest, own = first ++ paren :: rest → paren.kind = .openParen →
          ¬ AwaitsName first → ∃ comma ∈ rest, comma.kind = .comma := by
  rw [Checked.keyPlace?_eq h]
  constructor
  · rintro ⟨path, hplace⟩
    obtain ⟨front, key, rfl, hkey⟩ := exists_endsWithKey before
    rw [keyPlace?_of_endsWithKey hkey, Checked.keyPlaceAfter] at hplace
    obtain ⟨none_, after, rfl, hnone, -⟩ := slice?_eq_some_iff.mp h
    obtain rfl := eq_nil_of_byteSize hnone.symm
    split at hplace
    · next opened outer hopened =>
      obtain ⟨-, rfl, rfl⟩ := KeyPlace.mk.inj (Option.some.inj (Except.ok.inj hplace))
      obtain ⟨brace, outside, own, hself, hbrace, hawaits⟩ :=
        reads_object_iff.mp ⟨opened, outer, hopened⟩
      refine ⟨front, key, brace, outside, own, rfl, hkey, rfl, rfl, hself, hbrace, hawaits,
        fun hread token htoken hstart hdot => ?_, ?_⟩
      · rw [List.nil_append, List.append_assoc] at hread htoken
        exact isOver_of_token hread htoken hstart hdot
      · rintro first paren rest rfl hparen hfirst
        exact exists_comma_of_awaitsName hawaits hparen hfirst
    · cases Except.ok.inj hplace
  · rintro ⟨front, key, brace, outside, own, rfl, hkey, rfl, rfl, hself, hbrace, hawaits, -, -⟩
    obtain ⟨opened, outer, hopened⟩ := reads_object_iff.mpr ⟨brace, outside, own, hself, hbrace,
      hawaits⟩
    refine ⟨outer.reverse.map Frame.step, ?_⟩
    rw [keyPlace?_of_endsWithKey hkey, Checked.keyPlaceAfter, hopened]

-- A quoted name that is half typed, behind a comment.
theorem keyPlace?_some_iff_comment :
    slice? "\x7ba: [f(1, 2)], /* b */ \"na\": 2\x7d".toList 0 26 =
        some "\x7ba: [f(1, 2)], /* b */ \"na".toList ∧
      (∃ path, Checked.keyPlace? "\x7ba: [f(1, 2)], /* b */ \"na\": 2\x7d".toList 26 =
        .ok (some ⟨path, 23, true⟩)) ∧
      ∃ front, byteSize front = 23 ∧ IsOver front := by
  have hslice : slice? "\x7ba: [f(1, 2)], /* b */ \"na\": 2\x7d".toList 0 26 =
      some "\x7ba: [f(1, 2)], /* b */ \"na".toList := by decide
  have hplace : ∃ path, Checked.keyPlace? "\x7ba: [f(1, 2)], /* b */ \"na\": 2\x7d".toList 26 =
      .ok (some ⟨path, 23, true⟩) := ⟨[], by decide +kernel⟩
  have hread : (lex "\x7ba: [f(1, 2)], /* b */ \"na\": 2\x7d".toList).reports = [] := by
    decide +kernel
  have htoken : ∃ token ∈ (lex "\x7ba: [f(1, 2)], /* b */ \"na\": 2\x7d".toList).tokens,
      token.start = 23 ∧ token.kind = .string := by decide +kernel
  obtain ⟨token, hmem, hstart, hkind⟩ := htoken
  obtain ⟨front, _, _, _, _, _, _, hfront, _, _, _, _, hover, -⟩ :=
    (keyPlace?_some_iff hslice).mp hplace
  exact ⟨hslice, hplace, front, hfront.symm, hover hread token hmem hstart (by simp [hkind])⟩

-- In a comment, in a string and between two arguments of a call.
theorem exists_keyPlace?_inside :
    (Checked.keyPlace? "\x7b // n".toList 6 = .ok (some ⟨[], 5, false⟩) ∧
      ∃ piece ∈ (piecesFrom 0 "\x7b // ".toList).getLast?, piece.kind = .lineComment) ∧
    (Checked.keyPlace? "\x7ba: 1, \"first na".toList 16 = .ok (some ⟨[], 14, false⟩) ∧
      ∃ piece ∈ piecesFrom 0 "\x7ba: 1, \"first ".toList, piece.kind = .openString) ∧
    (Checked.keyPlace? "\x7ba: f(1, ".toList 9 = .ok (some ⟨[], 9, false⟩) ∧
      (lex "\x7ba: f(1, ".toList).tokens.map Token.kind =
        [.openBrace, .identifier, .colon, .identifier, .openParen, .number, .comma]) := by
  decide +kernel

end Places

end QueryPad.Completion
