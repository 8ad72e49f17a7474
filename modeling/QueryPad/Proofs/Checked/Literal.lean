import QueryPad.Checked.Literal
import QueryPad.Proofs.Checked.Lines
import QueryPad.Proofs.Regex.Slashes

-- Quotes are one byte wide, and a regular expression that was read as a token
-- has two slashes: taking such texts apart breaks nothing.
namespace QueryPad

open Text

namespace Checked

open Regex

variable {chars : List Char}

section Quotes

variable {c : Char} {byte : UInt8}

theorem utf8_ne_nil (c : Char) : String.utf8EncodeChar c ≠ [] := by
  have hlength := String.length_utf8EncodeChar c
  have hpos := c.utf8Size_pos
  exact List.ne_nil_of_length_pos (by omega)

theorem utf8_of_toNat (hbyte : byte.toNat < 128) (h : c.toNat = byte.toNat) :
    String.utf8EncodeChar c = [byte] := by
  rw [utf8EncodeChar_of_lt (by omega), h, UInt8.ofNat_toNat]

-- The outer bytes of a text are in ASCII where its outer characters are.
theorem head?_utf8 (hbyte : byte.toNat < 128) (chars : List Char) :
    (chars.flatMap String.utf8EncodeChar).head? = some byte ↔
      chars.head?.map Char.toNat = some byte.toNat := by
  cases chars with
  | nil => simp
  | cons c rest =>
    rw [List.flatMap_cons, List.head?_append_of_ne_nil _ (utf8_ne_nil c), List.head?_cons,
      Option.map_some, Option.some_inj]
    constructor
    · exact fun h => eq_of_mem_utf8EncodeChar hbyte (List.mem_of_head? h)
    · intro h
      rw [utf8_of_toNat hbyte h]
      rfl

theorem getLast?_utf8 (hbyte : byte.toNat < 128) (chars : List Char) :
    (chars.flatMap String.utf8EncodeChar).getLast? = some byte ↔
      chars.getLast?.map Char.toNat = some byte.toNat := by
  cases chars using List.reverseRecOn with
  | nil => simp
  | append_singleton before c =>
    rw [List.flatMap_append, List.flatMap_singleton,
      List.getLast?_append_of_ne_nil _ (utf8_ne_nil c), List.getLast?_concat, Option.map_some, Option.some_inj]
    constructor
    · exact fun h => eq_of_mem_utf8EncodeChar hbyte (List.mem_of_getLast? h)
    · intro h
      rw [utf8_of_toNat hbyte h]
      rfl

theorem unquote_quoted (hquote : Literal.isQuote c) (inner : List Char) :
    Literal.unquote (c :: (inner ++ [c])) = inner := by
  simp [Literal.unquote, hquote]

theorem unquote_plain {chars : List Char}
    (h : ∀ c inner, chars = c :: (inner ++ [c]) → ¬ Literal.isQuote c) :
    Literal.unquote chars = chars := by
  cases chars with
  | nil => rfl
  | cons c rest =>
    rw [Literal.unquote, if_neg]
    intro hquoted
    rw [Bool.and_eq_true, decide_eq_true_eq] at hquoted
    obtain ⟨inner, rfl⟩ := List.getLast?_eq_some_iff.mp hquoted.2
    exact h c inner rfl hquoted.1

theorem isQuote_iff (c : Char) : Literal.isQuote c ↔
    ∃ byte : UInt8, (byte = 34 ∨ byte = 39) ∧ c.toNat = byte.toNat := by
  simp only [Literal.isQuote, Bool.or_eq_true, decide_eq_true_eq]
  constructor
  · rintro (rfl | rfl)
    · exact ⟨34, .inl rfl, rfl⟩
    · exact ⟨39, .inr rfl, rfl⟩
  · rintro ⟨byte, rfl | rfl, h⟩
    · exact .inl (Char.toNat_inj.mp h)
    · exact .inr (Char.toNat_inj.mp h)

theorem lt_of_quote (h : byte = 34 ∨ byte = 39) : byte.toNat < 128 := by
  rcases h with rfl | rfl <;> decide

theorem utf8Size_of_isQuote (h : Literal.isQuote c) : c.utf8Size = 1 := by
  obtain ⟨byte, hbyte, hc⟩ := (isQuote_iff c).mp h
  rw [← String.length_utf8EncodeChar, utf8_of_toNat (lt_of_quote hbyte) hc]
  rfl

-- More than one byte, with one quote as the outer ones.
theorem quoted_iff {chars : List Char} (hlong : 2 ≤ byteSize chars) :
    (∃ byte, (byte = 34 ∨ byte = 39) ∧
      (chars.flatMap String.utf8EncodeChar).head? = some byte ∧
      (chars.flatMap String.utf8EncodeChar).getLast? = some byte) ↔
    ∃ c inner, chars = c :: (inner ++ [c]) ∧ Literal.isQuote c := by
  constructor
  · rintro ⟨byte, hbyte, hhead, hlast⟩
    rw [head?_utf8 (lt_of_quote hbyte)] at hhead
    rw [getLast?_utf8 (lt_of_quote hbyte)] at hlast
    obtain ⟨c, hc, hfirst⟩ := Option.map_eq_some_iff.mp hhead
    obtain ⟨d, hd, hlast⟩ := Option.map_eq_some_iff.mp hlast
    obtain rfl : d = c := Char.toNat_inj.mp (hlast.trans hfirst.symm)
    have hquote := (isQuote_iff d).mpr ⟨byte, hbyte, hfirst⟩
    obtain ⟨rest, rfl⟩ := List.head?_eq_some_iff.mp hc
    cases rest with
    | nil =>
      rw [byteSize_cons, byteSize_nil, utf8Size_of_isQuote hquote] at hlong
      omega
    | cons next rest =>
      rw [List.getLast?_cons_cons] at hd
      obtain ⟨inner, hinner⟩ := List.getLast?_eq_some_iff.mp hd
      exact ⟨d, inner, by rw [hinner], hquote⟩
  · rintro ⟨c, inner, rfl, hquote⟩
    obtain ⟨byte, hbyte, hc⟩ := (isQuote_iff c).mp hquote
    refine ⟨byte, hbyte, (head?_utf8 (lt_of_quote hbyte) _).mpr (congrArg some hc),
      (getLast?_utf8 (lt_of_quote hbyte) _).mpr ?_⟩
    rw [← List.cons_append, List.getLast?_concat, Option.map_some, hc]

theorem slice?_inner (hquote : Literal.isQuote c) (inner : List Char) :
    slice? (c :: (inner ++ [c])) 1 (byteSize (c :: (inner ++ [c])) - 1) = some inner := by
  have hsize := utf8Size_of_isQuote hquote
  have hslice := slice?_append [c] inner [c]
  have hstop : byteSize (c :: (inner ++ [c])) - 1 = byteSize ([c] ++ inner) := by
    simp only [byteSize_cons, byteSize_append, byteSize_nil, hsize]
    omega
  rw [hstop]
  rwa [byteSize_cons, byteSize_nil, hsize] at hslice

end Quotes

theorem unquote_eq (chars : List Char) : unquote chars = .ok (Literal.unquote chars) := by
  have hlength := length_utf8 chars
  rw [unquote]
  by_cases hlong : 2 ≤ byteSize chars
  · have hne : chars.flatMap String.utf8EncodeChar ≠ [] := List.ne_nil_of_length_pos (by omega)
    have hfirst := List.head?_eq_some_head hne
    have hlast := List.getLast?_eq_some_getLast hne
    have hquoted := quoted_iff hlong
    rw [hfirst, hlast] at hquoted
    rw [hlength, if_pos hlong, item_eq (List.head?_eq_getElem?.symm.trans hfirst), ok_bind,
      minus_eq (by omega), ok_bind, item_eq (hlength ▸ List.getLast?_eq_getElem?.symm.trans hlast),
      ok_bind]
    split
    · next hbytes =>
      obtain ⟨c, inner, rfl, hquote⟩ := hquoted.mp ⟨_, hbytes.2, rfl, congrArg some hbytes.1.symm⟩
      rw [ok_bind, cut_eq (slice?_inner hquote inner), unquote_quoted hquote]
    · next hbytes =>
      rw [unquote_plain]
      · rfl
      · intro c inner hchars hquote
        obtain ⟨byte, hbyte, hhead, hend⟩ := hquoted.mpr ⟨c, inner, hchars, hquote⟩
        refine hbytes ⟨Option.some.inj (hhead.trans hend.symm), ?_⟩
        rwa [Option.some.inj hhead]
  · rw [hlength, if_neg hlong, unquote_plain]
    · rfl
    · rintro c inner rfl _
      have hpos := c.utf8Size_pos
      simp only [byteSize_cons, byteSize_append] at hlong
      omega

theorem splitLiteral_eq (h : IsSlashed chars) :
    splitLiteral chars = .ok (Regex.splitLiteral chars) := by
  obtain ⟨body, flags, rfl, hflags⟩ := h
  have hslash : lastSlash ('/' :: (body ++ '/' :: flags)) = byteSize ('/' :: body) := by
    rw [lastSlash, (Regex.reverse_slashed body hflags).2, List.drop_one, List.tail_cons,
      List.reverse_reverse]
  have hflagsCut : slice? ('/' :: (body ++ '/' :: flags)) (byteSize ('/' :: body) + 1)
      (byteSize ('/' :: (body ++ '/' :: flags))) = some flags := by
    have hslice := slice?_append ('/' :: body ++ ['/']) flags []
    rw [List.append_nil, List.append_assoc, byteSize_append] at hslice
    exact hslice
  have hbodyCut : slice? ('/' :: (body ++ '/' :: flags)) 1 (byteSize ('/' :: body)) = some body :=
    slice?_append ['/'] body ('/' :: flags)
  rw [splitLiteral, hslash, cut_eq hflagsCut, ok_bind, hbodyCut,
    Regex.splitLiteral_slashed body hflags]
  rfl

section Groups

variable {inSet : Bool} {c : Char} {rest : List Char}

-- One character of a pattern and those behind it.
theorem groupsInOrder_cons : groupsInOrder inSet (c :: rest) =
    if c = '\\' then groupsInOrder inSet (rest.drop 1)
    else if c = '[' then groupsInOrder true rest
    else if c = ']' then groupsInOrder false rest
    else if c = '(' && !inSet && rest[0]? = some '?' &&
        !groupsInOrder.opensKnown (rest.drop 1) then false
    else groupsInOrder inSet rest := by
  rw [groupsInOrder.eq_def]
  split
  · contradiction
  · next hpattern =>
    obtain ⟨rfl, rfl⟩ := List.cons.inj hpattern
    rfl
  · next hpattern =>
    obtain ⟨rfl, rfl⟩ := List.cons.inj hpattern
    rfl
  · next hpattern =>
    obtain ⟨rfl, rfl⟩ := List.cons.inj hpattern
    rfl
  · next known hpattern =>
    obtain ⟨rfl, rfl⟩ := List.cons.inj hpattern
    cases inSet <;> cases h : groupsInOrder.opensKnown known <;> simp [h, groupsInOrder]
  · next hback hset hend hgroup hpattern =>
    obtain ⟨rfl, rfl⟩ := List.cons.inj hpattern
    have hplain : ¬ (c = '(' && !inSet && rest[0]? = some '?' &&
        !groupsInOrder.opensKnown (rest.drop 1)) := by
      simp only [Bool.and_eq_true, decide_eq_true_eq]
      rintro ⟨⟨⟨rfl, -⟩, hmark⟩, -⟩
      cases rest with
      | nil => contradiction
      | cons d rest => exact hgroup rest rfl (congrArg (· :: rest) (Option.some.inj hmark))
    rw [if_neg hset, if_neg hend, if_neg hplain]
    -- nothing is left behind a backslash at the end
    split
    · next h =>
      cases rest with
      | nil => rfl
      | cons d rest => exact absurd rfl (hback d rest h)
    · rfl

theorem groupsFrom_eq (chars : List Char) (inSet : Bool) (i : Nat) :
    groupsFrom chars inSet i = .ok (groupsInOrder inSet (chars.drop i)) := by
  induction hmore : chars.length - i using Nat.strongRecOn generalizing inSet i with
  | ind more ih =>
    rw [groupsFrom]
    by_cases hi : i < chars.length
    · have hnext (inSet : Bool) := ih (chars.length - (i + 1)) (by omega) inSet (i + 1) rfl
      have hskip := ih (chars.length - (i + 2)) (by omega) inSet (i + 2) rfl
      have hdrop : chars.drop (i + 2) = (chars.drop (i + 1)).drop 1 := by rw [List.drop_drop]
      have hhead : chars[i + 1]? = (chars.drop (i + 1))[0]? := by simp
      rw [if_pos hi, item_eq (List.getElem?_eq_getElem hi), ok_bind, List.drop_eq_getElem_cons hi,
        groupsInOrder_cons, hskip, hdrop, hhead]
      simp only [hnext, pure_eq, apply_ite Except.ok]
    · rw [if_neg hi, List.drop_eq_nil_of_le (Nat.not_lt.mp hi)]
      rfl

end Groups

theorem validate_eq (pattern flags : List Char) :
    validate pattern flags = .ok (Regex.validate pattern flags) := by
  rw [validate, Regex.validate]
  split
  · rfl
  · rw [groupsFrom_eq, ok_bind, List.drop_zero]
    split <;> rfl

theorem regex_eq (h : IsSlashed chars) : regex chars = .ok (Literal.regex chars) := by
  rw [regex, splitLiteral_eq h, ok_bind, Literal.regex]
  dsimp only
  rw [validate_eq, ok_bind]
  cases Regex.validate (Regex.splitLiteral chars).1 (Regex.splitLiteral chars).2 <;> rfl

end Checked

end QueryPad
