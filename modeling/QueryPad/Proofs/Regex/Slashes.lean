import QueryPad.Proofs.Text.Lines
import QueryPad.Proofs.Token.Neighbours
import QueryPad.Regex.Literal

-- A regular expression is closed by the first slash that is neither escaped nor
-- in a set of characters. That is its last slash, so cutting there gives the
-- body and the flags that were read.
namespace QueryPad

open Text

namespace Regex

-- Whether what follows a text is escaped: a backslash stands before it that is
-- not escaped itself.
def IsEscaped (before : List Char) : Prop :=
  (before.reverse.takeWhile (· = '\\')).length % 2 = 1

-- Whether a set of characters is open behind a text: no bracket closes the last
-- one that opened it.
def IsInSet (before : List Char) : Prop :=
  ∃ outer inside, before = outer ++ '[' :: inside ∧ ¬ IsEscaped outer ∧
    ∀ u v, inside = u ++ ']' :: v → IsEscaped (outer ++ '[' :: u)

-- Whether a slash behind a text belongs to the body of a regular expression.
def IsGuarded (before : List Char) : Prop := IsEscaped before ∨ IsInSet before

theorem not_isEscaped_nil : ¬ IsEscaped [] := by simp [IsEscaped]

theorem not_isInSet_nil : ¬ IsInSet [] := by simp [IsInSet]

variable {before : List Char} {c : Char}

theorem isEscaped_concat : IsEscaped (before ++ [c]) ↔ c = '\\' ∧ ¬ IsEscaped before := by
  rw [IsEscaped, IsEscaped, List.reverse_concat]
  by_cases hc : c = '\\'
  · simp only [hc, decide_true, List.takeWhile_cons_of_pos, List.length_cons, true_and]
    omega
  · simp [hc]

-- A bracket opens or closes a set unless it is escaped.
theorem isInSet_concat : IsInSet (before ++ [c]) ↔
    c = '[' ∧ ¬ IsEscaped before ∨ IsInSet before ∧ (c = ']' → IsEscaped before) := by
  constructor
  · rintro ⟨outer, inside, hsplit, houter, hinside⟩
    cases inside using List.reverseRecOn with
    | nil =>
      obtain ⟨rfl, hc⟩ := List.append_inj' hsplit rfl
      exact .inl ⟨List.head_eq_of_cons_eq hc, houter⟩
    | append_singleton inside d =>
      rw [← List.cons_append, ← List.append_assoc] at hsplit
      obtain ⟨rfl, hd⟩ := List.append_inj' hsplit rfl
      obtain rfl := List.head_eq_of_cons_eq hd
      refine .inr ⟨⟨outer, inside, rfl, houter, ?_⟩, ?_⟩
      · rintro u v rfl
        exact hinside u (v ++ [c]) (by simp)
      · rintro rfl
        exact hinside inside [] rfl
  · rintro (⟨rfl, hbefore⟩ | ⟨⟨outer, inside, rfl, houter, hinside⟩, hclose⟩)
    · exact ⟨before, [], rfl, hbefore, by simp⟩
    · refine ⟨outer, inside ++ [c], by simp, houter, fun u v hsplit => ?_⟩
      cases v using List.reverseRecOn with
      | nil =>
        obtain ⟨rfl, hc⟩ := List.append_inj' hsplit rfl
        exact hclose (List.head_eq_of_cons_eq hc)
      | append_singleton v d =>
        rw [← List.cons_append, ← List.append_assoc] at hsplit
        exact hinside u v (List.append_inj' hsplit rfl).1

end Regex

namespace Scan

open Regex

theorem forall_before_slash_cons {P : List Char → Prop} {c : Char} {cs : List Char} :
    (∀ u v, c :: cs = u ++ '/' :: v → P u) ↔
      (c = '/' → P []) ∧ ∀ u v, cs = u ++ '/' :: v → P (c :: u) := by
  constructor
  · intro h
    exact ⟨fun hslash => h [] cs (by rw [hslash, List.nil_append]),
      fun u v hsplit => h (c :: u) v (by rw [hsplit, List.cons_append])⟩
  · rintro ⟨hslash, hbehind⟩ u v hsplit
    cases u with
    | nil => exact hslash (List.cons.inj hsplit).1
    | cons d u =>
      obtain ⟨rfl, htail⟩ := List.cons.inj hsplit
      exact hbehind u v htail

-- Behind what was seen the body goes on over guarded slashes, up to the first
-- that is not guarded.
theorem regexBody_guarded {inClass : Bool} {cs taken after seen : List Char}
    (h : regexBody inClass cs = some (taken, after)) (hescaped : ¬ IsEscaped seen)
    (hset : inClass ↔ IsInSet seen) :
    ∃ body, taken = body ++ ['/'] ∧ ¬ IsGuarded (seen ++ body) ∧
      ∀ u v, body = u ++ '/' :: v → IsGuarded (seen ++ u) := by
  fun_induction regexBody inClass cs generalizing taken after seen with
  | case5 inClass escaped tail hend hback ih =>
    obtain ⟨⟨inner, after'⟩, hinner, heq⟩ := Option.map_eq_some_iff.mp h
    obtain ⟨rfl, rfl⟩ := Prod.mk.inj heq
    -- the pair is passed over, and no bracket in it counts
    have hpair : IsEscaped (seen ++ ['\\']) := isEscaped_concat.mpr ⟨rfl, hescaped⟩
    have hescaped' : ¬ IsEscaped (seen ++ ['\\'] ++ [escaped]) := by
      rw [isEscaped_concat]
      exact fun h => h.2 hpair
    have hset' : inClass ↔ IsInSet (seen ++ ['\\'] ++ [escaped]) := by
      rw [isInSet_concat, isInSet_concat]
      simp [hpair, hset]
    obtain ⟨body, rfl, hclosed, hslashes⟩ := ih hinner hescaped' hset'
    refine ⟨'\\' :: escaped :: body, rfl, by simpa using hclosed, ?_⟩
    refine forall_before_slash_cons.mpr ⟨fun hslash => absurd hslash (by decide), ?_⟩
    exact forall_before_slash_cons.mpr ⟨fun _ => .inl hpair, by simpa using hslashes⟩
  | case6 inClass c tail hend hback hslash =>
    obtain ⟨rfl, rfl⟩ : [c] = taken ∧ tail = after := by simpa using h
    obtain ⟨rfl, hopen⟩ : c = '/' ∧ inClass = false := by simpa using hslash
    refine ⟨[], rfl, ?_, by simp⟩
    rw [List.append_nil]
    rintro (hescaped' | hset')
    · exact hescaped hescaped'
    · rw [hset.mpr hset'] at hopen
      contradiction
  | case7 inClass c tail hend hback hslash ih =>
    obtain ⟨⟨inner, after'⟩, hinner, heq⟩ := Option.map_eq_some_iff.mp h
    obtain ⟨rfl, rfl⟩ := Prod.mk.inj heq
    have hescaped' : ¬ IsEscaped (seen ++ [c]) := by simp [isEscaped_concat, hback]
    have hset' : (c = '[' || inClass && c ≠ ']') ↔ IsInSet (seen ++ [c]) := by
      simp [isInSet_concat, hescaped, hset]
    obtain ⟨body, rfl, hclosed, hslashes⟩ := ih hinner hescaped' hset'
    refine ⟨c :: body, rfl, by simpa using hclosed, ?_⟩
    refine forall_before_slash_cons.mpr ⟨fun hself => .inr ?_, by simpa using hslashes⟩
    rw [List.append_nil, ← hset]
    simpa [hself] using hslash
  | _ => simp at h

theorem regexBody_closed {cs taken after : List Char}
    (h : regexBody false cs = some (taken, after)) :
    ∃ body, taken = body ++ ['/'] ∧ ¬ IsGuarded body ∧
      ∀ u v, body = u ++ '/' :: v → IsGuarded u :=
  @regexBody_guarded false cs taken after [] h not_isEscaped_nil (by simp [not_isInSet_nil])

theorem isWordPart_slash : ¬ isWordPart '/' := by decide +kernel

end Scan

-- A regular expression in its two slashes, with flags behind them.
def IsSlashed (chars : List Char) : Prop :=
  ∃ body flags, chars = '/' :: (body ++ '/' :: flags) ∧ '/' ∉ flags

-- Seen from its end the flags stand before the slash that closes the body.
theorem Regex.reverse_slashed (body : List Char) {flags : List Char} (hflags : '/' ∉ flags) :
    ('/' :: (body ++ '/' :: flags)).reverse.takeWhile (· ≠ '/') = flags.reverse ∧
      ('/' :: (body ++ '/' :: flags)).reverse.dropWhile (· ≠ '/') =
        '/' :: ('/' :: body).reverse := by
  have hreverse : ('/' :: (body ++ '/' :: flags)).reverse =
      flags.reverse ++ '/' :: ('/' :: body).reverse := by simp
  rw [hreverse]
  refine takeWhile_append_stop (fun c hc => ?_) (by simp)
  rw [List.mem_reverse] at hc
  exact decide_eq_true (ne_of_mem_of_not_mem hc hflags)

theorem Regex.splitLiteral_slashed (body : List Char) {flags : List Char} (hflags : '/' ∉ flags) :
    splitLiteral ('/' :: (body ++ '/' :: flags)) = (body, flags) := by
  have hlength : ('/' :: (body ++ '/' :: flags)).length - flags.length - 1 =
      ('/' :: body).length := by
    simp only [List.length_cons, List.length_append]
    omega
  rw [splitLiteral, (reverse_slashed body hflags).1, List.reverse_reverse, hlength,
    ← List.cons_append, List.take_left]
  rfl

theorem Piece.next_regex {c : Char} {rest : List Char} (h : (next c rest).1 = .token .regex) :
    c = '/' ∧ rest.head? ≠ some '/' ∧ ∃ taken after,
      Scan.regexBody false rest = some (taken, after) ∧
      (next c rest).2 =
        ('/' :: (taken ++ after.takeWhile Scan.isWordPart), after.dropWhile Scan.isWordPart) := by
  have hread := reads_next c rest
  generalize next c rest = piece at hread h ⊢
  cases hread with
  | blank | lineComment | blockComment | openComment | openString | slash | stray => contradiction
  | number => exact absurd (PieceKind.token.inj h) (by decide)
  | mark _ hmark =>
    obtain rfl := PieceKind.token.inj h
    exact absurd (of_markKind hmark).1 (by decide)
  | string => exact absurd (PieceKind.token.inj h) (by decide)
  | @regex _ taken after hline _ hbody => exact ⟨rfl, hline, taken, after, hbody, rfl⟩
  | word =>
    have hword := PieceKind.token.inj h
    revert hword
    fun_cases wordKind (c :: rest.takeWhile Scan.isWordPart) <;>
      exact fun hword => absurd hword (by decide)

theorem isSlashed_of_mem_lex {text : List Char} {token : Token} (h : token ∈ (lex text).tokens)
    (hkind : token.kind = .regex) : IsSlashed token.chars := by
  obtain ⟨c, rest, hnext, hchars⟩ := exists_next_of_mem_lex h
  obtain ⟨-, -, taken, after, hbody, hread⟩ := Piece.next_regex (hkind ▸ hnext)
  obtain ⟨body, rfl, -⟩ := Scan.regexBody_closed hbody
  refine ⟨body, after.takeWhile Scan.isWordPart, by rw [hchars, hread]; simp, ?_⟩
  exact fun hmem => absurd (List.mem_takeWhile_imp hmem) Scan.isWordPart_slash

-- What was read as a regular expression: a body up to the first slash that is not
-- guarded, and the word behind that slash.
structure Regex.IsReadAs (chars body flags behind : List Char) : Prop where
  chars_eq : chars = '/' :: (body ++ '/' :: flags)
  regexBody_eq : Scan.regexBody false (body ++ '/' :: (flags ++ behind)) =
    some (body ++ ['/'], flags ++ behind)
  body_ne_nil : body ≠ []
  guarded : ∀ u v, body = u ++ '/' :: v → IsGuarded u
  closed : ¬ IsGuarded body
  isWordPart_flags : ∀ c ∈ flags, Scan.isWordPart c
  ends : ∀ c ∈ behind.head?, ¬ Scan.isWordPart c

-- A regular expression token is cut at the slash that closed its body.
theorem lex_regexes {text : List Char} {token : Token} (h : token ∈ (lex text).tokens)
    (hkind : token.kind = .regex) :
    ∃ before body flags behind, text = before ++ (token.chars ++ behind) ∧
      token.start = byteSize before ∧ Regex.IsReadAs token.chars body flags behind ∧
      Regex.splitLiteral token.chars = (body, flags) := by
  obtain ⟨before, c, rest, htext, hstart, hnext, hchars⟩ := exists_read_of_mem_lex h
  obtain ⟨rfl, hhead, taken, after, hbody, hread⟩ := Piece.next_regex (hkind ▸ hnext)
  obtain ⟨body, rfl, hclosed, hslashes⟩ := Scan.regexBody_closed hbody
  have hjoin := Scan.regexBody_append hbody
  have hword := List.takeWhile_append_dropWhile (p := Scan.isWordPart) (l := after)
  have hflags : ∀ c ∈ after.takeWhile Scan.isWordPart, Scan.isWordPart c :=
    fun c hc => List.mem_takeWhile_imp hc
  have hslash : '/' ∉ after.takeWhile Scan.isWordPart :=
    fun hmem => absurd (hflags _ hmem) Scan.isWordPart_slash
  have htoken : token.chars = '/' :: (body ++ '/' :: after.takeWhile Scan.isWordPart) := by
    rw [hchars, hread]
    simp
  refine ⟨before, body, after.takeWhile Scan.isWordPart, after.dropWhile Scan.isWordPart, ?_,
    hstart, ⟨htoken, ?_, ?_, hslashes, hclosed, hflags, ?_⟩, ?_⟩
  · rw [htext, htoken, ← hjoin]
    simp [hword]
  · rw [hword, ← hbody, ← hjoin]
    simp
  · rintro rfl
    exact hhead (by rw [← hjoin]; rfl)
  · intro c hc
    exact not_of_mem_head?_dropWhile hc
  · rw [htoken, Regex.splitLiteral_slashed body hslash]

-- The slashes behind a backslash and in a set do not close, nor does the bracket
-- behind a backslash.
theorem lex_regexes_guardedSlashes :
    ⟨.regex, 7, "/a\\/[/\\]/]b/i".toList⟩ ∈ (lex "db.c.f(/a\\/[/\\]/]b/i)".toList).tokens ∧
    ∃ before behind, "db.c.f(/a\\/[/\\]/]b/i)".toList =
        before ++ ("/a\\/[/\\]/]b/i".toList ++ behind) ∧
      7 = byteSize before ∧
      Regex.IsReadAs "/a\\/[/\\]/]b/i".toList "a\\/[/\\]/]b".toList ['i'] behind := by
  have hmem : ⟨.regex, 7, "/a\\/[/\\]/]b/i".toList⟩ ∈
      (lex "db.c.f(/a\\/[/\\]/]b/i)".toList).tokens := by decide +kernel
  obtain ⟨before, body, flags, behind, htext, hstart, hread, hcut⟩ := lex_regexes hmem rfl
  have hparts : Regex.splitLiteral "/a\\/[/\\]/]b/i".toList =
      ("a\\/[/\\]/]b".toList, ['i']) := by decide
  obtain ⟨rfl, rfl⟩ := Prod.mk.inj (hcut.symm.trans hparts)
  exact ⟨hmem, before, behind, htext, hstart, hread⟩

end QueryPad
