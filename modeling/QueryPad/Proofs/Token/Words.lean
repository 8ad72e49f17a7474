import Mathlib.Data.List.TakeWhile
import QueryPad.Proofs.Json.Number
import QueryPad.Proofs.Token.Lexer

-- Words that read as one token wherever they stand, and texts that are made of
-- such words.
namespace QueryPad

open Text

-- The characters that a token of the kind would take if they stood behind it.
def TokenKind.takes (kind : TokenKind) (c : Char) : Bool :=
  match kind with
  | .db | .identifier | .boolean | .null | .regex => Scan.isWordPart c
  | .number => isNumberPart c
  | .dot => c.isDigit
  | _ => false

-- A text that may stand behind a token of the kind.
def TokenKind.Ends (kind : TokenKind) (rest : List Char) : Prop :=
  ∀ c ∈ rest.head?, ¬ kind.takes c

-- Characters that are one token of the kind before any such text.
def IsWord (kind : TokenKind) (chars : List Char) : Prop :=
  ∀ rest, kind.Ends rest → ∃ c more, chars = c :: more ∧
    Piece.next c (more ++ rest) = (.token kind, chars, rest)

namespace Scan

-- A closed string is closed by its own quote, whatever stands behind it.
theorem quoted_append_eq {quote : Char} {cs taken after : List Char}
    (h : quoted quote cs = (true, taken, after)) (rest : List Char) :
    quoted quote (taken ++ rest) = (true, taken, rest) := by
  fun_induction quoted quote cs generalizing taken after with
  | case2 tail =>
    obtain ⟨rfl, rfl⟩ : [quote] = taken ∧ tail = after := by simpa using h
    unfold quoted
    simp
  | case5 c tail closed inner after' hinner hquote hline ih =>
    obtain ⟨rfl, rfl, rfl⟩ : closed = true ∧ '\\' :: c :: inner = taken ∧ after' = after := by
      simpa using h
    unfold quoted
    simp only [List.cons_append, if_neg hquote, if_neg hline, ih hinner]
    rfl
  | case6 c tail hquote hline hback closed inner after' hinner ih =>
    obtain ⟨rfl, rfl, rfl⟩ : closed = true ∧ c :: inner = taken ∧ after' = after := by
      simpa using h
    unfold quoted
    simp only [List.cons_append, if_neg hquote, if_neg hline, if_neg hback, ih hinner]
  | _ => simp at h

theorem regexBody_append_eq {inClass : Bool} {cs taken after : List Char}
    (h : regexBody inClass cs = some (taken, after)) (rest : List Char) :
    regexBody inClass (taken ++ rest) = some (taken, rest) := by
  fun_induction regexBody inClass cs generalizing taken after with
  | case5 inClass escaped tail hescaped hback ih =>
    obtain ⟨⟨inner, after'⟩, hinner, heq⟩ := Option.map_eq_some_iff.mp h
    obtain ⟨rfl, rfl⟩ := Prod.mk.inj heq
    unfold regexBody
    simp only [List.cons_append, if_neg hback, if_neg hescaped, ih hinner]
    rfl
  | case6 inClass c tail hline hback hslash =>
    obtain ⟨rfl, rfl⟩ : [c] = taken ∧ tail = after := by simpa using h
    unfold regexBody
    simp only [List.cons_append, List.nil_append, if_neg hline, if_neg hback, if_pos hslash]
  | case7 inClass c tail hline hback hslash ih =>
    obtain ⟨⟨inner, after'⟩, hinner, heq⟩ := Option.map_eq_some_iff.mp h
    obtain ⟨rfl, rfl⟩ := Prod.mk.inj heq
    unfold regexBody
    simp only [List.cons_append, if_neg hline, if_neg hback, if_neg hslash, ih hinner]
    rfl
  | _ => simp at h

theorem regexBody_ne_nil {inClass : Bool} {cs taken after : List Char}
    (h : regexBody inClass cs = some (taken, after)) : taken ≠ [] := by
  rintro rfl
  have hnone := regexBody_append_eq h []
  contradiction

section Number

variable {rest : List Char}

theorem optionalChar_of_not {accepts : Char → Bool} (h : ∀ c ∈ rest.head?, ¬ accepts c) :
    optionalChar accepts rest = ([], rest) := by
  cases rest with
  | nil => rfl
  | cons c rest => rw [optionalChar, if_neg (h c rfl)]

theorem optionalChar_append_eq {accepts : Char → Bool} (cs : List Char)
    (h : (optionalChar accepts cs).1 = [] → ∀ c ∈ rest.head?, ¬ accepts c) :
    optionalChar accepts ((optionalChar accepts cs).1 ++ rest) =
      ((optionalChar accepts cs).1, rest) := by
  fun_cases optionalChar accepts cs with
  | case1 => exact optionalChar_of_not (h rfl)
  | case2 c tail haccepts =>
    rw [List.cons_append, optionalChar, if_pos haccepts]
    rfl
  | case3 c tail haccepts =>
    rw [optionalChar, if_neg haccepts] at h
    exact optionalChar_of_not (h rfl)

-- A fraction as its digits are read.
theorem fraction_point {inner ds after : List Char} (h : digits inner = (ds, after))
    (hne : ds ≠ []) : fraction ('.' :: inner) = ('.' :: ds, after) := by
  rw [fraction, h]
  split
  · next heq => exact (hne (Prod.mk.inj heq).1).elim
  · next heq =>
    obtain ⟨rfl, rfl⟩ := Prod.mk.inj heq
    rfl

theorem fraction_point_nil {inner after : List Char} (h : digits inner = ([], after)) :
    fraction ('.' :: inner) = ([], '.' :: inner) := by
  rw [fraction, h]

-- An exponent as its sign and its digits are read.
theorem exponent_eq {e : Char} {inner sign unsigned ds after : List Char}
    (he : e = 'e' || e = 'E')
    (hsign : optionalChar (fun c => c = '+' || c = '-') inner = (sign, unsigned))
    (hds : digits unsigned = (ds, after)) (hne : ds ≠ []) :
    exponent (e :: inner) = (e :: sign ++ ds, after) := by
  rw [exponent, if_pos he, hsign]
  dsimp only
  rw [hds]
  split
  · next heq => exact (hne (Prod.mk.inj heq).1).elim
  · next heq =>
    obtain ⟨rfl, rfl⟩ := Prod.mk.inj heq
    rfl

theorem exponent_eq_nil {e : Char} {inner : List Char}
    (hds : (digits (optionalChar (fun c => c = '+' || c = '-') inner).2).1 = []) :
    exponent (e :: inner) = ([], e :: inner) := by
  cases hread : digits (optionalChar (fun c => c = '+' || c = '-') inner).2 with
  | mk ds after =>
    rw [hread] at hds
    obtain rfl := hds
    rw [exponent]
    split
    · dsimp only
      rw [hread]
    · rfl

theorem isDigit_digits (cs : List Char) : ∀ c ∈ (digits cs).1, c.isDigit :=
  fun _ hc => List.mem_takeWhile_imp hc

theorem fraction_of_not (h : ∀ c ∈ rest.head?, c ≠ '.') : fraction rest = ([], rest) := by
  cases rest with
  | nil => rfl
  | cons c rest =>
    rw [fraction]
    rintro _ heq
    exact h c rfl (List.cons.inj heq).1

theorem fraction_append_eq (cs : List Char) (hrest : ∀ c ∈ rest.head?, ¬ c.isDigit ∧ c ≠ '.') :
    fraction ((fraction cs).1 ++ rest) = ((fraction cs).1, rest) := by
  fun_cases fraction cs with
  | case2 tail ds left hne hdigits =>
    have hds := isDigit_digits tail
    rw [hdigits] at hds
    exact fraction_point (digits_append_eq hds fun c hc => (hrest c hc).1) hne
  | _ => exact fraction_of_not fun c hc => (hrest c hc).2

theorem exponent_of_not (h : ∀ c ∈ rest.head?, ¬ (c = 'e' ∨ c = 'E')) :
    exponent rest = ([], rest) := by
  cases rest with
  | nil => rfl
  | cons c rest => rw [exponent, if_neg (by simpa using h c rfl)]

theorem exponent_append_eq (cs : List Char) (hrest : EndsNumber rest) :
    exponent ((exponent cs).1 ++ rest) = ((exponent cs).1, rest) := by
  have hnone : exponent rest = ([], rest) := exponent_of_not fun c hc he =>
    hrest c hc (by rcases he with rfl | rfl <;> rfl)
  fun_cases exponent cs with
  | case3 e tail he sign unsigned hsign ds left hne hdigits =>
    have hds := isDigit_digits unsigned
    rw [hdigits] at hds
    have hread := digits_append_eq hds fun c hc hdigit =>
      hrest c hc (by simp [isNumberPart, hdigit])
    -- behind the sign stands a digit, which is no second sign
    have hunsigned : ∀ c ∈ (ds ++ rest).head?, ¬ (c = '+' || c = '-') := by
      obtain ⟨d, more, rfl⟩ := List.exists_cons_of_ne_nil hne
      intro c hc
      obtain rfl : d = c := Option.some.inj hc
      have hd := hds d (by simp)
      intro hsecond
      rcases (by simpa using hsecond : d = '+' ∨ d = '-') with rfl | rfl <;>
        exact absurd hd (by decide)
    have hsigned := optionalChar_append_eq tail fun _ => hunsigned
    rw [hsign] at hsigned
    rw [List.append_assoc]
    exact exponent_eq he hsigned hread hne
  | _ => exact hnone

theorem head?_fraction (cs : List Char) : ∀ c ∈ (fraction cs).1.head?, c = '.' := by
  fun_cases fraction cs <;> simp

theorem head?_exponent (cs : List Char) : ∀ c ∈ (exponent cs).1.head?, c = 'e' ∨ c = 'E' := by
  fun_cases exponent cs <;> simp_all

theorem head?_append_cases {c : Char} {a b : List Char} (h : c ∈ (a ++ b).head?) :
    c ∈ a.head? ∨ a = [] ∧ c ∈ b.head? := by
  cases a with
  | nil => exact .inr ⟨rfl, h⟩
  | cons => exact .inl h

theorem head?_exponent_append (cs : List Char) (hrest : EndsNumber rest) :
    ∀ c ∈ ((exponent cs).1 ++ rest).head?, ¬ c.isDigit ∧ c ≠ '.' := by
  intro c hc
  rcases head?_append_cases hc with hexponent | ⟨_, hc⟩
  · rcases head?_exponent cs c hexponent with rfl | rfl <;> decide
  · have hend := hrest c hc
    simp only [isNumberPart, Bool.or_eq_true, decide_eq_true_eq, not_or] at hend
    exact ⟨hend.1.1.1, hend.1.1.2⟩

theorem head?_fraction_append (cs : List Char) (hrest : ∀ c ∈ rest.head?, ¬ c.isDigit) :
    ∀ c ∈ ((fraction cs).1 ++ rest).head?, ¬ c.isDigit := by
  intro c hc
  rcases head?_append_cases hc with hfraction | ⟨_, hc⟩
  · obtain rfl := head?_fraction cs c hfraction
    decide
  · exact hrest c hc

-- Behind the sign a number begins with a digit, a point or the mark of an exponent.
theorem isNumberPart_head? (cs₁ cs₂ cs₃ : List Char) :
    ∀ c ∈ ((digits cs₁).1 ++ ((fraction cs₂).1 ++ (exponent cs₃).1)).head?, isNumberPart c := by
  intro c hc
  rcases head?_append_cases hc with hwhole | ⟨_, hc⟩
  · have hdigit := isDigit_digits cs₁ c (List.mem_of_mem_head? hwhole)
    simp [isNumberPart, hdigit]
  · rcases head?_append_cases hc with hfraction | ⟨_, hexponent⟩
    · obtain rfl := head?_fraction cs₂ c hfraction
      rfl
    · rcases head?_exponent cs₃ c hexponent with rfl | rfl <;> rfl

-- A number that is not empty is read whatever stands behind it.
theorem number_append_eq (cs : List Char) (hne : (number cs).1 ≠ []) (hrest : EndsNumber rest) :
    number ((number cs).1 ++ rest) = ((number cs).1, rest) := by
  obtain ⟨cs₁, cs₂, cs₃, hchars⟩ : ∃ cs₁ cs₂ cs₃, (number cs).1 =
      (optionalChar (· = '-') cs).1 ++ (digits cs₁).1 ++ (fraction cs₂).1 ++ (exponent cs₃).1 :=
    ⟨_, _, _, rfl⟩
  rw [List.append_assoc, List.append_assoc] at hchars
  have hpower := head?_exponent_append cs₃ hrest
  have hpoint := head?_fraction_append cs₂ fun c hc => (hpower c hc).1
  have hfirst : (optionalChar (· = '-') cs).1 = [] → ∀ c ∈
      ((digits cs₁).1 ++ ((fraction cs₂).1 ++ ((exponent cs₃).1 ++ rest))).head?, c ≠ '-' := by
    rintro hnone c hc rfl
    rw [hchars, hnone, List.nil_append] at hne
    rw [← List.append_assoc (fraction cs₂).1, ← List.append_assoc] at hc
    rcases head?_append_cases hc with hhead | ⟨hnil, _⟩
    · exact absurd (isNumberPart_head? cs₁ cs₂ cs₃ '-' hhead) (by decide)
    · exact hne hnil
  have hsigned : optionalChar (· = '-') ((optionalChar (· = '-') cs).1 ++
      ((digits cs₁).1 ++ ((fraction cs₂).1 ++ ((exponent cs₃).1 ++ rest)))) =
        ((optionalChar (· = '-') cs).1,
          (digits cs₁).1 ++ ((fraction cs₂).1 ++ ((exponent cs₃).1 ++ rest))) :=
    optionalChar_append_eq cs fun hnone c hc => by simpa using hfirst hnone c hc
  have hwhole := digits_append_eq (isDigit_digits cs₁) hpoint
  have hpointed := fraction_append_eq cs₂ hpower
  have hraised := exponent_append_eq cs₃ hrest
  rw [hchars, number]
  simp only [List.append_assoc, hsigned, hwhole, hpointed, hraised]

end Number

end Scan

-- What is checked for all codes of some ranges holds of the characters in them.
theorem CodeRanges.forall_of_holds {ranges : CodeRanges} {holds : Char → Prop} {c : Char}
    (hc : ranges.holds c) (h : ∀ range ∈ ranges,
      ∀ code ∈ List.range' range.1 (range.2 + 1 - range.1), holds (Char.ofNat code)) : holds c := by
  obtain ⟨range, hrange, hinside⟩ := List.any_eq_true.mp hc
  obtain ⟨hlow, hhigh⟩ : range.1 ≤ c.toNat ∧ c.toNat ≤ range.2 := by simpa using hinside
  have hcode := h range hrange c.toNat (List.mem_range'_1.mpr ⟨hlow, by omega⟩)
  rwa [Char.ofNat_toNat] at hcode

section Characters

variable {c : Char}

theorem of_isBlank (h : isBlank c) : Scan.isWordStart c = false ∧
    Scan.isWordPart c = false ∧ isNumberPart c = false :=
  @CodeRanges.forall_of_holds _
    (fun c => Scan.isWordStart c = false ∧ Scan.isWordPart c = false ∧ isNumberPart c = false) c h
    (by decide +kernel)

theorem isBlank_of_isLineTerminator (h : isLineTerminator c) : isBlank c := by
  simp only [isLineTerminator, Bool.or_eq_true, decide_eq_true_eq] at h
  rcases h with ((rfl | rfl) | rfl) | rfl <;> decide +kernel

theorem of_isDigit (h : c.isDigit) : Scan.isWordStart c = false ∧ isBlank c = false := by
  refine @CodeRanges.forall_of_holds [(48, 57)]
    (fun c => Scan.isWordStart c = false ∧ isBlank c = false) c ?_ (by decide +kernel)
  simpa [CodeRanges.holds] using Char.isDigit_iff_toNat.mp h

-- No token takes a blank.
theorem TokenKind.takes_of_isBlank (kind : TokenKind) (h : isBlank c) : kind.takes c = false := by
  obtain ⟨_, hpart, hnumber⟩ := of_isBlank h
  have hdigit : c.isDigit = false := by
    simp only [isNumberPart, Bool.or_eq_false_iff] at hnumber
    exact hnumber.1.1.1
  cases kind <;> simp [takes, hpart, hnumber, hdigit]

end Characters

namespace Piece

variable {c : Char} {rest : List Char}

theorem plain_of_beginsNumber (h : beginsNumber c rest) : isBlank c = false ∧ c ≠ '/' := by
  simp only [beginsNumber, Bool.or_eq_true, Bool.and_eq_true, decide_eq_true_eq] at h
  rcases h with (hdigit | ⟨rfl, _⟩) | ⟨rfl, _⟩
  · refine ⟨(of_isDigit hdigit).2, ?_⟩
    rintro rfl
    contradiction
  · decide +kernel
  · decide +kernel

theorem plain_of_markKind {kind : TokenKind} (h : markKind c = some kind) :
    isBlank c = false ∧ c ≠ '/' := by
  unfold markKind at h
  split at h
  case h_11 => contradiction
  all_goals decide +kernel

theorem plain_of_quote (rest : List Char) (h : c = '\'' ∨ c = '"') :
    isBlank c = false ∧ c ≠ '/' ∧ beginsNumber c rest = false ∧ markKind c = none := by
  have hblank : isBlank '\'' = false ∧ isBlank '"' = false := by decide +kernel
  rcases h with rfl | rfl
  · exact ⟨hblank.1, by decide, rfl, rfl⟩
  · exact ⟨hblank.2, by decide, rfl, rfl⟩

theorem plain_of_isWordStart (rest : List Char) (h : Scan.isWordStart c) :
    isBlank c = false ∧ c ≠ '/' ∧ beginsNumber c rest = false ∧ markKind c = none ∧
      ¬ (c = '\'' ∨ c = '"') := by
  have hne : ∀ other, Scan.isWordStart other = false → c ≠ other := by
    rintro other hother rfl
    exact absurd h (by simp [hother])
  have hblank : ¬ isBlank c := fun hblank => by simp [(of_isBlank hblank).1] at h
  have hdigit : ¬ c.isDigit := fun hdigit => by simp [(of_isDigit hdigit).1] at h
  have hmark : markKind c = none := by
    rw [markKind] <;> exact hne _ (by decide)
  refine ⟨by simpa using hblank, hne '/' (by decide), ?_, hmark, ?_⟩
  · simp [beginsNumber, hdigit, hne '.' (by decide), hne '-' (by decide)]
  · simp [hne '\'' (by decide), hne '"' (by decide)]

-- No two of the cases are open to one text, so what may be read is read.
theorem Reads.next_eq {piece : PieceKind × List Char × List Char} (h : Reads c rest piece) :
    next c rest = piece := by
  have hslash : isBlank '/' = false := by decide +kernel
  have hnumber (rest : List Char) : beginsNumber '/' rest = false := rfl
  have hmark : markKind '/' = none := rfl
  cases h with
  | blank _ hblank => simp [next, hblank]
  | lineComment line =>
    have hplain : (!isLineTerminator '/') = true := by decide
    simp [next, hslash, List.takeWhile_cons_of_pos, List.dropWhile_cons_of_pos, hplain]
  | blockComment hbody | openComment hbody => simp [next, hslash, hbody]
  | number hbegins => simp [next, plain_of_beginsNumber hbegins, hbegins]
  | mark hbegins hmark => simp [next, plain_of_markKind hmark, hbegins, hmark]
  | string hquote hbody | openString hquote hbody =>
    simp [next, plain_of_quote rest hquote, hquote, hbody]
  | regex hline hblock hbody => simp [next, hslash, hnumber, hmark, hline, hblock, hbody]
  | slash hline hblock hbody => simp [next, hslash, hnumber, hmark, hline, hblock, hbody]
  | word _ hstart => simp [next, plain_of_isWordStart rest hstart, hstart]
  | stray hblank hslash hbegins hmark hquote hstart =>
    simp [next, hblank, hslash, hbegins, hmark, hquote, hstart]
theorem next_of_isBlank (h : isBlank c) :
    next c rest = (.blank, c :: rest.takeWhile isBlank, rest.dropWhile isBlank) :=
  (Reads.blank rest h).next_eq

theorem takes_wordKind (chars : List Char) : (wordKind chars).takes = Scan.isWordPart := by
  fun_cases wordKind chars <;> rfl

end Piece

theorem isWord_word {c : Char} {more : List Char} (hc : Scan.isWordStart c)
    (hmore : ∀ d ∈ more, Scan.isWordPart d) : IsWord (Piece.wordKind (c :: more)) (c :: more) := by
  intro rest hrest
  rw [TokenKind.Ends, Piece.takes_wordKind] at hrest
  obtain ⟨htaken, hleft⟩ := takeWhile_append_stop hmore hrest
  exact ⟨c, more, rfl, by rw [(Piece.Reads.word (more ++ rest) hc).next_eq, htaken, hleft]⟩

theorem isWord_db : IsWord .db ['d', 'b'] :=
  @isWord_word 'd' ['b'] (by decide) (List.all_eq_true.mp (by decide))

theorem isWord_mark {c : Char} {kind : TokenKind} (h : Piece.markKind c = some kind) :
    IsWord kind [c] := by
  have hplain : c.isDigit = false ∧ c ≠ '-' ∧ (c = '.' → kind = .dot) := by
    unfold Piece.markKind at h
    split at h
    case h_11 => contradiction
    all_goals
      obtain rfl := Option.some.inj h
      decide
  obtain ⟨hdigit, hminus, hdot⟩ := hplain
  intro rest hrest
  have hnumber : ¬ Piece.beginsNumber c rest := by
    simp only [Piece.beginsNumber, hdigit, hminus, decide_false, Bool.false_and, Bool.or_false,
      Bool.false_or, Bool.and_eq_true, decide_eq_true_eq]
    rintro ⟨hpoint, hfraction⟩
    obtain rfl := hdot hpoint
    cases rest with
    | nil => contradiction
    | cons d rest => exact hrest d rfl hfraction
  exact ⟨c, [], rfl, (Piece.Reads.mark hnumber h).next_eq⟩

theorem isWord_quoted {quote : Char} {cs taken after : List Char}
    (hquote : quote = '\'' ∨ quote = '"') (h : Scan.quoted quote cs = (true, taken, after)) :
    IsWord .string (quote :: taken) := by
  intro rest _
  have hread := Scan.quoted_append_eq h rest
  exact ⟨quote, taken, rfl, (Piece.Reads.string hquote hread).next_eq⟩

theorem isWord_regex {cs body after flags : List Char} (hline : cs.head? ≠ some '/')
    (hblock : cs.head? ≠ some '*') (h : Scan.regexBody false cs = some (body, after))
    (hflags : ∀ c ∈ flags, Scan.isWordPart c) : IsWord .regex ('/' :: body ++ flags) := by
  intro rest hrest
  obtain ⟨htaken, hleft⟩ := takeWhile_append_stop hflags hrest
  have hread := Scan.regexBody_append_eq h (flags ++ rest)
  have hhead : (body ++ (flags ++ rest)).head? = cs.head? := by
    have hjoin := Scan.regexBody_append h
    obtain ⟨c, inner, rfl⟩ := List.exists_cons_of_ne_nil (Scan.regexBody_ne_nil h)
    rw [← hjoin]
    rfl
  rw [← hhead] at hline hblock
  refine ⟨'/', body ++ flags, rfl, ?_⟩
  rw [List.append_assoc, (Piece.Reads.regex hline hblock hread).next_eq, htaken, hleft]

theorem isWord_number {c : Char} {cs : List Char} (h : Piece.beginsNumber c cs)
    (hsign : (Scan.number (c :: cs)).1 ≠ ['-']) : IsWord .number (Scan.number (c :: cs)).1 := by
  intro rest hrest
  have hne := Piece.number_taken_ne_nil h
  have hread := Scan.number_append_eq (c :: cs) hne hrest
  have hjoin := Scan.number_append (c :: cs)
  obtain ⟨first, more, htaken⟩ := List.exists_cons_of_ne_nil hne
  rw [htaken] at hread hjoin hsign ⊢
  obtain ⟨rfl, hcs⟩ := List.cons.inj hjoin
  -- behind a point or a sign the next character is the number's own
  have hbegins : Piece.beginsNumber first (more ++ rest) := by
    cases more with
    | nil =>
      have halone : Scan.number ((Scan.number (first :: cs)).1 ++ []) =
          ((Scan.number (first :: cs)).1, []) :=
        Scan.number_append_eq (first :: cs) hne (by simp [EndsNumber])
      rw [htaken] at halone
      simp only [Piece.beginsNumber, Bool.or_eq_true, Bool.and_eq_true, decide_eq_true_eq] at h ⊢
      rcases h with (hdigit | ⟨rfl, _⟩) | ⟨rfl, _⟩
      · exact .inl (.inl hdigit)
      · contradiction
      · contradiction
    | cons d more =>
      rw [← hcs] at h
      exact h
  rw [List.cons_append] at hread
  exact ⟨first, more, rfl, by rw [(Piece.Reads.number hbegins).next_eq, hread]⟩

-- A name that is no keyword.
def IsIdentifier (name : String) : Prop :=
  (∃ c more, name.toList = c :: more ∧ Scan.isWordStart c ∧ ∀ d ∈ more, Scan.isWordPart d) ∧
    name ∉ ["db", "true", "false", "null"]

theorem IsIdentifier.isWord {name : String} (h : IsIdentifier name) :
    IsWord .identifier name.toList := by
  obtain ⟨⟨c, more, hname, hc, hmore⟩, hkeyword⟩ := h
  have hword := isWord_word hc hmore
  rw [← hname] at hword
  have hkind : Piece.wordKind name.toList = .identifier := by
    rw [Piece.wordKind, String.ofList_toList]
    split <;> simp at hkeyword
    rfl
  rwa [hkind] at hword

theorem Scan.isWordPart_of_isWordStart {c : Char} (h : isWordStart c) : isWordPart c := by
  simp only [isWordStart, Bool.or_eq_true] at h
  simp only [isWordPart, Bool.or_eq_true]
  exact h.imp_left (Or.imp_left isLetterOrNumber_of_isLetter)

theorem IsIdentifier.isWordPart {name : String} (h : IsIdentifier name) :
    ∀ c ∈ name.toList, Scan.isWordPart c := by
  obtain ⟨⟨c, more, hname, hc, hmore⟩, _⟩ := h
  rw [hname]
  exact List.forall_mem_cons.mpr ⟨Scan.isWordPart_of_isWordStart hc, hmore⟩

theorem IsIdentifier.isEmpty_eq {name : String} (h : IsIdentifier name) : name.isEmpty = false := by
  obtain ⟨⟨c, more, hname, _⟩, _⟩ := h
  rw [String.isEmpty_eq_false_iff]
  rintro rfl
  contradiction

-- What is read as a token is a word, but for a sign without a number.
theorem isWord_of_next {c : Char} {rest : List Char} {kind : TokenKind}
    (h : (Piece.next c rest).1 = .token kind) (hsign : (Piece.next c rest).2.1 ≠ ['-']) :
    IsWord kind (Piece.next c rest).2.1 := by
  have hread := Piece.reads_next c rest
  generalize Piece.next c rest = piece at hread h hsign ⊢
  cases hread with
  | blank | lineComment | blockComment | openComment | openString | slash | stray => contradiction
  | number hbegins => exact PieceKind.token.inj h ▸ isWord_number hbegins hsign
  | mark _ hmark => exact PieceKind.token.inj h ▸ isWord_mark hmark
  | string hquote hbody => exact PieceKind.token.inj h ▸ isWord_quoted hquote hbody
  | regex hline hblock hbody =>
    exact PieceKind.token.inj h ▸
      isWord_regex hline hblock hbody fun _ hc => List.mem_takeWhile_imp hc
  | word _ hstart =>
    exact PieceKind.token.inj h ▸ isWord_word hstart fun _ hc => List.mem_takeWhile_imp hc

-- A token without its place.
def Token.word (token : Token) : TokenKind × List Char := (token.kind, token.chars)

-- Words one behind the other, with blanks between them where they need some and
-- elsewhere as one likes.
inductive Spells : List (TokenKind × List Char) → List Char → Prop where
  | done : Spells [] []
  | blank {c : Char} {words : List (TokenKind × List Char)} {text : List Char} (hc : isBlank c)
      (tail : Spells words text) : Spells words (c :: text)
  | word {kind : TokenKind} {chars : List Char} {words : List (TokenKind × List Char)}
      {text : List Char} (hword : IsWord kind chars) (hends : kind.Ends text)
      (tail : Spells words text) : Spells ((kind, chars) :: words) (chars ++ text)

namespace Spells

variable {words : List (TokenKind × List Char)} {text : List Char}

theorem dropBlanks (h : Spells words text) : Spells words (text.dropWhile isBlank) := by
  induction h with
  | done => exact .done
  | blank hc tail ih => rwa [List.dropWhile_cons_of_pos hc]
  | @word kind chars words text hword hends tail _ =>
    obtain ⟨c, more, rfl, hnext⟩ := hword text hends
    have hc : ¬ isBlank c := by
      intro hblank
      rw [Piece.next_of_isBlank hblank] at hnext
      simp at hnext
    rw [List.cons_append, List.dropWhile_cons_of_neg hc]
    exact .word hword hends tail

theorem eq_nil (h : Spells words []) : words = [] := by
  generalize htext : [] = text at h
  cases h with
  | done => rfl
  | blank => contradiction
  | @word kind chars words text hword hends =>
    obtain ⟨c, more, rfl, _⟩ := hword text hends
    contradiction

theorem cons {c : Char} (h : Spells words (c :: text)) :
    isBlank c ∧ Spells words text ∨
      ∃ kind chars rest words', Piece.next c text = (.token kind, chars, rest) ∧
        words = (kind, chars) :: words' ∧ Spells words' rest := by
  generalize htext : c :: text = whole at h
  cases h with
  | done => contradiction
  | blank hc tail =>
    obtain ⟨rfl, rfl⟩ := List.cons.inj htext
    exact .inl ⟨hc, tail⟩
  | @word kind chars words' rest hword hends tail =>
    obtain ⟨first, more, rfl, hnext⟩ := hword rest hends
    obtain ⟨rfl, rfl⟩ := List.cons.inj htext
    exact .inr ⟨kind, _, rest, words', hnext, rfl, tail⟩

theorem pieces (h : Spells words text) (start : Nat) :
    ((piecesFrom start text).filterMap Piece.token?).map Token.word = words ∧
      (piecesFrom start text).filterMap Piece.report? = [] := by
  fun_induction piecesFrom start text generalizing words with
  | case1 => exact ⟨h.eq_nil.symm, rfl⟩
  | case2 start c rest ih =>
    rcases h.cons with ⟨hc, tail⟩ | ⟨kind, chars, after, words', hnext, rfl, tail⟩
    · rw [Piece.next_of_isBlank hc] at ih ⊢
      exact ih tail.dropBlanks
    · rw [hnext] at ih ⊢
      obtain ⟨htokens, hreports⟩ := ih tail
      exact ⟨congrArg (List.cons (kind, chars)) htokens, hreports⟩

-- Such a text is read as its words.
theorem lex (h : Spells words text) :
    (lex text).tokens.map Token.word = words ∧ (lex text).reports = [] := h.pieces 0

end Spells

end QueryPad
