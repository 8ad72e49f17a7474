import QueryPad.Proofs.Token.Prefixes

-- What a numeral is, and that a number token is the longest numeral of the text
-- where it begins, but for a minus that stands before a mere point.
namespace QueryPad

open Text

def IsDigits (cs : List Char) : Prop := cs ≠ [] ∧ ∀ c ∈ cs, c.isDigit

-- Digits, with a point between them or in front of them.
inductive IsMagnitude : List Char → Prop where
  | whole {ds : List Char} (hds : IsDigits ds) : IsMagnitude ds
  | pointed {ds fs : List Char} (hds : IsDigits ds) (hfs : IsDigits fs) :
      IsMagnitude (ds ++ '.' :: fs)
  | fraction {fs : List Char} (hfs : IsDigits fs) : IsMagnitude ('.' :: fs)

-- The exponent of a numeral, if it has one.
inductive IsPower : List Char → Prop where
  | none : IsPower []
  | some {e : Char} {sign ds : List Char} (he : e = 'e' ∨ e = 'E')
      (hsign : sign = [] ∨ sign = ['+'] ∨ sign = ['-']) (hds : IsDigits ds) :
      IsPower (e :: (sign ++ ds))

inductive IsNumeral : List Char → Prop where
  | of {sign magnitude power : List Char} (hsign : sign = [] ∨ sign = ['-'])
      (hmagnitude : IsMagnitude magnitude) (hpower : IsPower power) :
      IsNumeral (sign ++ (magnitude ++ power))

-- A text that begins with a minus and a point that no digit follows.
def IsLoneSign (text : List Char) : Prop :=
  ∃ behind, text = '-' :: '.' :: behind ∧ ∀ c ∈ behind.head?, ¬ c.isDigit

theorem IsDigits.head? {ds : List Char} (h : IsDigits ds) (rest : List Char) :
    ∀ c ∈ (ds ++ rest).head?, c.isDigit := by
  obtain ⟨d, more, rfl⟩ := List.exists_cons_of_ne_nil h.1
  intro c hc
  obtain rfl := Option.some.inj hc
  exact h.2 d List.mem_cons_self

theorem IsMagnitude.exists_isDigit {magnitude : List Char} (h : IsMagnitude magnitude) :
    ∃ c ∈ magnitude, c.isDigit := by
  cases h with
  | whole hds =>
    obtain ⟨d, hd⟩ := List.exists_mem_of_ne_nil _ hds.1
    exact ⟨d, hd, hds.2 d hd⟩
  | pointed _ hfs | fraction hfs =>
    obtain ⟨d, hd⟩ := List.exists_mem_of_ne_nil _ hfs.1
    exact ⟨d, by simp [hd], hfs.2 d hd⟩

theorem IsNumeral.exists_isDigit {numeral : List Char} (h : IsNumeral numeral) :
    ∃ c ∈ numeral, c.isDigit := by
  obtain ⟨_, hmagnitude, _⟩ := h
  obtain ⟨c, hc, hdigit⟩ := hmagnitude.exists_isDigit
  exact ⟨c, by simp [hc], hdigit⟩

-- Behind a sign a magnitude begins with a digit or a point.
theorem IsMagnitude.head? {magnitude : List Char} (h : IsMagnitude magnitude) (rest : List Char) :
    ∀ c ∈ (magnitude ++ rest).head?, c.isDigit ∨ c = '.' := by
  cases h with
  | whole hds => exact fun c hc => .inl (hds.head? rest c hc)
  | pointed hds hfs =>
    rw [List.append_assoc]
    exact fun c hc => .inl (hds.head? _ c hc)
  | fraction hfs => exact fun c hc => .inr (Option.some.inj hc).symm

namespace Scan

variable {rest : List Char}

-- The digits, and behind them the fraction.
def magnitude (cs : List Char) : List Char × List Char :=
  ((digits cs).1 ++ (fraction (digits cs).2).1, (fraction (digits cs).2).2)

theorem number_eq (cs : List Char) : number cs =
    ((optionalChar (· = '-') cs).1 ++ ((magnitude (optionalChar (· = '-') cs).2).1 ++
      (exponent (magnitude (optionalChar (· = '-') cs).2).2).1),
      (exponent (magnitude (optionalChar (· = '-') cs).2).2).2) := by
  simp [number, magnitude]

theorem digits_of_not (h : ∀ c ∈ rest.head?, ¬ c.isDigit) : digits rest = ([], rest) :=
  @digits_append_eq [] rest (by simp) h

section Longest

theorem digits_extends {ds : List Char} (hds : ∀ c ∈ ds, c.isDigit) (rest : List Char) :
    digits (ds ++ rest) = (ds ++ (digits rest).1, (digits rest).2) := by
  simp [digits, List.takeWhile_append_of_pos hds, List.dropWhile_append_of_pos hds]

theorem fraction_extends {fs : List Char} (hfs : IsDigits fs) (rest : List Char) :
    fraction ('.' :: (fs ++ rest)) = ('.' :: (fs ++ (digits rest).1), (digits rest).2) :=
  fraction_point (digits_extends hfs.2 rest) (by simp [hfs.1])

-- A magnitude is taken, and no more than it unless more digits stand behind it.
theorem magnitude_extends {taken : List Char} (h : IsMagnitude taken) (rest : List Char) :
    ∃ more after, magnitude (taken ++ rest) = (taken ++ more, after) ∧
      ((∀ c ∈ rest.head?, ¬ c.isDigit ∧ c ≠ '.') → more = [] ∧ after = rest) := by
  have hnone : (∀ c ∈ rest.head?, ¬ c.isDigit ∧ c ≠ '.') → digits rest = ([], rest) :=
    fun hrest => digits_of_not fun c hc => (hrest c hc).1
  cases h with
  | whole hds =>
    refine ⟨(digits rest).1 ++ (fraction (digits rest).2).1, (fraction (digits rest).2).2, ?_, ?_⟩
    · rw [magnitude, digits_extends hds.2, List.append_assoc]
    · intro hrest
      rw [hnone hrest, fraction_of_not fun c hc => (hrest c hc).2]
      exact ⟨rfl, rfl⟩
  | @pointed ds fs hds hfs =>
    refine ⟨(digits rest).1, (digits rest).2, ?_, fun hrest => ?_⟩
    · have hwhole : digits (ds ++ '.' :: (fs ++ rest)) = (ds, '.' :: (fs ++ rest)) :=
        digits_append_eq hds.2 (by simp)
      rw [List.append_assoc, List.cons_append, magnitude, hwhole, fraction_extends hfs]
      simp
    · rw [hnone hrest]
      exact ⟨rfl, rfl⟩
  | @fraction fs hfs =>
    refine ⟨(digits rest).1, (digits rest).2, ?_, fun hrest => ?_⟩
    · have hwhole : digits ('.' :: (fs ++ rest)) = ([], '.' :: (fs ++ rest)) :=
        digits_of_not (by simp)
      rw [List.cons_append, magnitude, hwhole, fraction_extends hfs]
      simp
    · rw [hnone hrest]
      exact ⟨rfl, rfl⟩

theorem exponent_extends {power : List Char} (h : IsPower power) (rest : List Char) :
    power <+: (exponent (power ++ rest)).1 := by
  cases h with
  | none => exact List.nil_prefix
  | @some e sign ds he hsign hds =>
    have hsigned : optionalChar (fun c => c = '+' || c = '-') (sign ++ (ds ++ rest)) =
        (sign, ds ++ rest) := by
      rcases hsign with rfl | rfl | rfl
      · refine optionalChar_of_not fun c hc hsecond => ?_
        have hdigit := hds.head? rest c hc
        rcases (by simpa using hsecond : c = '+' ∨ c = '-') with rfl | rfl <;> contradiction
      · rfl
      · rfl
    rw [List.cons_append, List.append_assoc, exponent_eq (by simpa using he) hsigned
      (digits_extends hds.2 rest) (by simp [hds.1])]
    exact ⟨(digits rest).1, by simp⟩

-- Whatever stands behind a numeral, at least the numeral is taken.
theorem number_extends {numeral : List Char} (h : IsNumeral numeral) (rest : List Char) :
    numeral <+: (number (numeral ++ rest)).1 := by
  obtain @⟨sign, taken, power, hsign, hmagnitude, hpower⟩ := h
  have hsigned : optionalChar (· = '-') (sign ++ (taken ++ (power ++ rest))) =
      (sign, taken ++ (power ++ rest)) := by
    rcases hsign with rfl | rfl
    · refine optionalChar_of_not fun c hc hminus => ?_
      obtain rfl := of_decide_eq_true hminus
      rcases hmagnitude.head? _ _ hc with hdigit | hpoint <;> contradiction
    · rfl
  obtain ⟨more, after, htaken, hexact⟩ := magnitude_extends hmagnitude (power ++ rest)
  rw [number_eq, List.append_assoc, List.append_assoc, hsigned, htaken]
  cases hpower with
  | none => exact ⟨more ++ (exponent after).1, by simp⟩
  | @some e mark ds he hmark hds =>
    -- the mark of the exponent ends the magnitude
    obtain ⟨rfl, rfl⟩ := hexact fun c hc => by
      obtain rfl := Option.some.inj hc
      rcases he with rfl | rfl <;> decide
    obtain ⟨longer, hlonger⟩ := exponent_extends (.some he hmark hds) rest
    rw [← hlonger]
    exact ⟨longer, by simp⟩

end Longest

section Taken

theorem fraction_taken (cs : List Char) :
    (fraction cs).1 = [] ∨ ∃ fs, (fraction cs).1 = '.' :: fs ∧ IsDigits fs := by
  fun_cases fraction cs with
  | case2 inner ds after hne hdigits =>
    have hds := isDigit_digits inner
    rw [hdigits] at hds
    exact .inr ⟨ds, rfl, hne, hds⟩
  | _ => exact .inl rfl

theorem isPower_exponent (cs : List Char) : IsPower (exponent cs).1 := by
  fun_cases exponent cs with
  | case3 e inner he sign unsigned hsign ds after hne hdigits =>
    have hds := isDigit_digits unsigned
    rw [hdigits] at hds
    refine .some (by simpa using he) ?_ ⟨hne, hds⟩
    have htaken := congrArg Prod.fst hsign
    dsimp only at htaken
    rw [← htaken]
    fun_cases optionalChar (fun c => c = '+' || c = '-') inner <;> simp_all
  | _ => exact .none

-- What is taken of a sign, digits and a fraction is a numeral once one of the
-- latter two is there.
theorem isNumeral_number {cs : List Char}
    (h : (magnitude (optionalChar (· = '-') cs).2).1 ≠ []) : IsNumeral (number cs).1 := by
  rw [number_eq]
  refine .of ?_ ?_ (isPower_exponent _)
  · fun_cases optionalChar (· = '-') cs <;> simp_all
  · generalize (optionalChar (· = '-') cs).2 = unsigned at h ⊢
    rw [magnitude] at h ⊢
    have hds := isDigit_digits unsigned
    by_cases hnone : (digits unsigned).1 = []
    · rcases fraction_taken (digits unsigned).2 with hfraction | ⟨fs, hfraction, hfs⟩
      · simp [hnone, hfraction] at h
      · rw [hnone, hfraction]
        exact .fraction hfs
    · rcases fraction_taken (digits unsigned).2 with hfraction | ⟨fs, hfraction, hfs⟩
      · rw [hfraction, List.append_nil]
        exact .whole ⟨hnone, hds⟩
      · rw [hfraction]
        exact .pointed ⟨hnone, hds⟩ hfs

end Taken

theorem magnitude_ne_nil_of_isDigit {c : Char} (h : c.isDigit) (rest : List Char) :
    (magnitude (c :: rest)).1 ≠ [] := by
  simp [magnitude, digits, h]

theorem magnitude_ne_nil_of_point {c : Char} (h : c.isDigit) (rest : List Char) :
    (magnitude ('.' :: c :: rest)).1 ≠ [] := by
  have hpoint : digits ('.' :: c :: rest) = ([], '.' :: c :: rest) := digits_of_not (by simp)
  have hread : digits (c :: rest) = digits ([c] ++ rest) := rfl
  rw [digits_extends (by simpa using h)] at hread
  rw [magnitude, hpoint, fraction_point hread (by simp)]
  simp

theorem number_of_isLoneSign {cs : List Char} (h : IsLoneSign cs) : (number cs).1 = ['-'] := by
  obtain ⟨behind, rfl, hbehind⟩ := h
  have hsign : optionalChar (· = '-') ('-' :: '.' :: behind) = (['-'], '.' :: behind) := rfl
  have hpoint : digits ('.' :: behind) = ([], '.' :: behind) := digits_of_not (by simp)
  have hfraction : fraction ('.' :: behind) = ([], '.' :: behind) := by
    rw [fraction, digits_of_not hbehind]
  have hpower : exponent ('.' :: behind) = ([], '.' :: behind) := exponent_of_not (by simp)
  rw [number_eq, hsign, magnitude, hpoint, hfraction, hpower]
  rfl

end Scan

namespace Piece

variable {c : Char} {rest : List Char}

theorem next_number (h : (next c rest).1 = .token .number) :
    beginsNumber c rest ∧ (next c rest).2 = Scan.number (c :: rest) := by
  have hread := reads_next c rest
  generalize next c rest = piece at hread h ⊢
  cases hread with
  | number hbegins => exact ⟨hbegins, rfl⟩
  | mark _ hmark =>
    obtain rfl := PieceKind.token.inj h
    exact absurd (of_markKind hmark).1 (by decide)
  | word => exact absurd (PieceKind.token.inj h) (of_wordKind _).2
  | _ => simp at h

-- What begins like a number is one, but for a lone sign.
theorem isNumeral_of_beginsNumber (h : beginsNumber c rest) (hsign : ¬ IsLoneSign (c :: rest)) :
    IsNumeral (Scan.number (c :: rest)).1 := by
  have hplain (hc : c ≠ '-') : Scan.optionalChar (· = '-') (c :: rest) = ([], c :: rest) :=
    Scan.optionalChar_of_not (by simpa using hc)
  have hminus : Scan.optionalChar (· = '-') ('-' :: rest) = (['-'], rest) := rfl
  simp only [beginsNumber, Bool.or_eq_true, Bool.and_eq_true, decide_eq_true_eq] at h
  apply Scan.isNumeral_number
  rcases h with (hdigit | ⟨rfl, hdigit⟩) | ⟨rfl, hdigit | hpoint⟩
  · rw [hplain (by rintro rfl; contradiction)]
    exact Scan.magnitude_ne_nil_of_isDigit hdigit rest
  · cases rest with
    | nil => contradiction
    | cons d rest =>
      rw [hplain (by decide)]
      exact Scan.magnitude_ne_nil_of_point hdigit rest
  · cases rest with
    | nil => contradiction
    | cons d rest =>
      rw [hminus]
      exact Scan.magnitude_ne_nil_of_isDigit hdigit rest
  · cases rest with
    | nil => contradiction
    | cons d rest =>
      obtain rfl := hpoint
      obtain ⟨e, he, hdigit⟩ : ∃ e ∈ rest.head?, e.isDigit := by
        by_contra hnone
        exact hsign ⟨rest, rfl, fun e he hdigit => hnone ⟨e, he, hdigit⟩⟩
      obtain ⟨rest, rfl⟩ := List.head?_eq_some_iff.mp he
      rw [hminus]
      exact Scan.magnitude_ne_nil_of_point hdigit rest

end Piece

-- A number token is the longest numeral where it begins. Where a minus stands
-- before a mere point no numeral begins, and the token is the minus.
theorem lex_numerals {text : List Char} {token : Token} (h : token ∈ (lex text).tokens)
    (hkind : token.kind = .number) :
    ∃ before after, text = before ++ (token.chars ++ after) ∧ token.start = byteSize before ∧
      (∀ numeral, IsNumeral numeral → numeral <+: token.chars ++ after → numeral <+: token.chars) ∧
      (IsNumeral token.chars ↔ ¬ IsLoneSign (token.chars ++ after)) ∧
      (IsLoneSign (token.chars ++ after) → token.chars = ['-']) := by
  obtain ⟨before, c, rest, htext, hstart, hnext, hchars⟩ := exists_read_of_mem_lex h
  obtain ⟨hbegins, hread⟩ := Piece.next_number (hkind ▸ hnext)
  have htaken : token.chars = (Scan.number (c :: rest)).1 := by rw [hchars, hread]
  have hjoin : token.chars ++ (Piece.next c rest).2.2 = c :: rest := by
    rw [hchars, Piece.next_append]
  have hlone (hsign : IsLoneSign (c :: rest)) : token.chars = ['-'] :=
    htaken.trans (Scan.number_of_isLoneSign hsign)
  refine ⟨before, (Piece.next c rest).2.2, by rw [hjoin, htext], hstart, ?_, ?_, ?_⟩
  · rintro numeral hnumeral ⟨behind, hbehind⟩
    have hlonger := Scan.number_extends hnumeral behind
    rwa [hbehind, hjoin, ← htaken] at hlonger
  · rw [hjoin]
    constructor
    · intro hnumeral hsign
      rw [hlone hsign] at hnumeral
      obtain ⟨d, hd, hdigit⟩ := hnumeral.exists_isDigit
      obtain rfl := List.mem_singleton.mp hd
      contradiction
    · intro hsign
      rw [htaken]
      exact Piece.isNumeral_of_beginsNumber hbegins hsign
  · rw [hjoin]
    exact hlone

-- An exponent without digits is left out of the number.
theorem lex_numerals_openExponent :
    ⟨.number, 4, ['-', '.', '5']⟩ ∈ (lex "{a: -.5E+}".toList).tokens ∧
    ∃ before after, "{a: -.5E+}".toList = before ++ (['-', '.', '5'] ++ after) ∧
      4 = byteSize before ∧
      (∀ numeral, IsNumeral numeral → numeral <+: ['-', '.', '5'] ++ after →
        numeral <+: ['-', '.', '5']) ∧
      (IsNumeral ['-', '.', '5'] ↔ ¬ IsLoneSign (['-', '.', '5'] ++ after)) ∧
      (IsLoneSign (['-', '.', '5'] ++ after) → ['-', '.', '5'] = ['-']) := by
  have hmem : ⟨.number, 4, ['-', '.', '5']⟩ ∈ (lex "{a: -.5E+}".toList).tokens := by
    decide +kernel
  exact ⟨hmem, lex_numerals hmem rfl⟩

-- Before a point that begins no fraction the minus alone is a number token.
theorem exists_number_not_isNumeral :
    ∃ token ∈ (lex "db.c.f(-.)".toList).tokens, token.kind = .number ∧
      ¬ IsNumeral token.chars := by
  have hmem : ⟨.number, 7, ['-']⟩ ∈ (lex "db.c.f(-.)".toList).tokens := by decide +kernel
  refine ⟨_, hmem, rfl, fun hnumeral => ?_⟩
  obtain ⟨c, hc, hdigit⟩ := hnumeral.exists_isDigit
  obtain rfl := List.mem_singleton.mp hc
  contradiction

end QueryPad
