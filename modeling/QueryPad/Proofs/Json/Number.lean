import Mathlib.Data.List.TakeWhile
import QueryPad.Json.Number
import QueryPad.Json.Printer

-- A number as it is printed is a number text, and is read without regard to
-- what stands behind it.
namespace QueryPad

open Number

-- What would make a number longer.
def isNumberPart (c : Char) : Bool := c.isDigit || c = '.' || c = 'e' || c = 'E'

def EndsNumber (rest : List Char) : Prop := ∀ c ∈ rest.head?, ¬ isNumberPart c

theorem takeWhile_append_stop {p : Char → Bool} {taken rest : List Char}
    (htaken : ∀ c ∈ taken, p c) (hrest : ∀ c ∈ rest.head?, ¬ p c) :
    (taken ++ rest).takeWhile p = taken ∧ (taken ++ rest).dropWhile p = rest := by
  have hstop : rest.takeWhile p = [] ∧ rest.dropWhile p = rest := by
    cases rest with
    | nil => simp
    | cons c rest => simp [hrest c rfl]
  rw [List.takeWhile_append_of_pos htaken, List.dropWhile_append_of_pos htaken, hstop.1, hstop.2,
    List.append_nil]
  exact ⟨rfl, rfl⟩

theorem Scan.digits_append_eq {ds rest : List Char} (hds : ∀ c ∈ ds, c.isDigit)
    (hrest : ∀ c ∈ rest.head?, ¬ c.isDigit) : Scan.digits (ds ++ rest) = (ds, rest) := by
  obtain ⟨htaken, hleft⟩ := takeWhile_append_stop hds hrest
  rw [digits, htaken, hleft]

namespace NumberText

structure IsWritten (number : NumberText) : Prop where
  whole : number.whole ≠ [] ∧ ∀ c ∈ number.whole, c.isDigit
  leading : number.whole.head? = some '0' → number.whole.length = 1
  fraction : ∀ ds ∈ number.fraction, ds ≠ [] ∧ ∀ c ∈ ds, c.isDigit
  exponent : ∀ power ∈ number.exponent, power.2 ≠ [] ∧ ∀ c ∈ power.2, c.isDigit

def signChars (negative : Bool) : List Char := if negative then ['-'] else []

def fractionChars : Option (List Char) → List Char
  | none => []
  | some ds => '.' :: ds

def exponentChars : Option (Bool × List Char) → List Char
  | none => []
  | some (down, ds) => 'e' :: (if down then '-' else '+') :: ds

def chars (number : NumberText) : List Char :=
  signChars number.negative ++ (number.whole ++
    (fractionChars number.fraction ++ exponentChars number.exponent))

variable {number : NumberText} {rest : List Char}

theorem minus_chars (h : number.IsWritten) :
    minus (number.chars ++ rest) = (number.negative, number.whole ++
      (fractionChars number.fraction ++ (exponentChars number.exponent ++ rest))) := by
  obtain ⟨c, ds, hwhole⟩ := List.exists_cons_of_ne_nil h.whole.1
  have hc : c ≠ '-' := by
    rintro rfl
    exact absurd (h.whole.2 '-' (by simp [hwhole])) (by decide)
  cases hsign : number.negative with
  | true => simp [chars, signChars, hsign, minus]
  | false =>
    simp only [chars, signChars, hsign, hwhole, Bool.false_eq_true, if_false, List.nil_append,
      List.cons_append, List.append_assoc]
    rw [minus]
    rintro _ heq
    exact hc (List.cons.inj heq).1

theorem marked_fraction {part : Option (List Char)}
    (hpart : ∀ ds ∈ part, ds ≠ [] ∧ ∀ c ∈ ds, c.isDigit)
    (hrest : ∀ c ∈ rest.head?, ¬ c.isDigit ∧ c ≠ '.') :
    marked (· = '.') unsignedPart (fractionChars part ++ rest) =
      some (part.map (false, ·), rest) := by
  cases part with
  | none =>
    cases rest with
    | nil => rfl
    | cons c rest => simp [fractionChars, marked, (hrest c rfl).2]
  | some ds =>
    obtain ⟨hne, hds⟩ := hpart ds rfl
    have hread := Scan.digits_append_eq hds fun c hc => (hrest c hc).1
    cases ds with
    | nil => contradiction
    | cons d ds =>
      simp only [fractionChars, List.cons_append, marked, decide_true, if_true, unsignedPart]
      rw [← List.cons_append, hread]
      rfl

theorem marked_exponent {part : Option (Bool × List Char)}
    (hpart : ∀ power ∈ part, power.2 ≠ [] ∧ ∀ c ∈ power.2, c.isDigit)
    (hrest : EndsNumber rest) :
    marked (fun c => c = 'e' || c = 'E') signedPart (exponentChars part ++ rest) =
      some (part, rest) := by
  cases part with
  | none =>
    cases rest with
    | nil => rfl
    | cons c rest =>
      have hc := hrest c rfl
      simp only [isNumberPart, Bool.or_eq_true, decide_eq_true_eq, not_or] at hc
      simp [exponentChars, marked, hc]
  | some power =>
    obtain ⟨down, ds⟩ := power
    obtain ⟨hne, hds⟩ := hpart _ rfl
    have hread := Scan.digits_append_eq hds fun c hc hdigit =>
      hrest c hc (by simp [isNumberPart, hdigit])
    have hsign : signedPart ((if down then '-' else '+') :: (ds ++ rest)) = (down, ds ++ rest) := by
      cases down <;> rfl
    cases ds with
    | nil => contradiction
    | cons d ds =>
      simp only [exponentChars, List.cons_append, marked, decide_true, Bool.true_or,
        if_true] at hsign ⊢
      rw [hsign]
      dsimp only
      rw [← List.cons_append, hread]

theorem split?_chars (h : number.IsWritten) (hrest : EndsNumber rest) :
    split? (number.chars ++ rest) = some (number, rest) := by
  have hexponent := marked_exponent h.exponent hrest
  have hbehind : ∀ c ∈ (exponentChars number.exponent ++ rest).head?, ¬ c.isDigit ∧ c ≠ '.' := by
    intro c hc
    cases hpower : number.exponent with
    | none =>
      have hend := hrest c (by simpa [hpower, exponentChars] using hc)
      simp only [isNumberPart, Bool.or_eq_true, decide_eq_true_eq, not_or] at hend
      exact ⟨hend.1.1.1, hend.1.1.2⟩
    | some power =>
      obtain rfl : 'e' = c := by simpa [hpower, exponentChars] using hc
      decide
  have hfraction := marked_fraction h.fraction hbehind
  have hwhole : Scan.digits (number.whole ++ (fractionChars number.fraction ++
      (exponentChars number.exponent ++ rest))) =
        (number.whole,
          fractionChars number.fraction ++ (exponentChars number.exponent ++ rest)) := by
    refine Scan.digits_append_eq h.whole.2 fun c hc => ?_
    cases hpart : number.fraction with
    | none => exact (hbehind c (by simpa [hpart, fractionChars] using hc)).1
    | some ds =>
      obtain rfl : '.' = c := by simpa [hpart, fractionChars] using hc
      decide
  have hlead : ¬ (number.whole = [] ||
      (number.whole.head? = some '0' && number.whole.length > 1)) := by
    have hlength := h.leading
    have hne := h.whole.1
    simp only [Bool.or_eq_true, Bool.and_eq_true, decide_eq_true_eq, not_or, not_and, not_lt]
    exact ⟨hne, fun hzero => (hlength hzero).le⟩
  rw [split?, minus_chars h]
  dsimp only
  rw [hwhole]
  dsimp only
  rw [if_neg hlead, hfraction]
  dsimp only [bind, Option.bind]
  rw [hexponent]
  cases number with
  | mk negative whole fraction exponent => cases fraction <;> rfl

end NumberText

section Decimal

theorem head?_toDigits {n : Nat} (h : n ≠ 0) : (Nat.toDigits 10 n).head? ≠ some '0' := by
  induction n using Nat.strongRecOn with
  | ind n ih =>
    by_cases hlt : n < 10
    · rw [Nat.toDigits_of_lt_base hlt]
      have hall : ∀ n < 10, n ≠ 0 → n.digitChar ≠ '0' := by decide
      simpa using hall n hlt h
    · have hshorter := ih (n / 10) (by omega) (by omega)
      obtain ⟨d, ds, hds⟩ :=
        List.exists_cons_of_ne_nil (Nat.toDigits_ne_nil (n := n / 10) (b := 10))
      rw [Nat.toDigits_of_base_le (by decide) (by omega), hds]
      simpa [hds] using hshorter

theorem isDigit_toDigits (n : Nat) : ∀ c ∈ Nat.toDigits 10 n, c.isDigit :=
  fun _ => Nat.isDigit_of_mem_toDigits (by decide) (by decide)

-- Decimals as they are written have digits, and no zero leads a number of two
-- or more places before the point.
structure Number.Decimal.IsProper (x : Decimal) : Prop where
  digits : x.digits ≠ [] ∧ ∀ c ∈ x.digits, c.isDigit
  leading : 0 < x.exponent → x.digits.head? ≠ some '0'

theorem dropTrailingZeros_cases (digits : List Char) :
    ((∀ c ∈ digits, c = '0') ∧ dropTrailingZeros digits = ['0']) ∨
      dropTrailingZeros digits ≠ [] ∧ dropTrailingZeros digits <+: digits := by
  have hshorter : (digits.reverse.dropWhile (· = '0')).reverse <+: digits := by
    have hsuffix := List.dropWhile_suffix (l := digits.reverse) (fun c => decide (c = '0'))
    simpa using List.reverse_prefix.mpr hsuffix
  rw [dropTrailingZeros]
  split
  · next hnone => exact .inl ⟨by simpa using hnone, rfl⟩
  · next kept hne => exact .inr ⟨hne, hshorter⟩

section Ratios

variable {num den : Nat} {power unit : Int}

-- Powers leave both sides of a ratio above zero.
theorem scale_num_pos (h : 0 < num) : 0 < (Binary64.scale num den power).1 := by
  rw [Binary64.scale]
  split
  · exact Nat.mul_pos h (Nat.pow_pos (by decide))
  · exact h

theorem scale_den_pos (h : 0 < den) : 0 < (Binary64.scale num den power).2 := by
  rw [Binary64.scale]
  split
  · exact h
  · exact Nat.mul_pos h (Nat.pow_pos (by decide))

theorem unitsRatio_den_pos (count : Nat) : 0 < (unitsRatio count unit).2 := by
  rw [unitsRatio]
  split
  · exact Nat.one_pos
  · exact Nat.pow_pos (by decide)

end Ratios

-- What rounds to a number above zero is above zero.
theorem roundsTo_zero {x : Binary64} {per : Nat} (hx : ¬ x.isZero) (hper : 0 < per) :
    ¬ x.roundsTo 0 per := by
  have hmantissa : x.mantissa ≠ 0 := by simpa [Binary64.isZero] using hx
  have hlow : 0 < x.ends.1 := by
    rw [Binary64.ends]
    dsimp only
    split <;> omega
  have hends : 0 < x.ends.1 * (Binary64.scale 1 4 x.exponent).1 * per :=
    Nat.mul_pos (Nat.mul_pos hlow (scale_num_pos Nat.one_pos)) hper
  rw [Binary64.roundsTo]
  dsimp only
  rw [Nat.zero_mul]
  split
  · rw [Bool.and_eq_true, decide_eq_true_eq]
    exact fun hvalue => Nat.not_le.mpr hends hvalue.1
  · rw [Bool.and_eq_true, decide_eq_true_eq]
    exact fun hvalue => Nat.not_lt_zero _ hvalue.1

-- A count found on a grid reads back.
theorem roundsTo_of_onGrid? {x : Binary64} {exponent : Int} {n count : Nat}
    (h : onGrid? x exponent n = some count) :
    x.roundsTo (unitsRatio count (exponent - n + 1)).1 (unitsRatio count (exponent - n + 1)).2 := by
  have hfound : ∀ (reads : Nat → Bool) (nearest other : Nat),
      (if reads nearest then some nearest else if reads other then some other else none) =
        some count → reads count := by
    intro reads nearest other heq
    split at heq
    · next hread => exact Option.some.inj heq ▸ hread
    · split at heq
      · next hread => exact Option.some.inj heq ▸ hread
      · contradiction
  exact hfound (fun count => x.roundsTo (unitsRatio count (exponent - n + 1)).1
    (unitsRatio count (exponent - n + 1)).2) _ _ h

theorem onGrid?_pos {x : Binary64} {exponent : Int} {n count : Nat} (hx : ¬ x.isZero)
    (h : onGrid? x exponent n = some count) : count ≠ 0 := by
  rintro rfl
  have hread := roundsTo_of_onGrid? h
  have hzero : (unitsRatio 0 (exponent - n + 1)).1 = 0 := by
    rw [unitsRatio]
    split <;> simp
  rw [hzero] at hread
  exact roundsTo_zero hx (unitsRatio_den_pos 0) hread

theorem decimalExponent_nonpos {num den : Nat} (h : ¬ den ≤ num) : decimalExponent num den ≤ 0 := by
  rw [decimalExponent, if_neg h]
  omega

-- The digits of a count with the zeros at its end dropped.
theorem dropTrailingZeros_isProper {count : Nat} {exponent : Int}
    (h : 0 < exponent → count ≠ 0) :
    Decimal.IsProper ⟨dropTrailingZeros (Nat.toDigits 10 count), exponent⟩ := by
  obtain ⟨d, ds, hdigits⟩ := List.exists_cons_of_ne_nil (Nat.toDigits_ne_nil (n := count) (b := 10))
  have hlead : 0 < exponent → d ≠ '0' := by
    rintro hpos rfl
    exact head?_toDigits (h hpos) (by rw [hdigits]; rfl)
  rcases dropTrailingZeros_cases (Nat.toDigits 10 count) with ⟨hzeros, hnone⟩ | ⟨hne, hshorter⟩
  · refine ⟨by simp [hnone], fun hpos => ?_⟩
    exact absurd (hzeros d (by simp [hdigits])) (hlead hpos)
  · refine ⟨⟨hne, fun c hc => isDigit_toDigits count c (hshorter.subset hc)⟩, fun hpos => ?_⟩
    obtain ⟨e, es, hkept⟩ := List.exists_cons_of_ne_nil hne
    rw [hkept, hdigits, List.cons_prefix_cons] at hshorter
    simpa [hkept, hshorter.1] using hlead hpos

theorem shortest_isProper (x : Binary64) : (shortest x).IsProper := by
  rw [shortest]
  split
  · exact ⟨by simp, by simp⟩
  · next hx =>
    dsimp only
    cases hfound : (List.range 17).findSome? fun k =>
        (onGrid? x (decimalExponent x.ratio.1 x.ratio.2) (k + 1)).map (·, k + 1) with
    | some found =>
      refine dropTrailingZeros_isProper fun _ => ?_
      obtain ⟨k, _, hk⟩ := List.exists_of_findSome?_eq_some hfound
      obtain ⟨count, hcount, rfl⟩ := Option.map_eq_some_iff.mp hk
      exact onGrid?_pos hx hcount
    | none =>
      refine dropTrailingZeros_isProper fun hpos hzero => ?_
      simp only [Option.getD_none] at hpos hzero
      -- below one the first place stands behind the point
      by_cases hbelow : x.ratio.2 ≤ x.ratio.1
      · have hden : 0 < x.ratio.2 := scale_den_pos Nat.one_pos
        exact absurd hzero (Nat.div_pos hbelow hden).ne'
      · have := decimalExponent_nonpos hbelow
        simp [hzero] at hpos
        omega

end Decimal

namespace JsonNumber

open Number NumberText

-- The digits of a natural number have no zero in front of others.
theorem toDigits_isWritten (negative : Bool) (n : Nat) :
    IsWritten ⟨negative, Nat.toDigits 10 n, none, none⟩ where
  whole := ⟨Nat.toDigits_ne_nil, isDigit_toDigits n⟩
  leading hzero := by
    by_cases hn : n = 0
    · rw [hn, Nat.toDigits_zero]
      rfl
    · exact absurd hzero (head?_toDigits hn)
  fraction := by simp
  exponent := by simp

theorem integer_chars (value : Int) :
    (toString value).toList =
      NumberText.chars ⟨value < 0, Nat.toDigits 10 value.natAbs, none, none⟩ := by
  rw [Int.toString_eq_repr, Int.repr_eq_if]
  split
  · next h =>
    have hsign : ¬ value < 0 := by omega
    have habs : value.toNat = value.natAbs := by omega
    simp [chars, signChars, hsign, habs, fractionChars, exponentChars, Nat.repr_eq_ofList_toDigits]
  · next h =>
    have hsign : value < 0 := by omega
    have habs : (-value).toNat = value.natAbs := by omega
    simp [chars, signChars, hsign, habs, fractionChars, exponentChars, Nat.repr_eq_ofList_toDigits]

theorem exists_pointed (negative : Bool) {whole frac : List Char}
    (hwhole : whole ≠ [] ∧ ∀ c ∈ whole, c.isDigit)
    (hlead : whole.head? = some '0' → whole.length = 1)
    (hfrac : frac ≠ [] ∧ ∀ c ∈ frac, c.isDigit) :
    ∃ text : NumberText, text.IsWritten ∧
      signChars negative ++ (whole ++ '.' :: frac) = text.chars := by
  refine ⟨⟨negative, whole, some frac, none⟩, ⟨hwhole, hlead, ?_, by simp⟩, ?_⟩
  · rintro _ ⟨rfl⟩
    exact hfrac
  · simp [chars, fractionChars, exponentChars]

-- One digit before the point, and a power of ten.
theorem exists_scaled (negative : Bool) {d : Char} (fraction : Option (List Char)) (exponent : Int)
    (hd : d.isDigit) (hfraction : ∀ ds ∈ fraction, ds ≠ [] ∧ ∀ c ∈ ds, c.isDigit) :
    ∃ text : NumberText, text.IsWritten ∧ signChars negative ++ (d :: (fractionChars fraction ++
      ['e', if exponent < 0 then '-' else '+'] ++ Nat.toDigits 10 exponent.natAbs)) =
        text.chars := by
  refine ⟨⟨negative, [d], fraction, some (exponent < 0, Nat.toDigits 10 exponent.natAbs)⟩,
    ⟨by simpa using hd, by simp, hfraction, ?_⟩, ?_⟩
  · rintro _ ⟨rfl⟩
    exact ⟨Nat.toDigits_ne_nil, isDigit_toDigits _⟩
  · simp [chars, exponentChars]

theorem isDigit_padded {digits : List Char} (zeros : Nat) (h : ∀ c ∈ digits, c.isDigit) :
    (∀ c ∈ List.replicate zeros '0' ++ digits, c.isDigit) ∧
      ∀ c ∈ digits ++ List.replicate zeros '0', c.isDigit := by
  have hzero : ∀ c ∈ List.replicate zeros '0', c.isDigit := by
    intro c hc
    rw [(List.mem_replicate.mp hc).2]
    rfl
  simp only [List.mem_append, or_imp, forall_and]
  exact ⟨⟨hzero, h⟩, h, hzero⟩

-- Digits with the point after so many of them.
theorem exists_split (negative : Bool) {digits frac : List Char} {places : Nat}
    (hdigits : ∀ c ∈ digits, c.isDigit) (hne : digits ≠ []) (hplaces : 0 < places)
    (hlead : digits.head? = some '0' → places = 1)
    (hfrac : frac ≠ [] ∧ ∀ c ∈ frac, c.isDigit) :
    ∃ text : NumberText, text.IsWritten ∧
      signChars negative ++ (digits.take places ++ '.' :: frac) = text.chars := by
  obtain ⟨d, more, rfl⟩ := List.exists_cons_of_ne_nil hne
  have hwhole : (d :: more).take places ≠ [] := by
    rw [Ne, List.take_eq_nil_iff]
    simp only [reduceCtorEq, or_false]
    omega
  refine exists_pointed negative
    ⟨hwhole, fun c hc => hdigits c (List.mem_of_mem_take hc)⟩ (fun hzero => ?_) hfrac
  rw [List.head?_take, if_neg (by omega)] at hzero
  rw [hlead hzero, List.take_one]
  rfl

theorem exists_decimal (negative : Bool) {x : Decimal} (h : x.IsProper) :
    ∃ text : NumberText, text.IsWritten ∧
      ((if negative then "-" else "") ++ format.write x).toList = text.chars := by
  have hsign : (if negative then "-" else "").toList = signChars negative := by
    cases negative <;> rfl
  obtain ⟨hne, hdigits⟩ := h.digits
  rw [String.toList_append, hsign, DecimalFormat.write]
  dsimp only
  split
  · split
    · -- below one, the digits stand behind the point and some zeros
      rw [String.toList_append, String.toList_ofList]
      have hzero : ['0'] ≠ [] ∧ ∀ c ∈ ['0'], c.isDigit := by simp
      have hfrac := (isDigit_padded (-x.exponent - 1).toNat hdigits).1
      simpa using exists_pointed negative hzero (by simp) ⟨by simp [hne], hfrac⟩
    · next hexponent =>
      rw [String.toList_ofList]
      have hpadded := (isDigit_padded ((x.exponent + 1).toNat - x.digits.length) hdigits).2
      refine exists_split negative hpadded (by simp [hne]) (by omega) (fun hzero => ?_) ?_
      · have hone : ¬ 0 < x.exponent := by
          intro hpos
          obtain ⟨d, more, hd⟩ := List.exists_cons_of_ne_nil hne
          rw [hd] at hzero
          exact h.leading hpos (hd ▸ hzero)
        omega
      · split
        · simp
        · next frac hfrac => exact ⟨hfrac, fun c hc => hpadded c (List.mem_of_mem_drop hc)⟩
  · have hpower : (if x.exponent < 0 then "e-" else "e+").toList =
        ['e', if x.exponent < 0 then '-' else '+'] := by
      split <;> rfl
    rw [String.toList_append, String.toList_append, String.toList_ofList, hpower,
      Nat.toString_eq_ofList_toDigits, String.toList_ofList]
    split
    · next d hd =>
      exact exists_scaled negative none x.exponent (hdigits d (by simp [hd])) (by simp)
    · next d more hmore hd =>
      refine exists_scaled negative (some more) x.exponent (hdigits d (by simp [hd])) ?_
      rintro _ ⟨rfl⟩
      exact ⟨hmore, fun c hc => hdigits c (by simp [hd, hc])⟩
    · next hnil => exact absurd hnil hne

theorem exists_chars (number : JsonNumber) :
    ∃ text : NumberText, text.IsWritten ∧ number.render.toList = text.chars := by
  cases number with
  | integer value => exact ⟨_, toDigits_isWritten _ _, integer_chars value⟩
  | double value => exact exists_decimal value.negative (shortest_isProper value)

-- What a number is read back as, which need not be the number.
def reread? (number : JsonNumber) : Option JsonNumber := ofChars? number.render.toList

theorem split?_render (number : JsonNumber) {rest : List Char} (hrest : EndsNumber rest) :
    ∃ text, split? (number.render.toList ++ rest) = some (text, rest) ∧
      number.reread? = text.value? := by
  obtain ⟨text, hwritten, hchars⟩ := number.exists_chars
  have halone : split? (text.chars ++ []) = some (text, []) :=
    split?_chars hwritten (by simp [EndsNumber])
  rw [List.append_nil, ← hchars] at halone
  exact ⟨text, hchars ▸ split?_chars hwritten hrest, by rw [reread?, ofChars?, halone]⟩

theorem mem_render {number : JsonNumber} {c : Char} (h : c ∈ number.render.toList) :
    c.isDigit ∨ c = '-' ∨ c = '.' ∨ c = 'e' ∨ c = '+' := by
  obtain ⟨text, hwritten, hchars⟩ := number.exists_chars
  obtain ⟨negative, whole, fraction, exponent⟩ := text
  simp only [hchars, chars, List.mem_append] at h
  rcases h with h | h | h | h
  · cases negative <;> simp [signChars] at h
    simp [h]
  · exact .inl (hwritten.whole.2 c h)
  · cases fraction with
    | none => simp [fractionChars] at h
    | some ds =>
      rcases List.mem_cons.mp h with rfl | hdigit
      · simp
      · exact .inl ((hwritten.fraction ds rfl).2 c hdigit)
  · cases exponent with
    | none => simp [exponentChars] at h
    | some power =>
      simp only [exponentChars, List.mem_cons] at h
      rcases h with rfl | rfl | hdigit
      · simp
      · split <;> simp
      · exact .inl ((hwritten.exponent power rfl).2 c hdigit)

theorem exists_head (number : JsonNumber) :
    ∃ c cs, number.render.toList = c :: cs ∧ (c.isDigit ∨ c = '-') := by
  obtain ⟨text, hwritten, hchars⟩ := number.exists_chars
  obtain ⟨d, ds, hwhole⟩ := List.exists_cons_of_ne_nil hwritten.whole.1
  rw [hchars, chars, hwhole]
  cases text.negative with
  | true => exact ⟨_, _, rfl, .inr rfl⟩
  | false => exact ⟨_, _, rfl, .inl (hwritten.whole.2 d (by simp [hwhole]))⟩

theorem gather_eq {bound : Nat} {ds : List Char} {total : Nat}
    (h : Nat.ofDigitChars 10 ds total ≤ bound) :
    gather bound total ds = (Nat.ofDigitChars 10 ds total, []) := by
  induction ds generalizing total with
  | nil => rfl
  | cons c ds ih =>
    have hstep : 10 * total + (c.toNat - '0'.toNat) = total * 10 + digitValue c := by
      rw [digitValue, Nat.mul_comm]
      rfl
    rw [Nat.ofDigitChars_cons, hstep] at h ⊢
    have hle : total * 10 + digitValue c ≤ bound := by
      rw [Nat.ofDigitChars_eq_ofDigitChars_zero] at h
      have := Nat.le_mul_of_pos_left (total * 10 + digitValue c) (Nat.pow_pos (n := ds.length)
        (show 0 < 10 by decide))
      omega
    rw [gather, if_pos hle]
    exact ih h

-- Integers of 64 bits come back.
theorem reread?_integer {value : Int} (hlow : -(wordCount 63 : Int) ≤ value)
    (hhigh : value < wordCount 64) : reread? (integer value) = some (integer value) := by
  have hwritten := toDigits_isWritten (value < 0) value.natAbs
  have hsplit : split? (NumberText.chars _ ++ []) = some (_, []) :=
    split?_chars hwritten (by simp [EndsNumber])
  rw [List.append_nil, ← integer_chars] at hsplit
  have hfits : Nat.ofDigitChars 10 (Nat.toDigits 10 value.natAbs) 0 ≤ maxSignificand := by
    rw [Nat.ofDigitChars_ten_toDigits, maxSignificand, maxWord]
    have : wordCount 63 < wordCount 64 := by decide
    omega
  have hgather := gather_eq hfits
  rw [Nat.ofDigitChars_ten_toDigits] at hgather
  rw [reread?, ofChars?, render, hsplit]
  dsimp only
  rw [value?]
  dsimp only
  rw [hgather]
  simp only [Option.isNone_none, decide_true, Bool.and_self, if_true, integerValue]
  by_cases hsign : value < 0
  · have hmagnitude : 0 < value.natAbs ∧ value.natAbs ≤ wordCount 63 := by omega
    have hvalue : -(value.natAbs : Int) = value := by omega
    simp only [hsign, hmagnitude, hvalue, decide_true, Bool.not_true,
      Bool.false_eq_true, Bool.and_self, if_true, if_false]
  · have hvalue : (value.natAbs : Int) = value := by omega
    simp only [hsign, hvalue, decide_false, Bool.not_false, if_true]

end JsonNumber

end QueryPad
