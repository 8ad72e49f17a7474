import Mathlib.Tactic.Positivity
import QueryPad.Proofs.Calendar.Reading

-- An instant that was read comes back from what is written of it, up to the
-- fraction that the layout leaves out.
namespace QueryPad.Calendar

open Text

-- Fields as they are read: there is less than a second in the fraction, and
-- zones lie whole minutes apart.
structure Fields.IsProper (fields : Fields) : Prop where
  nanos : fields.nanos < 1000000000
  offset : fields.offset % 60 = 0

theorem digitsValue_lt {digits : List Char} (hdigits : ∀ c ∈ digits, c.isDigit) :
    digitsValue digits < 10 ^ digits.length := by
  induction digits using List.reverseRecOn with
  | nil => decide
  | append_singleton digits c ih =>
    have hshorter := ih fun d hd => hdigits d (by simp [hd])
    have hlast : c.toNat ≤ 57 := (Char.isDigit_iff_toNat.mp (hdigits c (by simp))).2
    rw [digitsValue, List.foldl_append, ← digitsValue, List.length_append, Nat.pow_add]
    simp only [List.foldl_cons, List.foldl_nil, List.length_singleton, Nat.pow_one]
    omega

theorem readNanos_lt {cs rest : List Char} {nanos : Nat} (h : readNanos cs = some (nanos, rest)) :
    nanos < 1000000000 := by
  simp only [readNanos, Option.bind_eq_bind, Option.bind_eq_some_iff, Option.pure_def,
    Option.some.injEq, Prod.mk.injEq] at h
  obtain ⟨_, -, rfl, -⟩ := h
  generalize hkept : (cs.takeWhile Char.isDigit).take 9 = kept
  have hlength : kept.length ≤ 9 := hkept ▸ List.length_take_le _ _
  have hdigits : ∀ c ∈ kept, c.isDigit := fun c hc =>
    List.mem_takeWhile_imp (List.mem_of_mem_take (hkept ▸ hc))
  calc digitsValue kept * 10 ^ (9 - kept.length)
      < 10 ^ kept.length * 10 ^ (9 - kept.length) :=
        Nat.mul_lt_mul_of_pos_right (digitsValue_lt hdigits) (by positivity)
    _ = 1000000000 := by rw [← Nat.pow_add, Nat.add_sub_of_le hlength]

theorem readOffset_emod {separator : List Char → Option (List Char)} {cs rest : List Char}
    {offset : Int} (h : readOffset separator cs = some (offset, rest)) : offset % 60 = 0 := by
  simp only [readOffset, Option.bind_eq_bind, Option.bind_eq_some_iff, Option.pure_def,
    Option.some.injEq, Prod.mk.injEq] at h
  obtain ⟨⟨sign, _⟩, -, ⟨hours, _⟩, -, _, -, ⟨minutes, _⟩, -, _, -, rfl, -⟩ := h
  have hminutes : (60 : Int) ∣ (hours * 3600 + minutes * 60 : Nat) := by omega
  exact Int.emod_eq_zero_of_dvd (Dvd.dvd.mul_left hminutes sign)

namespace Part

theorem read_isProper {part : Part} {fields read : Fields} {cs rest : List Char}
    (hfields : fields.IsProper) (h : part.read fields cs = some (read, rest)) : read.IsProper := by
  cases part with
  | fraction =>
    simp only [Part.read] at h
    split at h
    · obtain ⟨⟨nanos, _⟩, hnanos, heq⟩ := Option.map_eq_some_iff.mp h
      cases heq
      exact ⟨readNanos_lt hnanos, hfields.offset⟩
    · cases h
      exact hfields
  | zone =>
    obtain ⟨⟨offset, _⟩, hoffset, heq⟩ := Option.map_eq_some_iff.mp h
    cases heq
    exact ⟨hfields.nanos, readOffset_emod hoffset⟩
  | blank =>
    cases h
    exact hfields
  | text chars =>
    simp only [Part.read] at h
    split at h <;> cases h
    exact hfields
  | _ =>
    obtain ⟨_, -, heq⟩ := Option.map_eq_some_iff.mp h
    cases heq
    exact ⟨hfields.nanos, hfields.offset⟩

end Part

theorem Layout.readParts_isProper {layout : Layout} {fields read : Fields} {cs rest : List Char}
    (hfields : fields.IsProper) (h : layout.readParts fields cs = some (read, rest)) :
    read.IsProper := by
  induction layout generalizing fields cs with
  | nil =>
    cases h
    exact hfields
  | cons part layout ih =>
    obtain ⟨⟨later, _⟩, hpart, hlater⟩ := Option.bind_eq_some_iff.mp h
    exact ih (Part.read_isProper hfields hpart) hlater

theorem Fields.instant?_isProper {fields : Fields} {instant : Instant} (hfields : fields.IsProper)
    (h : fields.instant? = some instant) : instant.IsProper := by
  obtain ⟨hnanos, hoffset⟩ := hfields
  simp only [instant?, Option.bind_eq_bind, Option.bind_eq_some_iff, Option.pure_def,
    Option.guard_eq_some', Option.some.injEq] at h
  obtain ⟨year, -, month, -, day, -, _, -, _, -, _, htime, _, -, _, hrange, rfl⟩ := h
  simp only [Bool.and_eq_true, decide_eq_true_eq] at htime
  refine ⟨hrange, ?_⟩
  unfold moment
  dsimp only
  omega

theorem Layout.read_isProper {layout : Layout} {cs : List Char} {instant : Instant}
    (h : layout.read cs = some instant) : instant.IsProper := by
  simp only [read, Option.bind_eq_bind, Option.bind_eq_some_iff] at h
  obtain ⟨⟨fields, _⟩, hfields, _, -, hinstant⟩ := h
  exact Fields.instant?_isProper (readParts_isProper ⟨by decide, by decide⟩ hfields) hinstant

theorem readTimestamp_isProper {cs : List Char} {instant : Instant}
    (h : readTimestamp cs = some instant) : instant.IsProper := by
  -- the parts up to the second, and what divides them
  iterate 11 obtain ⟨_, -, h⟩ := Option.bind_eq_some_iff.mp h
  obtain ⟨⟨nanos, _⟩, hnanos, h⟩ := Option.bind_eq_some_iff.mp h
  obtain ⟨⟨offset, _⟩, hoffset, h⟩ := Option.bind_eq_some_iff.mp h
  obtain ⟨_, -, hinstant⟩ := Option.bind_eq_some_iff.mp h
  refine Fields.instant?_isProper ⟨?_, ?_⟩ hinstant
  · rw [readSecondFraction.eq_def] at hnanos
    split at hnanos
    · exact readNanos_lt hnanos
    · cases hnanos
      exact Nat.zero_lt_succ _
  · rw [readUniversalOffset.eq_def] at hoffset
    split at hoffset
    · cases hoffset
      rfl
    · cases hoffset
      rfl
    · exact readOffset_emod hoffset

theorem Instant.ofChars?_isProper {cs : List Char} {instant : Instant}
    (h : ofChars? cs = some instant) : instant.IsProper := by
  simp only [ofChars?, Option.or_eq_some_iff] at h
  obtain (((h | ⟨-, h⟩) | ⟨-, h⟩) | ⟨-, h⟩) | ⟨-, h⟩ := h
  · exact readTimestamp_isProper h
  all_goals exact Layout.read_isProper h

theorem Fields.instant?_eq {fields : Fields} {date : Date} (hyear : fields.year = some date.year)
    (hmonth : fields.month = some date.month) (hday : fields.day = some date.day)
    (hvalid : date.isValid) (hweekday : fields.weekday.all (· = date.weekday))
    (htime : fields.hour < 24 ∧ fields.minute < 60 ∧ fields.second ≤ 60)
    (hoffset : fields.offset = 0) (hrange : (fields.moment date).isInRange) :
    fields.instant? = some (fields.moment date) := by
  simp [instant?, guard, hyear, hmonth, hday, hvalid, hweekday, htime, hoffset, hrange]

namespace Instant

def dropBelow (unit : Nat) (instant : Instant) : Instant :=
  { instant with nanos := instant.nanos - instant.nanos % unit }

-- The fields of an instant, with the weekday and the fraction that were read.
def fields (instant : Instant) (weekday : Option Nat) (nanos : Nat) : Fields where
  year := instant.date.year
  month := instant.date.month
  day := instant.date.day
  weekday := weekday
  hour := (instant.seconds % 86400).toNat / 3600
  minute := (instant.seconds % 86400).toNat / 60 % 60
  second := (instant.seconds % 86400).toNat % 60 + instant.nanos / 1000000000
  nanos := nanos

variable {instant : Instant}

theorem moment_fields (h : instant.IsProper) (weekday : Option Nat) (nanos : Nat) :
    (instant.fields weekday nanos).moment instant.date =
      ⟨instant.seconds, nanos + instant.nanos / 1000000000 * 1000000000⟩ := by
  have hnanos := h.nanos
  have hdays : instant.date.toDays = instant.seconds / 86400 := Date.toDays_ofDays _
  simp only [Fields.moment, fields, hdays, Instant.mk.injEq]
  omega

theorem isInRange_congr {other : Instant} (h : instant.seconds = other.seconds) :
    instant.isInRange = other.isInRange := by
  rw [isInRange, isInRange, h]

theorem instant?_fields (h : instant.IsProper) {weekday : Option Nat}
    (hweekday : ∀ day ∈ weekday, day = instant.date.weekday) (nanos : Nat) :
    (instant.fields weekday nanos).instant? =
      some ⟨instant.seconds, nanos + instant.nanos / 1000000000 * 1000000000⟩ := by
  have hvalid := isValid_date h.inRange
  have hday : weekday.all (· = instant.date.weekday) := by
    cases weekday with
    | none => rfl
    | some day => simpa using hweekday day rfl
  have htime : (instant.fields weekday nanos).hour < 24 ∧
      (instant.fields weekday nanos).minute < 60 ∧ (instant.fields weekday nanos).second ≤ 60 := by
    have hnanos := h.nanos
    simp only [fields]
    omega
  have hseconds :
      ((instant.fields weekday nanos).moment instant.date).seconds = instant.seconds := by
    rw [moment_fields h]
  have hrange := (isInRange_congr hseconds).trans h.inRange
  rw [← moment_fields h weekday nanos]
  exact Fields.instant?_eq rfl rfl rfl hvalid hday htime rfl hrange

end Instant

section Beginnings

variable {c : Char} {cs : List Char}

theorem readTimestamp_cons (hc : ¬ c.isDigit) : readTimestamp (c :: cs) = none := by
  have hnumber : readNumber 4 4 (c :: cs) = none := by simp [readNumber, hc]
  rw [readTimestamp, hnumber]
  rfl

theorem readName_cons {names : List (List Char)}
    (hc : ∀ name ∈ names, ∃ d ds, name = d :: ds ∧ d.toLower ≠ c.toLower) :
    readName names (c :: cs) = none := by
  simp only [readName, Option.map_eq_none_iff, List.findIdx?_eq_none_iff, decide_eq_false_iff_not]
  intro name hname heq
  obtain ⟨d, ds, rfl, hd⟩ := hc name hname
  simp only [List.map_cons, List.length_cons, List.take_succ_cons, List.cons.injEq] at heq
  exact hd heq.1

theorem trimBlanks_cons (hc : ¬ isBlank c) :
    trimBlanks (c :: cs) = c :: (cs.reverse.dropWhile isBlank).reverse := by
  have hstart : (c :: cs).dropWhile isBlank = c :: cs := by simp [hc]
  rw [trimBlanks, hstart, List.reverse_cons, List.dropWhile_append]
  split
  · next hall => simp [List.isEmpty_iff.mp hall, hc]
  · simp

theorem trimBlanks_eq {d : Char} (hc : ¬ isBlank c) (hd : ¬ isBlank d) :
    trimBlanks (c :: (cs ++ [d])) = c :: (cs ++ [d]) := by
  simp [trimBlanks_cons hc, hd]

theorem beforeParenthesis_cons (hc : c ≠ ' ') :
    beforeParenthesis (c :: cs) = c :: beforeParenthesis cs := by
  rw [beforeParenthesis]
  simp [hc]

theorem beforeParenthesis_append {before after : List Char} (h : '(' ∉ before) :
    beforeParenthesis (before ++ ' ' :: '(' :: after) = before := by
  induction before with
  | nil => rfl
  | cons c before ih =>
    have hbefore : '(' ∉ before := fun hmem => h (List.mem_cons_of_mem c hmem)
    rw [List.cons_append, beforeParenthesis, ih hbefore]
    rintro rest rfl hrest
    cases before with
    | nil => simp at hrest
    | cons d before =>
      obtain ⟨rfl, -⟩ := List.cons.inj hrest
      simp at hbefore

theorem dropZone_append {before digits : List Char} (hdigits : ∀ c ∈ digits, c.isDigit)
    (hne : digits ≠ []) :
    ((before ++ digits ++ ['Z']).reverse.dropWhile (· = 'Z')).reverse = before ++ digits := by
  obtain ⟨front, last, rfl⟩ := (List.eq_nil_or_concat digits).resolve_left hne
  have hlast : last ≠ 'Z' := by
    rintro rfl
    exact absurd (hdigits 'Z' (by simp)) (by decide)
  simp [hlast]

-- Verbose dates begin with a name.
theorem read_verbose_cons (hc : c = '+' ∨ c = '-') :
    Layout.read (Layout.verbose ++ [Part.zone]) (c :: cs) = none := by
  have hname : readName weekdayNames (c :: cs) = none := by
    refine readName_cons fun name hname => ?_
    simp only [weekdayNames, List.map_cons, List.map_nil, List.mem_cons, List.not_mem_nil,
      or_false] at hname
    rcases hname with rfl | rfl | rfl | rfl | rfl | rfl | rfl <;>
      exact ⟨_, _, rfl, by rcases hc with rfl | rfl <;> decide⟩
  simp [Layout.read, Layout.verbose, Layout.readParts, Part.read, hname]

end Beginnings

theorem exists_sign {year : Int} (hyear : ¬ (0 ≤ year ∧ year ≤ 9999)) :
    ∃ sign digits, (sign = '+' ∨ sign = '-') ∧ writeYear year = sign :: digits := by
  refine ⟨if year < 0 then '-' else '+', padded 4 year.natAbs, by split <;> simp, ?_⟩
  rw [writeYear, if_neg (by simpa using hyear)]

theorem exists_weekdayName : ∀ n < 7, ∃ c cs,
    weekdayNames.getD n [] = c :: cs ∧ ¬ c.isDigit ∧ ¬ isBlank c
  | 0, _ | 1, _ | 2, _ | 3, _ | 4, _ | 5, _ | 6, _ => ⟨_, _, rfl, by decide, by decide⟩
  | _ + 7, h => absurd h (by omega)

namespace Instant

variable {instant : Instant}

theorem instant?_fraction (h : instant.IsProper) :
    (instant.fields none (instant.nanos % 1000000000 / 1000000 * 1000000)).instant? =
      some (instant.dropBelow 1000000) := by
  have hnanos : instant.nanos % 1000000000 / 1000000 * 1000000 +
      instant.nanos / 1000000000 * 1000000000 = instant.nanos - instant.nanos % 1000000 := by omega
  rw [instant?_fields h (by simp), hnanos, dropBelow]

theorem instant?_second (h : instant.IsProper) :
    (instant.fields (some instant.date.weekday) 0).instant? =
      some (instant.dropBelow 1000000000) := by
  have hnanos : 0 + instant.nanos / 1000000000 * 1000000000 =
      instant.nanos - instant.nanos % 1000000000 := by omega
  rw [instant?_fields h (by simp), hnanos, dropBelow]

theorem read_fractions (h : instant.IsProper) :
    Layout.fractions.read (Layout.fractions.chars instant) = some (instant.dropBelow 1000000) := by
  have hparts := Layout.readParts_chars h (Layout.fractions_isApart instant) {}
  rw [List.append_nil] at hparts
  rw [Layout.read, hparts, ← instant?_fraction h]
  rfl

theorem readTimestamp_iso (h : instant.IsProper)
    (hyear : 0 ≤ instant.date.year ∧ instant.date.year ≤ 9999) :
    readTimestamp (Layout.iso.chars instant) = some (instant.dropBelow 1000000) := by
  obtain ⟨hmonth, hday⟩ := Date.isValid_ends (isValid_date h.inRange)
  have hnanos := h.nanos
  have hplain : writeYear instant.date.year = padded 4 instant.date.year.toNat := by
    simp [writeYear, hyear]
  have hyears := @readNumber_padded 4 4 instant.date.year.toNat (by decide) (by omega) (by decide)
  have htwo {n : Nat} (hn : n < 100) := @readNumber_padded 2 2 n (by decide) hn (by decide)
  simp only [Layout.iso, Layout.fractions, Layout.seconds, Layout.minutes, List.cons_append,
    List.nil_append, Layout.chars_cons, Layout.chars_nil, Part.write, hplain]
  unfold readTimestamp
  refine Option.bind_eq_some_iff.mpr ⟨_, hyears _, ?_⟩
  -- each of the other numbers stands behind a sign that divides it from the one before
  iterate 5
    refine Option.bind_eq_some_iff.mpr ⟨_, rfl, ?_⟩
    refine Option.bind_eq_some_iff.mpr ⟨_, htwo (by omega) _, ?_⟩
  refine Option.bind_eq_some_iff.mpr ⟨_, readNanos_padded (by omega) (by simp), ?_⟩
  refine Option.bind_eq_some_iff.mpr ⟨_, rfl, ?_⟩
  refine Option.bind_eq_some_iff.mpr ⟨_, rfl, ?_⟩
  rw [← instant?_fraction h, fields, ← Int.toNat_of_nonneg hyear.1]
  rfl

theorem read_zoned (h : instant.IsProper) :
    Layout.read (Layout.verbose ++ [Part.zone])
      (Layout.chars (Layout.verbose ++ [Part.zone]) instant) =
        some (instant.dropBelow 1000000000) := by
  have hparts := Layout.readParts_chars h (Layout.zoned_isApart h) {}
  rw [List.append_nil] at hparts
  rw [Layout.read, hparts, ← instant?_second h]
  rfl

theorem ofChars?_iso (h : instant.IsProper) :
    ofChars? (Layout.iso.chars instant) = some (instant.dropBelow 1000000) := by
  by_cases hyear : 0 ≤ instant.date.year ∧ instant.date.year ≤ 9999
  · rw [ofChars?, readTimestamp_iso h hyear]
    rfl
  · obtain ⟨sign, digits, hsign, hwritten⟩ := exists_sign hyear
    obtain ⟨rest, hchars⟩ : ∃ rest, Layout.iso.chars instant = sign :: rest := by
      simp [Layout.iso, Layout.fractions, Layout.seconds, Layout.minutes, Layout.chars_cons,
        Part.write, hwritten]
    have htimestamp : readTimestamp (sign :: rest) = none :=
      readTimestamp_cons (by rcases hsign with rfl | rfl <;> decide)
    have hverbose : Layout.read (Layout.verbose ++ [Part.zone])
        (trimBlanks (beforeParenthesis (sign :: rest))) = none := by
      rw [beforeParenthesis_cons (by rcases hsign with rfl | rfl <;> decide),
        trimBlanks_cons (by rcases hsign with rfl | rfl <;> decide)]
      exact read_verbose_cons hsign
    have hbare : ((Layout.iso.chars instant).reverse.dropWhile (· = 'Z')).reverse =
        Layout.fractions.chars instant := by
      have hfraction : Layout.fractions.chars instant = Layout.seconds.chars instant ++ ['.'] ++
          padded 3 (instant.nanos % 1000000000 / 1000000) := by
        simp [Layout.fractions, Layout.chars_append, Layout.chars_cons, Layout.chars_nil,
          Part.write]
      rw [Layout.iso, Layout.chars_append, hfraction]
      exact dropZone_append isDigit_of_mem_padded padded_ne_nil
    rw [ofChars?, hbare, hchars, htimestamp, hverbose, read_fractions h]
    rfl

theorem ofChars?_verbose (h : instant.IsProper) :
    ofChars? (Layout.verboseUniversal.chars instant) = some (instant.dropBelow 1000000000) := by
  have hzoned : Layout.verboseUniversal.chars instant =
      Layout.chars (Layout.verbose ++ [Part.zone]) instant ++
        ' ' :: '(' :: "Coordinated Universal Time)".toList := by
    simp [Layout.verboseUniversal, Layout.chars_append, Layout.chars_cons, Layout.chars_nil,
      Part.write]
  have hplain : '(' ∉ Layout.chars (Layout.verbose ++ [Part.zone]) instant := by
    refine Layout.not_mem_chars (by decide) fun chars hchars => ?_
    obtain rfl | rfl : chars = [':'] ∨ chars = "GMT".toList := by
      simpa [Layout.verbose] using hchars
    all_goals decide
  obtain ⟨c, cs, hchars, hletter⟩ : ∃ c cs, Layout.chars (Layout.verbose ++ [Part.zone]) instant =
      c :: (cs ++ ['0']) ∧ ¬ c.isDigit ∧ ¬ isBlank c := by
    obtain ⟨c, name, hname, hdigit, hblank⟩ :=
      exists_weekdayName instant.date.weekday (by unfold Date.weekday; omega)
    refine ⟨c, name ++ Layout.chars Layout.verbose.tail instant ++ "+000".toList, ?_,
      hdigit, hblank⟩
    rw [Layout.chars_append, Layout.verbose, Layout.chars_cons, Part.write, hname]
    simp [Layout.chars_cons, Layout.chars_nil, Part.write]
  have htimestamp : readTimestamp (Layout.verboseUniversal.chars instant) = none := by
    rw [hzoned, hchars, List.cons_append]
    exact readTimestamp_cons hletter.1
  have htrimmed : trimBlanks (Layout.chars (Layout.verbose ++ [Part.zone]) instant) =
      Layout.chars (Layout.verbose ++ [Part.zone]) instant := by
    rw [hchars, trimBlanks_eq hletter.2 (by decide)]
  rw [ofChars?, htimestamp, hzoned, beforeParenthesis_append hplain, htrimmed, read_zoned h]
  rfl

end Instant

end QueryPad.Calendar
