import Mathlib.Algebra.Ring.Nat
import Mathlib.Data.Option.Basic
import QueryPad.Calendar.Reader
import QueryPad.Proofs.Calendar.Date
import QueryPad.Proofs.Token.Words

-- What is written of an instant, read again part by part.
namespace QueryPad.Calendar

open Text

section Numbers

theorem digitsValue_eq (digits : List Char) :
    digitsValue digits = Nat.ofDigitChars 10 digits 0 := by
  have hstep : (fun total (c : Char) => total * 10 + (c.toNat - 48)) =
      fun total c => 10 * total + (c.toNat - '0'.toNat) := by
    funext total c
    rw [Nat.mul_comm]
    rfl
  rw [digitsValue, hstep, Nat.ofDigitChars]

theorem isDigit_of_mem_padded {width n : Nat} : ∀ c ∈ padded width n, c.isDigit :=
  (JsonNumber.isDigit_padded _ (isDigit_toDigits n)).1

theorem digitsValue_padded (width n : Nat) : digitsValue (padded width n) = n := by
  have hzeros (zeros : Nat) (digits : List Char) :
      Nat.ofDigitChars 10 (List.replicate zeros '0' ++ digits) 0 =
        Nat.ofDigitChars 10 digits 0 := by
    induction zeros with
    | zero => rfl
    | succ zeros ih => simpa [List.replicate_succ, Nat.ofDigitChars_cons] using ih
  rw [digitsValue_eq, padded, hzeros, Nat.ofDigitChars_ten_toDigits]

theorem length_padded {width n : Nat} (hwidth : 0 < width) (h : n < 10 ^ width) :
    (padded width n).length = width := by
  have hle := (Nat.length_toDigits_le_iff (by decide) hwidth).mpr h
  rw [padded, List.length_append, List.length_replicate]
  omega

theorem padded_ne_nil {width n : Nat} : padded width n ≠ [] := by
  simp [padded, Nat.toDigits_ne_nil]

theorem head?_padded {width n : Nat} {rest : List Char} :
    ∀ c ∈ (padded width n ++ rest).head?, c.isDigit := by
  obtain ⟨d, ds, hdigits⟩ := List.exists_cons_of_ne_nil (@padded_ne_nil width n)
  have hd := isDigit_of_mem_padded d (hdigits ▸ List.mem_cons_self)
  simpa [hdigits] using hd

theorem readNanos_padded {n : Nat} (h : n < 1000) {rest : List Char}
    (hrest : ∀ c ∈ rest.head?, ¬ c.isDigit) :
    readNanos (padded 3 n ++ rest) = some (n * 1000000, rest) := by
  have hlength := length_padded (by decide : 0 < 3) h
  have htaken := (takeWhile_append_stop (@isDigit_of_mem_padded 3 n) hrest).1
  have hkept : (padded 3 n).take 9 = padded 3 n := List.take_of_length_le (by omega)
  have hdigits : padded 3 n ≠ [] := padded_ne_nil
  simp only [readNanos, htaken, hdigits, hkept, ne_eq, not_false_eq_true, guard, if_true,
    digitsValue_padded, hlength, List.drop_left' hlength]
  rfl

variable {least most : Nat} {digits rest : List Char}

-- The digits end where no digit follows, or where there are as many as may be.
theorem readNumber_append (hdigits : ∀ c ∈ digits, c.isDigit) (hleast : least ≤ digits.length)
    (hmost : digits.length ≤ most)
    (hrest : digits.length < most → ∀ c ∈ rest.head?, ¬ c.isDigit) :
    readNumber least most (digits ++ rest) = some (digitsValue digits, rest) := by
  have htaken : ((digits ++ rest).take most).takeWhile Char.isDigit = digits := by
    rw [List.take_append, List.take_of_length_le hmost]
    refine (takeWhile_append_stop hdigits fun c hc => ?_).1
    obtain hshort | hfull := Nat.lt_or_ge digits.length most
    · rw [List.head?_take, if_neg (by omega)] at hc
      exact hrest hshort c hc
    · simp [Nat.sub_eq_zero_of_le hfull] at hc
  simp [readNumber, htaken, Nat.not_lt.mpr hleast]

theorem readNumber_padded {width n : Nat} (hwidth : 0 < width) (h : n < 10 ^ width)
    (hleast : least ≤ width) (rest : List Char) :
    readNumber least width (padded width n ++ rest) = some (n, rest) := by
  have hlength := length_padded hwidth h
  rw [readNumber_append isDigit_of_mem_padded (by omega) (by omega) (by omega), digitsValue_padded]

end Numbers

-- The nanoseconds go on past a thousand million in the last second of a
-- minute alone.
structure Instant.IsProper (instant : Instant) : Prop where
  inRange : instant.isInRange
  nanos : instant.nanos < 1000000000 ∨ instant.nanos < 2000000000 ∧ instant.seconds % 60 = 59

section Names

variable (rest : List Char)

theorem readName_weekday : ∀ n < 7,
    readName weekdayNames (weekdayNames.getD n [] ++ rest) = some (n, rest)
  | 0, _ | 1, _ | 2, _ | 3, _ | 4, _ | 5, _ | 6, _ => rfl
  | _ + 7, h => absurd h (by omega)

theorem readName_month : ∀ n < 12,
    readName monthNames (monthNames.getD n [] ++ rest) = some (n, rest)
  | 0, _ | 1, _ | 2, _ | 3, _ | 4, _ | 5, _ | 6, _ | 7, _ | 8, _ | 9, _ | 10, _ | 11, _ => rfl
  | _ + 12, h => absurd h (by omega)

theorem exists_monthName : ∀ n < 12, ∃ c cs, monthNames.getD n [] = c :: cs ∧ ¬ isBlank c
  | 0, _ | 1, _ | 2, _ | 3, _ | 4, _ | 5, _ | 6, _ | 7, _ | 8, _ | 9, _ | 10, _ | 11, _ =>
    ⟨_, _, rfl, by decide⟩
  | _ + 12, h => absurd h (by omega)

theorem not_isBlank_monthName {n : Nat} (h : n < 12) :
    ∀ c ∈ (monthNames.getD n [] ++ rest).head?, ¬ isBlank c := by
  obtain ⟨first, more, hname, hfirst⟩ := exists_monthName n h
  rw [hname]
  simpa using hfirst

end Names

theorem skipBlanks_eq {cs : List Char} (h : ∀ c ∈ cs.head?, ¬ isBlank c) : skipBlanks cs = cs := by
  cases cs with
  | nil => rfl
  | cons c cs => simp [skipBlanks, h c rfl]

theorem skipBlanks_cons {c : Char} {cs : List Char} (h : isBlank c) :
    skipBlanks (c :: cs) = skipBlanks cs := by
  simp [skipBlanks, h]

theorem not_isBlank_padded {width n : Nat} {rest : List Char} :
    ∀ c ∈ (padded width n ++ rest).head?, ¬ isBlank c :=
  fun c hc => by simp [of_isDigit (head?_padded c hc)]

theorem readYear_digits {cs : List Char} (h : ∀ c ∈ cs.head?, c.isDigit) :
    readYear cs = (readNumber 1 4 cs).map fun (n, rest) => ((n : Int), rest) := by
  rw [readYear]
  · rintro rest rfl
    exact absurd (h '-' rfl) (by decide)
  · rintro rest rfl
    exact absurd (h '+' rfl) (by decide)

theorem not_isBlank_writeYear {year : Int} {rest : List Char} :
    ∀ c ∈ (writeYear year ++ rest).head?, ¬ isBlank c := by
  unfold writeYear
  split
  · exact not_isBlank_padded
  · split <;> (simp; decide)

theorem readYear_write (year : Int) {rest : List Char} (hrest : ∀ c ∈ rest.head?, ¬ c.isDigit) :
    readYear (skipBlanks (writeYear year ++ rest)) = some (year, rest) := by
  have hsigned : readNumber 1 (padded 4 year.natAbs ++ rest).length (padded 4 year.natAbs ++ rest) =
      some (year.natAbs, rest) := by
    have hpositive := List.length_pos_iff.mpr (@padded_ne_nil 4 year.natAbs)
    rw [readNumber_append isDigit_of_mem_padded hpositive (by simp) fun _ => hrest,
      digitsValue_padded]
  rw [writeYear]
  split
  · next hplain =>
    simp only [Bool.and_eq_true, decide_eq_true_eq] at hplain
    rw [skipBlanks_eq not_isBlank_padded, readYear_digits head?_padded,
      readNumber_padded (by decide) (by omega) (by decide)]
    simp only [Option.map_some, Int.toNat_of_nonneg hplain.1]
  · split
    · have hnegative : -(year.natAbs : Int) = year := by omega
      rw [List.cons_append, skipBlanks_eq (by simp; decide), readYear, hsigned]
      simp only [Option.map_some, hnegative]
    · have hpositive : (year.natAbs : Int) = year := by omega
      rw [List.cons_append, skipBlanks_eq (by simp; decide), readYear, hsigned]
      simp only [Option.map_some, hpositive]

theorem readOffset_zero (separator : List Char → Option (List Char)) (rest : List Char)
    (h : separator ('0' :: '0' :: rest) = some ('0' :: '0' :: rest)) :
    readOffset separator ("+0000".toList ++ rest) = some (0, rest) := by
  have hzeros (rest : List Char) : readNumber 2 2 ('0' :: '0' :: rest) = some (0, rest) := rfl
  have hsign : readSign ('+' :: '0' :: '0' :: '0' :: '0' :: rest) =
      some (1, '0' :: '0' :: '0' :: '0' :: rest) := rfl
  simp [readOffset, hsign, hzeros, h, guard]

-- What numbers and names are made of.
def isDatePart (c : Char) : Bool := c.isAlphanum || ['+', '-', '.', ' '].contains c

namespace Part

-- The text that may stand behind a part as it is written.
def Ends (rest : List Char) : Part → Prop
  | year | fraction => ∀ c ∈ rest.head?, ¬ c.isDigit
  | blank => ∀ c ∈ rest.head?, ¬ isBlank c
  | _ => True

-- What a part that is written of an instant says of it.
def note (instant : Instant) (fields : Fields) : Part → Fields
  | year => { fields with year := instant.date.year }
  | month | monthName => { fields with month := instant.date.month }
  | day => { fields with day := instant.date.day }
  | hour => { fields with hour := (instant.seconds % 86400).toNat / 3600 }
  | minute => { fields with minute := (instant.seconds % 86400).toNat / 60 % 60 }
  | second => { fields with
      second := (instant.seconds % 86400).toNat % 60 + instant.nanos / 1000000000 }
  | fraction => { fields with nanos := instant.nanos % 1000000000 / 1000000 * 1000000 }
  | weekdayName => { fields with weekday := instant.date.weekday }
  | zone => { fields with offset := 0 }
  | blank | text _ => fields

variable {instant : Instant} {part : Part} {rest : List Char}

theorem read_two {n : Nat} (h : n < 100) (set : Nat → Fields) :
    read.two (padded 2 n ++ rest) set = some (set n, rest) := by
  rw [read.two, skipBlanks_eq not_isBlank_padded,
    readNumber_padded (by decide) h (by decide)]
  rfl

theorem read_write (h : instant.IsProper) (fields : Fields) (hrest : part.Ends rest) :
    part.read fields (part.write instant ++ rest) = some (part.note instant fields, rest) := by
  obtain ⟨hmonth, hday⟩ := Date.isValid_ends (Instant.isValid_date h.inRange)
  have hsecond : (instant.seconds % 86400).toNat < 86400 := by omega
  cases part with
  | year =>
    rw [read, write, readYear_write _ hrest]
    rfl
  | month =>
    rw [read, write, read_two (by omega)]
    rfl
  | day =>
    rw [read, write, read_two (by omega)]
    rfl
  | hour =>
    rw [read, write, read_two (by omega)]
    rfl
  | minute =>
    rw [read, write, read_two (by omega)]
    rfl
  | second =>
    have hnanos := h.nanos
    rw [read, write, read_two (by omega)]
    rfl
  | fraction =>
    rw [write, List.cons_append, read, readNanos_padded (by omega) hrest]
    rfl
  | weekdayName =>
    rw [write, read, readName_weekday _ _ (by unfold Date.weekday; omega)]
    rfl
  | monthName =>
    rw [write, read, readName_month _ _ (by omega)]
    simp [note, Nat.sub_add_cancel hmonth.1]
  | zone =>
    have hsign : ∀ c ∈ ("+0000".toList ++ rest).head?, ¬ isBlank c := by
      simp
      decide
    have hzero : isBlank '0' = false := by decide
    rw [read, write, skipBlanks_eq hsign, readOffset_zero _ _ (by simp [hzero])]
    rfl
  | blank =>
    rw [read, write, List.cons_append, List.nil_append, skipBlanks_cons (by decide),
      skipBlanks_eq hrest]
    rfl
  | text chars => simp [read, write, note]

theorem isDatePart_getD {names : List (List Char)} (h : ∀ name ∈ names, name.all isDatePart)
    (n : Nat) : ∀ c ∈ names.getD n [], isDatePart c := by
  intro c hc
  rw [List.getD_eq_getElem?_getD] at hc
  cases hname : names[n]? with
  | none => simp [hname] at hc
  | some name =>
    rw [hname] at hc
    exact List.all_eq_true.mp (h name (List.mem_of_getElem? hname)) c hc

theorem isDatePart_write (hpart : ∀ chars, part ≠ text chars) :
    ∀ c ∈ part.write instant, isDatePart c := by
  have hdigits (width n : Nat) : ∀ c ∈ padded width n, isDatePart c := fun c hc => by
    simp [isDatePart, Char.isAlphanum, isDigit_of_mem_padded c hc]
  cases part with
  | year =>
    rw [write, writeYear]
    split
    · exact hdigits _ _
    · refine List.forall_mem_cons.mpr ⟨?_, hdigits _ _⟩
      split <;> decide
  | month | day | hour | minute | second => exact hdigits _ _
  | fraction => exact List.forall_mem_cons.mpr ⟨by decide, hdigits _ _⟩
  | weekdayName => exact isDatePart_getD (by decide) _
  | monthName => exact isDatePart_getD (by decide) _
  | zone => exact List.all_eq_true.mp (by decide : "+0000".toList.all isDatePart)
  | blank => exact List.all_eq_true.mp (by decide : [' '].all isDatePart)
  | text chars => exact absurd rfl (hpart chars)

end Part

namespace Layout

variable {instant : Instant} {rest : List Char}

def chars (layout : Layout) (instant : Instant) : List Char := layout.flatMap (·.write instant)

theorem chars_cons (part : Part) (layout : Layout) :
    chars (part :: layout) instant = part.write instant ++ layout.chars instant := rfl

theorem chars_append (layout later : Layout) :
    chars (layout ++ later) instant = layout.chars instant ++ later.chars instant :=
  List.flatMap_append

theorem chars_nil : chars [] instant = [] := rfl

-- What stands behind each part ends it.
def IsApart (instant : Instant) (rest : List Char) : Layout → Prop
  | [] => True
  | part :: layout => part.Ends (chars layout instant ++ rest) ∧ IsApart instant rest layout

theorem readParts_chars (h : instant.IsProper) {layout : Layout}
    (hapart : layout.IsApart instant rest) (fields : Fields) :
    layout.readParts fields (layout.chars instant ++ rest) =
      some (layout.foldl (Part.note instant) fields, rest) := by
  induction layout generalizing fields with
  | nil => rfl
  | cons part layout ih =>
    obtain ⟨hends, hlater⟩ := hapart
    rw [chars_cons, List.append_assoc, readParts, Part.read_write h fields hends]
    exact ih hlater _

theorem not_mem_chars {layout : Layout} {c : Char} (hc : ¬ isDatePart c)
    (htext : ∀ chars, Part.text chars ∈ layout → c ∉ chars) : c ∉ layout.chars instant := by
  intro hmem
  obtain ⟨part, hpart, hwritten⟩ := List.mem_flatMap.mp hmem
  by_cases hplain : ∀ chars, part ≠ .text chars
  · exact hc (Part.isDatePart_write hplain c hwritten)
  · obtain ⟨chars, rfl⟩ : ∃ chars, part = .text chars := by simpa using hplain
    exact htext chars hpart hwritten

theorem fractions_isApart (instant : Instant) : fractions.IsApart instant [] := by
  simp [fractions, seconds, minutes, IsApart, Part.Ends, chars_cons, chars_nil, Part.write,
    Char.isDigit]

theorem zoned_isApart (h : instant.IsProper) : IsApart instant [] (verbose ++ [Part.zone]) := by
  obtain ⟨hmonth, -⟩ := Date.isValid_ends (Instant.isValid_date h.inRange)
  have hletter : ∀ c ∈ ("GMT".toList ++ (chars [Part.zone] instant ++ [])).head?, ¬ isBlank c := by
    simp
    decide
  have hblank (rest : List Char) : ∀ c ∈ (' ' :: rest).head?, ¬ c.isDigit := by simp
  simp only [verbose, List.cons_append, List.nil_append, IsApart, Part.Ends, chars_cons, Part.write,
    List.append_assoc, true_and, and_true]
  exact ⟨not_isBlank_monthName _ (by omega), not_isBlank_padded, not_isBlank_writeYear,
    hblank _, not_isBlank_padded, hletter⟩

end Layout

end QueryPad.Calendar
