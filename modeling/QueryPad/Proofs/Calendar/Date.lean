import QueryPad.Calendar.Date

-- Days and dates: each day has one date of the calendar, and it is a valid one.
namespace QueryPad.Calendar

-- The day of its era on which a year begins that is counted from March.
def yearStart (year : Int) : Int := 365 * year + year / 4 - year / 100 + year / 400

-- The year that holds a day of an era.
def yearOfDay (day : Int) : Int := (day - day / 1460 + day / 36524 - day / 146096) / 365

theorem yearOfDay_mono {day later : Int} (hle : day ≤ later) :
    yearOfDay day ≤ yearOfDay later := by
  have hquarter : day - day / 1460 ≤ later - later / 1460 := by omega
  have hcentury : day / 36524 ≤ later / 36524 := by omega
  have hera : later / 146096 - day / 146096 ≤ later / 36524 - day / 36524 := by omega
  exact Int.ediv_le_ediv (by decide) (by omega)

-- The first and the last day of each year.
theorem yearOfDay_ends : ∀ year : Nat, year < 400 →
    yearOfDay (yearStart year) = year ∧ yearOfDay (yearStart (year + 1) - 1) = year := by
  decide +kernel

theorem exists_year {day : Int} (hstart : 0 ≤ day) (years : Nat) (h : day < yearStart years) :
    ∃ year : Nat, year < years ∧ yearStart year ≤ day ∧ day < yearStart (year + 1) := by
  induction years with
  | zero => exact absurd h (by simp [yearStart, hstart])
  | succ years ih =>
    by_cases hbefore : day < yearStart years
    · obtain ⟨year, hyear, hday⟩ := ih hbefore
      exact ⟨year, by omega, hday⟩
    · exact ⟨years, by omega, by omega, by simpa using h⟩

-- A day lies in the year that is computed for it.
theorem yearOfDay_holds {day : Int} (hstart : 0 ≤ day) (hend : day < 146097) :
    0 ≤ yearOfDay day ∧ yearOfDay day < 400 ∧ yearStart (yearOfDay day) ≤ day ∧
      day < yearStart (yearOfDay day + 1) := by
  obtain ⟨year, hyear, hlow, hhigh⟩ := exists_year hstart 400 hend
  obtain ⟨hfirst, hlast⟩ := yearOfDay_ends year hyear
  have hge := yearOfDay_mono hlow
  have hle := yearOfDay_mono (by omega : day ≤ yearStart (year + 1) - 1)
  obtain hsame : yearOfDay day = year := by omega
  rw [hsame]
  omega

-- How long a year is.
theorem yearStart_succ (year : Int) :
    yearStart (year + 1) - yearStart year = if isLeapYear (year + 1) then 366 else 365 := by
  simp only [yearStart, isLeapYear, Bool.and_eq_true, Bool.or_eq_true, decide_eq_true_eq]
  split <;> omega

theorem yearStart_mono {year later : Int} (h : year ≤ later) :
    yearStart year ≤ yearStart later := by
  have hcentury : later / 100 - year / 100 ≤ later - year := by omega
  unfold yearStart
  omega

theorem yearStart_add_era (year era : Int) :
    yearStart (year + era * 400) = era * 146097 + yearStart year := by
  unfold yearStart
  omega

-- A day by its era, the year and the month counted from March, and the days
-- before it in its month.
structure Place where
  era : Int
  year : Int
  month : Int
  day : Int

namespace Place

def date (place : Place) : Date :=
  ⟨place.year + place.era * 400 + if place.month < 10 then 0 else 1,
    (if place.month < 10 then place.month + 3 else place.month - 9).toNat, (place.day + 1).toNat⟩

structure IsProper (place : Place) : Prop where
  year : 0 ≤ place.year ∧ place.year < 400
  month : 0 ≤ place.month ∧ place.month < 12
  day : 0 ≤ place.day ∧
    (153 * place.month + 2) / 5 + place.day < (153 * (place.month + 1) + 2) / 5
  dayOfYear : (153 * place.month + 2) / 5 + place.day <
    yearStart (place.year + 1) - yearStart place.year

variable {place : Place}

theorem IsProper.toDays (h : place.IsProper) : place.date.toDays =
    place.era * 146097 + yearStart place.year + (153 * place.month + 2) / 5 + place.day -
      719468 := by
  obtain ⟨hyear, hmonth, hday, _⟩ := h
  have hfromMarch : (place.date.month + 9 : Int) % 12 = place.month := by
    unfold date
    dsimp only
    split <;> omega
  have hcounted : (if place.date.month ≤ 2 then place.date.year - 1 else place.date.year) =
      place.year + place.era * 400 := by
    unfold date
    dsimp only
    split <;> split <;> omega
  have hdate : (place.date.day : Int) = place.day + 1 := by
    unfold date
    dsimp only
    omega
  simp only [Date.toDays, hfromMarch, hcounted, hdate, yearStart]
  omega

theorem IsProper.dayOfYear_add_era (h : place.IsProper) :
    (153 * place.month + 2) / 5 + place.day <
      yearStart (place.year + place.era * 400 + 1) - yearStart (place.year + place.era * 400) := by
  have hnext := yearStart_add_era (place.year + 1) place.era
  have hthis := yearStart_add_era place.year place.era
  have hend := h.dayOfYear
  rw [Int.add_right_comm] at hnext
  omega

theorem IsProper.daysInMonth (h : place.IsProper) :
    place.date.day ≤ Calendar.daysInMonth place.date.year place.date.month := by
  have hend := h.dayOfYear_add_era
  rw [yearStart_succ] at hend
  obtain ⟨-, hmonth, hday, -⟩ := h
  have hcases : place.month = 0 ∨ place.month = 1 ∨ place.month = 2 ∨ place.month = 3 ∨
      place.month = 4 ∨ place.month = 5 ∨ place.month = 6 ∨ place.month = 7 ∨ place.month = 8 ∨
      place.month = 9 ∨ place.month = 10 ∨ place.month = 11 := by omega
  unfold date Calendar.daysInMonth
  -- the last month is the one that a leap year makes longer
  rcases hcases with h | h | h | h | h | h | h | h | h | h | h | h <;>
    simp only [h] at hday hend ⊢ <;> simp <;> split at hend <;> simp_all <;> omega

end Place

-- The place of a day, as its date is computed.
def placeOf (days : Int) : Place :=
  let day := (days + 719468) % 146097
  let dayOfYear := day - yearStart (yearOfDay day)
  let month := (5 * dayOfYear + 2) / 153
  ⟨(days + 719468) / 146097, yearOfDay day, month, dayOfYear - (153 * month + 2) / 5⟩

theorem yearOfDay_emod (days : Int) :
    0 ≤ yearOfDay (days % 146097) ∧ yearOfDay (days % 146097) < 400 ∧
      yearStart (yearOfDay (days % 146097)) ≤ days % 146097 ∧
      days % 146097 < yearStart (yearOfDay (days % 146097) + 1) :=
  yearOfDay_holds (by omega) (by omega)

theorem placeOf_isProper (days : Int) : (placeOf days).IsProper := by
  obtain ⟨hlow, hhigh, hstart, hend⟩ := yearOfDay_emod (days + 719468)
  have hlength := yearStart_succ (yearOfDay ((days + 719468) % 146097))
  unfold placeOf
  constructor <;> dsimp only <;> split at hlength <;> omega

namespace Date

theorem ofDays_eq (days : Int) : ofDays days = (placeOf days).date := by
  obtain ⟨hlow, hhigh, -⟩ := yearOfDay_emod (days + 719468)
  obtain ⟨-, ⟨hfirst, hlast⟩, hday, -⟩ := placeOf_isProper days
  have hera : yearOfDay ((days + 719468) % 146097) / 400 = 0 := by omega
  have hyear (day : Int) :
      (day - day / 1460 + day / 36524 - day / 146096) / 365 = yearOfDay day := rfl
  simp only [placeOf, yearStart, hera, Int.add_zero] at hfirst hlast hday
  simp only [ofDays, Place.date, placeOf, yearStart, hyear, hera, Int.add_zero]
  split <;> simp <;> omega

-- A date names the day that it is the date of.
theorem toDays_ofDays (days : Int) : (ofDays days).toDays = days := by
  rw [ofDays_eq, (placeOf_isProper days).toDays]
  simp only [placeOf]
  omega

theorem isValid_ends {date : Date} (h : date.isValid) :
    (1 ≤ date.month ∧ date.month ≤ 12) ∧ 1 ≤ date.day ∧ date.day ≤ 31 := by
  simp only [isValid, Bool.and_eq_true, decide_eq_true_eq] at h
  have hmonth : daysInMonth date.year date.month ≤ 31 := by
    unfold daysInMonth
    split <;> (try split) <;> omega
  omega

-- A day that the calendar reaches has a date of the calendar.
theorem isValid_ofDays {days : Int} (hfirst : (⟨firstYear, 1, 1⟩ : Date).toDays ≤ days)
    (hlast : days ≤ (⟨lastYear, 12, 31⟩ : Date).toDays) : (ofDays days).isValid := by
  have hplace := placeOf_isProper days
  have hdays := toDays_ofDays days
  rw [ofDays_eq] at hdays ⊢
  generalize placeOf days = place at hplace hdays ⊢
  have hmonth := hplace.daysInMonth
  have hwithin := hplace.dayOfYear_add_era
  rw [hplace.toDays, ← yearStart_add_era] at hdays
  obtain ⟨-, hfromMarch, hday, -⟩ := hplace
  have hfirstDay : (⟨firstYear, 1, 1⟩ : Date).toDays = yearStart (-262144) + 306 - 719468 := by decide
  have hlastDay : (⟨lastYear, 12, 31⟩ : Date).toDays = yearStart 262142 + 305 - 719468 := by decide
  rw [hfirstDay] at hfirst
  rw [hlastDay] at hlast
  simp only [isValid, Bool.and_eq_true, decide_eq_true_eq, hmonth, and_true]
  simp only [Place.date, firstYear, lastYear]
  generalize place.year + place.era * 400 = year at *
  have hlow : -262144 ≤ year := by
    refine Int.not_lt.mp fun hlt => ?_
    have := yearStart_mono (by omega : year + 1 ≤ -262144)
    omega
  have hhigh : year ≤ 262142 := by
    refine Int.not_lt.mp fun hlt => ?_
    have := yearStart_mono (by omega : 262142 + 1 ≤ year)
    have : yearStart (262142 + 1) = yearStart 262142 + 365 := by decide
    omega
  -- the first and the last of these years are not whole
  have hafter : year = -262144 → 10 ≤ place.month := by
    rintro rfl
    omega
  have hbefore : year = 262142 → place.month < 10 := by
    rintro rfl
    omega
  split <;> omega

end Date

namespace Instant

theorem isValid_date {instant : Instant} (h : instant.isInRange) : instant.date.isValid := by
  simp only [isInRange, Bool.and_eq_true, decide_eq_true_eq] at h
  exact Date.isValid_ofDays (by omega) (by omega)

end Instant

end QueryPad.Calendar
