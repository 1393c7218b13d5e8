import BurdahDos.Clock.Defs
import Mathlib

/-!
# Dates and numbers of days

The date that the kernel makes of a number of days is the one with this number, and the number that
it makes of a date is the right one up to the year 2100, which has no leap day.

* `dateOf_valid`, `dayNumber_dateOf`: the loops of `DosGetDate`.
* `dateOf_dayNumber`: there is no other date with the number.
* `daysFromYearMonthDay_dateOf`: when the two functions agree.
-/

set_option autoImplicit false

namespace BurdahDos
namespace Clock

open Finset

/-! ## The calendar -/

/-- The days before the year. -/
def yearStart (year : ℕ) : ℕ := ∑ y ∈ Ico 1980 year, monthdays y 12

/-- There is such a date. -/
structure DosDate.Valid (d : DosDate) : Prop where
  year : 1980 ≤ d.year
  month : 1 ≤ d.month ∧ d.month ≤ 12
  monthday : 1 ≤ d.monthday ∧
    monthdays d.year (d.month - 1) + d.monthday ≤ monthdays d.year d.month

/-- The days before the date. -/
def DosDate.dayNumber (d : DosDate) : ℕ :=
  yearStart d.year + monthdays d.year (d.month - 1) + (d.monthday - 1)

/-! ## Months -/

theorem days_mono (leap : Bool) : ∀ m < 12, days leap m < days leap (m + 1) := by
  cases leap <;> decide

theorem days_succ_le (leap : Bool) : ∀ m < 12, days leap (m + 1) ≤ days leap m + 31 := by
  cases leap <;> decide

theorem monthdays_lt (y : ℕ) {m : ℕ} (hm : m < 12) : monthdays y m < monthdays y (m + 1) :=
  days_mono _ m hm

theorem monthdays_le (y : ℕ) {m n : ℕ} (hmn : m ≤ n) (hn : n ≤ 12) :
    monthdays y m ≤ monthdays y n := by
  induction n, hmn using Nat.le_induction with
  | base => exact Nat.le_refl _
  | succ n _ ih => exact (ih (by omega)).trans (monthdays_lt y (by omega)).le

@[simp] theorem monthdays_zero (y : ℕ) : monthdays y 0 = 0 := by
  rw [monthdays]
  cases isLeapYear y <;> rfl

theorem monthdays_twelve (y : ℕ) :
    monthdays y 12 = if y % 4 = 0 ∧ y ≠ 2100 then 366 else 365 := by
  rw [monthdays]
  cases h : isLeapYear y <;> simp [isLeapYear] at h
  · rw [if_neg (by omega)]
    rfl
  · rw [if_pos h]
    rfl

theorem monthLoop_spec {pdays : ℕ → ℕ} {c : ℕ} (hend : c < pdays 12) (fuel : ℕ) {month : ℕ}
    (hle : month ≤ 12) (hfuel : 12 - month ≤ fuel) (hprev : pdays (month - 1) ≤ c)
    (hpos : 1 ≤ month) :
    (1 ≤ monthLoop pdays c fuel month ∧ monthLoop pdays c fuel month ≤ 12) ∧
      pdays (monthLoop pdays c fuel month - 1) ≤ c ∧ c < pdays (monthLoop pdays c fuel month) := by
  induction fuel generalizing month with
  | zero =>
    obtain rfl : month = 12 := by omega
    exact ⟨⟨hpos, hle⟩, hprev, hend⟩
  | succ fuel ih =>
    rw [monthLoop]
    split
    next h =>
      have hne : month ≠ 12 := by
        rintro rfl
        omega
      exact ih (by omega) (by omega) (by simpa using h) (by omega)
    next h => exact ⟨⟨hpos, hle⟩, hprev, Nat.lt_of_not_le h⟩

theorem monthdays_succ_le (y : ℕ) {m : ℕ} (hm : m < 12) :
    monthdays y (m + 1) ≤ monthdays y m + 31 :=
  days_succ_le _ m hm

theorem DosDate.Valid.monthday_le {d : DosDate} (h : d.Valid) : d.monthday ≤ 31 := by
  have hday := h.monthday
  have hmonth := h.month
  have hlen := @monthdays_succ_le d.year (d.month - 1) (by omega)
  rw [Nat.sub_add_cancel hmonth.1] at hlen
  omega

/-! ## Years -/

theorem yearStart_succ {y : ℕ} (h : 1980 ≤ y) :
    yearStart (y + 1) = yearStart y + monthdays y 12 :=
  sum_Ico_succ_top h _

theorem yearStart_le {y y' : ℕ} (h : 1980 ≤ y) (hle : y ≤ y') : yearStart y ≤ yearStart y' := by
  induction y', hle using Nat.le_induction with
  | base => exact Nat.le_refl _
  | succ n hn ih =>
    rw [yearStart_succ (h.trans hn)]
    omega

/-- The days before a year, without a loop. -/
theorem yearStart_eq {y : ℕ} (h : 1980 ≤ y) :
    yearStart y + (if 2100 < y then 1 else 0) = (y - 1980) * 365 + (y - 1980 + 3) / 4 := by
  induction y, h using Nat.le_induction with
  | base => rfl
  | succ y hy ih =>
    rw [yearStart_succ hy, monthdays_twelve]
    split at ih <;> split <;> split <;> omega

/-- **The loop over the years** takes off the days of those that are over. -/
theorem yearLoop_spec (fuel : ℕ) {year c : ℕ} (hfuel : c / 365 < fuel) (hyear : 1980 ≤ year) :
    year ≤ (yearLoop fuel year c).1 ∧
      yearStart year + c = yearStart (yearLoop fuel year c).1 + (yearLoop fuel year c).2 ∧
      (yearLoop fuel year c).2 < monthdays (yearLoop fuel year c).1 12 := by
  induction fuel generalizing year c with
  | zero => omega
  | succ fuel ih =>
    rw [yearLoop]
    split
    next h =>
      have hlen : 365 ≤ monthdays year 12 := by
        rw [monthdays_twelve]
        split <;> omega
      obtain ⟨hle, hsum, hlt⟩ := @ih (year + 1) (c - monthdays year 12) (by omega) (by omega)
      rw [yearStart_succ hyear] at hsum
      exact ⟨by omega, by omega, hlt⟩
    next h => exact ⟨Nat.le_refl _, rfl, Nat.lt_of_not_le h⟩

/-! ## The date of a number -/

theorem dateOf_spec (n : ℕ) : (dateOf n).Valid ∧ (dateOf n).dayNumber = n := by
  obtain ⟨hyear, hsum, hlt⟩ := @yearLoop_spec (n / 365 + 1) 1980 n (by omega) (Nat.le_refl _)
  have hzero : yearStart 1980 = 0 := rfl
  rw [hzero, Nat.zero_add] at hsum
  obtain ⟨hmonth, hprev, hnext⟩ := @monthLoop_spec
    (monthdays (yearLoop (n / 365 + 1) 1980 n).1) _ hlt 12 1 (by omega) (by omega) (by simp)
    (Nat.le_refl _)
  refine ⟨⟨hyear, hmonth, by simp only [dateOf]; omega, ?_⟩, ?_⟩
  · simp only [dateOf]
    omega
  · simp only [DosDate.dayNumber, dateOf]
    omega

/-- **`DosGetDate` gives a date**, for whatever number of days. -/
theorem dateOf_valid (n : ℕ) : (dateOf n).Valid := (dateOf_spec n).1

theorem dayNumber_dateOf (n : ℕ) : (dateOf n).dayNumber = n := (dateOf_spec n).2

section
variable {d d' : DosDate}

theorem DosDate.Valid.dayNumber_lt (h : d.Valid) : d.dayNumber < yearStart (d.year + 1) := by
  have := h.monthday
  have := h.month
  have := monthdays_le d.year h.month.2 (Nat.le_refl 12)
  rw [yearStart_succ h.year, DosDate.dayNumber]
  omega

/-- A date in an earlier year, or in an earlier month, has a smaller number. -/
theorem DosDate.Valid.dayNumber_lt_dayNumber (h : d.Valid) (h' : d'.Valid)
    (hlt : d.year < d'.year ∨ (d.year = d'.year ∧ d.month < d'.month)) :
    d.dayNumber < d'.dayNumber := by
  rcases hlt with hlt | ⟨hyear, hlt⟩
  · refine h.dayNumber_lt.trans_le ((yearStart_le (by have := h.year; omega) hlt).trans ?_)
    rw [DosDate.dayNumber]
    omega
  · have hday := h.monthday
    have hmonth := monthdays_le d.year (show d.month ≤ d'.month - 1 by omega)
      (by have := h'.month; omega)
    rw [DosDate.dayNumber, DosDate.dayNumber, ← hyear]
    omega

theorem DosDate.Valid.eq_of_dayNumber (h : d.Valid) (h' : d'.Valid)
    (heq : d.dayNumber = d'.dayNumber) : d = d' := by
  have hyear : d.year = d'.year := by
    rcases Nat.lt_trichotomy d.year d'.year with hlt | heq' | hlt
    · exact absurd heq (h.dayNumber_lt_dayNumber h' (.inl hlt)).ne
    · exact heq'
    · exact absurd heq (h'.dayNumber_lt_dayNumber h (.inl hlt)).ne'
  have hmonth : d.month = d'.month := by
    rcases Nat.lt_trichotomy d.month d'.month with hlt | heq' | hlt
    · exact absurd heq (h.dayNumber_lt_dayNumber h' (.inr ⟨hyear, hlt⟩)).ne
    · exact heq'
    · exact absurd heq (h'.dayNumber_lt_dayNumber h (.inr ⟨hyear.symm, hlt⟩)).ne'
  have hday : d.monthday = d'.monthday := by
    have h1 := h.monthday
    have h2 := h'.monthday
    rw [DosDate.dayNumber, DosDate.dayNumber, hyear, hmonth] at heq
    omega
  cases d
  cases d'
  simp only at hyear hmonth hday
  rw [hyear, hmonth, hday]

/-- A date is what becomes of its number. -/
theorem dateOf_dayNumber (h : d.Valid) : dateOf d.dayNumber = d :=
  (dateOf_valid _).eq_of_dayNumber h (dayNumber_dateOf _)

/-- What `DaysFromYearMonthDay` computes is one too many behind the year 2100. -/
theorem DosDate.Valid.daysFrom (h : d.Valid) :
    daysFromYearMonthDay d.year d.month d.monthday =
      (d.dayNumber + if 2100 < d.year then 1 else 0) % 65536 := by
  have hstart := yearStart_eq h.year
  have hday := h.monthday
  rw [daysFromYearMonthDay, if_neg (by have := h.year; omega), DosDate.dayNumber]
  by_cases hlate : 2100 < d.year
  · rw [if_pos hlate] at hstart ⊢
    omega
  · rw [if_neg hlate] at hstart ⊢
    omega

end

theorem dateOf_year_le_iff (n : ℕ) : (dateOf n).year ≤ 2100 ↔ n < 44195 := by
  have hvalid := dateOf_valid n
  have hnum := dayNumber_dateOf n
  have hlast : yearStart 2101 = 44195 := by
    have := @yearStart_eq 2101 (by omega)
    norm_num at this
    omega
  constructor
  · intro hle
    have := hvalid.dayNumber_lt
    have := @yearStart_le ((dateOf n).year + 1) 2101 (by have := hvalid.year; omega) (by omega)
    omega
  · intro hlt
    by_contra hgt
    have := @yearStart_le 2101 (dateOf n).year (by omega) (by omega)
    rw [DosDate.dayNumber] at hnum
    omega

/-- **The number of days of a date that has been made of one** is the same exactly if the date is not
behind the year 2100.  Behind it there is one day too many, modulo the 16 bits of the result. -/
theorem daysFromYearMonthDay_dateOf (n : ℕ) (hn : n < 65536) :
    (daysFromYearMonthDay (dateOf n).year (dateOf n).month (dateOf n).monthday = n ↔
        (dateOf n).year ≤ 2100) ∧
      (2100 < (dateOf n).year →
        daysFromYearMonthDay (dateOf n).year (dateOf n).month (dateOf n).monthday =
          (n + 1) % 65536) ∧
      ((dateOf n).year ≤ 2100 ↔ n < 44195) := by
  rw [(dateOf_valid n).daysFrom, dayNumber_dateOf]
  refine ⟨?_, fun hlate => by rw [if_pos hlate], dateOf_year_le_iff n⟩
  split <;> omega

/-- The first day of 2101, and the last day of all. -/
theorem daysFromYearMonthDay_dateOf_2101 :
    (dateOf 44195).year = 2101 ∧
      daysFromYearMonthDay (dateOf 44195).year (dateOf 44195).month (dateOf 44195).monthday =
        44196 ∧
      daysFromYearMonthDay (dateOf 65535).year (dateOf 65535).month (dateOf 65535).monthday = 0 :=
  ⟨by decide, (daysFromYearMonthDay_dateOf 44195 (by decide)).2.1 (by decide),
    (daysFromYearMonthDay_dateOf 65535 (by decide)).2.1 (by decide)⟩

end Clock
end BurdahDos
