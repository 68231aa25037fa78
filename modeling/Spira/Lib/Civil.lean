import Mathlib.Tactic.IntervalCases
import Mathlib.Data.Int.Order.Basic

/-!
# Civil dates

Days are counted from the first of March of year 0, in years that start in March: the leap day is then
the last of its year, and the months before it start at fixed days.  A date and its day number
determine each other (`ofDays_toDays`, `toDays_ofDays`), and dates are in the order of their day
numbers (`toDays_lt`).
-/

set_option autoImplicit false

namespace Civil

structure Date where
  year : ℤ
  month : ℤ
  day : ℤ
  deriving DecidableEq

def IsLeap (y : ℤ) : Prop := y % 4 = 0 ∧ (y % 100 ≠ 0 ∨ y % 400 = 0)

instance (y : ℤ) : Decidable (IsLeap y) := inferInstanceAs (Decidable (_ ∧ _))

/-- How many days a month has. -/
def monthDays (y m : ℤ) : ℤ :=
  if m = 2 then if IsLeap y then 29 else 28
  else if m = 4 ∨ m = 6 ∨ m = 9 ∨ m = 11 then 30 else 31

theorem monthDays_le (y m : ℤ) : monthDays y m ≤ 31 := by
  rw [monthDays]
  split_ifs <;> decide

/-- A date of the calendar. -/
structure Date.Valid (d : Date) : Prop where
  month : 1 ≤ d.month ∧ d.month ≤ 12
  day : 1 ≤ d.day ∧ d.day ≤ monthDays d.year d.month

instance (d : Date) : Decidable d.Valid :=
  decidable_of_iff ((1 ≤ d.month ∧ d.month ≤ 12) ∧ 1 ≤ d.day ∧ d.day ≤ monthDays d.year d.month)
    ⟨fun h ↦ ⟨h.1, h.2⟩, fun h ↦ ⟨h.month, h.day⟩⟩

/-! ## Years and months that start in March -/

/-- The first day of a year. -/
def yearStart (y : ℤ) : ℤ := 365 * y + y / 4 - y / 100 + y / 400

/-- The first day of a month in its year; March is month 0. -/
def monthStart (mp : ℤ) : ℤ := (153 * mp + 2) / 5

/-- The year, counted from March, of a date. -/
def marchYear (y m : ℤ) : ℤ := if m ≤ 2 then y - 1 else y

def marchMonth (m : ℤ) : ℤ := (m + 9) % 12

theorem yearStart_succ (y : ℤ) :
    yearStart (y + 1) = yearStart y + if IsLeap (y + 1) then 366 else 365 := by
  rw [yearStart, yearStart]
  split <;> rename_i h <;> rw [IsLeap] at h <;> omega

theorem yearStart_le {a b : ℤ} (h : a ≤ b) : yearStart a ≤ yearStart b := by
  rw [yearStart, yearStart]
  omega

theorem monthStart_le {a b : ℤ} (h : a ≤ b) : monthStart a ≤ monthStart b := by
  rw [monthStart, monthStart]
  omega

theorem marchMonth_bounds (m : ℤ) : 0 ≤ marchMonth m ∧ marchMonth m ≤ 11 := by
  rw [marchMonth]
  omega

section Month

variable {y m : ℤ} (hm : 1 ≤ m ∧ m ≤ 12)

include hm

/-- The months but the last end where the next starts. -/
theorem monthStart_succ (h : marchMonth m ≠ 11) :
    monthStart (marchMonth m + 1) = monthStart (marchMonth m) + monthDays y m := by
  obtain ⟨h₁, h₁₂⟩ := hm
  rw [marchMonth] at h ⊢
  rw [monthStart, monthStart]
  interval_cases m <;> simp [monthDays] at h ⊢

/-- The last, which is February, ends its year. -/
theorem monthStart_last (h : marchMonth m = 11) : monthStart (marchMonth m) + monthDays y m =
    if IsLeap (marchYear y m + 1) then 366 else 365 := by
  obtain rfl : m = 2 := by
    rw [marchMonth] at h
    omega
  rw [h, monthStart, monthDays, marchYear, if_pos rfl, if_pos le_rfl, Int.sub_add_cancel]
  split <;> rfl

/-- A month ends in its year. -/
theorem monthStart_add_monthDays_le : monthStart (marchMonth m) + monthDays y m ≤
    if IsLeap (marchYear y m + 1) then 366 else 365 := by
  by_cases h : marchMonth m = 11
  · exact (monthStart_last hm h).le
  · rw [← monthStart_succ hm h]
    have hle : monthStart (marchMonth m + 1) ≤ 337 :=
      (monthStart_le (b := 11) (by have := marchMonth_bounds m; omega)).trans (by decide)
    split <;> omega

end Month

/-! ## Day numbers -/

/-- The number of a date's day. -/
def toDays (d : Date) : ℤ :=
  yearStart (marchYear d.year d.month) + monthStart (marchMonth d.month) + d.day - 1

theorem toDays_lt_yearStart {d : Date} (h : d.Valid) :
    toDays d < yearStart (marchYear d.year d.month + 1) := by
  have hle := monthStart_add_monthDays_le (y := d.year) h.month
  have hday := h.day
  rw [yearStart_succ, toDays]
  omega

theorem yearStart_le_toDays {d : Date} (h : d.Valid) :
    yearStart (marchYear d.year d.month) ≤ toDays d := by
  have hstart : monthStart 0 ≤ monthStart (marchMonth d.month) :=
    monthStart_le (marchMonth_bounds d.month).1
  have hzero : monthStart 0 = 0 := rfl
  have hday := h.day
  rw [toDays]
  omega

/-- Dates in the order of their fields. -/
def Date.Before (d e : Date) : Prop :=
  d.year < e.year ∨ d.year = e.year ∧ (d.month < e.month ∨ d.month = e.month ∧ d.day < e.day)

instance (d e : Date) : Decidable (d.Before e) := inferInstanceAs (Decidable (_ ∨ _))

/-- **Dates are in the order of their day numbers.** -/
theorem toDays_lt {d e : Date} (hd : d.Valid) (he : e.Valid) (h : d.Before e) :
    toDays d < toDays e := by
  have hmd := hd.month
  have hme := he.month
  by_cases hy : marchYear d.year d.month < marchYear e.year e.month
  · calc toDays d < yearStart (marchYear d.year d.month + 1) := toDays_lt_yearStart hd
      _ ≤ yearStart (marchYear e.year e.month) := yearStart_le hy
      _ ≤ toDays e := yearStart_le_toDays he
  · have hsame : marchYear d.year d.month = marchYear e.year e.month ∧
        (marchMonth d.month < marchMonth e.month ∨
          marchMonth d.month = marchMonth e.month ∧ d.month = e.month ∧ d.day < e.day) := by
      rw [Date.Before] at h
      rw [marchYear, marchYear] at hy ⊢
      rw [marchMonth, marchMonth]
      omega
    obtain ⟨hyear, hmonth | ⟨hmonth, -, hday⟩⟩ := hsame
    · have hnext : monthStart (marchMonth d.month + 1) ≤ monthStart (marchMonth e.month) :=
        monthStart_le hmonth
      have hlast : marchMonth d.month ≠ 11 := by
        have := marchMonth_bounds e.month
        omega
      have hsucc := monthStart_succ (y := d.year) hmd hlast
      have hdd := hd.day
      have hde := he.day
      rw [toDays, toDays, hyear]
      omega
    · rw [toDays, toDays, hyear, hmonth]
      omega

/-- Two dates of the calendar are the same or one is before the other. -/
theorem Date.trichotomy (d e : Date) : d.Before e ∨ d = e ∨ e.Before d := by
  rw [Date.Before, Date.Before, Date.mk.injEq d.year d.month d.day e.year e.month e.day]
  omega

theorem toDays_inj {d e : Date} (hd : d.Valid) (he : e.Valid) (h : toDays d = toDays e) : d = e := by
  rcases d.trichotomy e with hlt | heq | hlt
  · exact absurd (toDays_lt hd he hlt) (by omega)
  · exact heq
  · exact absurd (toDays_lt he hd hlt) (by omega)

/-! ## The date of a day -/

/-- The year of its era, which has 400 years, that a day of the era is in. -/
def eraYear (doe : ℤ) : ℤ := (doe - doe / 1460 + doe / 36524 - doe / 146096) / 365

/-- The date of a day number. -/
def ofDays (z : ℤ) : Date :=
  let era := z / 146097
  let doe := z - era * 146097
  let yoe := eraYear doe
  let doy := doe - (365 * yoe + yoe / 4 - yoe / 100)
  let mp := (5 * doy + 2) / 153
  let m := if mp < 10 then mp + 3 else mp - 9
  ⟨if m ≤ 2 then yoe + era * 400 + 1 else yoe + era * 400, m, doy - monthStart mp + 1⟩

/-- A day of an era, by its century, its cycle of four years, and its year. -/
structure InEra (c q r doy : ℤ) : Prop where
  century : 0 ≤ c ∧ c ≤ 3
  cycle : 0 ≤ q ∧ q ≤ 24
  year : 0 ≤ r ∧ r ≤ 3
  day : 0 ≤ doy ∧ (doy ≤ 364 ∨ doy = 365 ∧ r = 3 ∧ (q < 24 ∨ c = 3))

theorem exists_inEra {doe : ℤ} (h₀ : 0 ≤ doe) (h₁ : doe < 146097) :
    ∃ c q r doy, InEra c q r doy ∧ doe = 36524 * c + 1461 * q + 365 * r + doy := by
  obtain ⟨c, hc⟩ : ∃ c, c = min 3 (doe / 36524) := ⟨_, rfl⟩
  obtain ⟨q, hq⟩ : ∃ q, q = (doe - 36524 * c) / 1461 := ⟨_, rfl⟩
  obtain ⟨r, hr⟩ : ∃ r, r = min 3 ((doe - 36524 * c - 1461 * q) / 365) := ⟨_, rfl⟩
  refine ⟨c, q, r, doe - 36524 * c - 1461 * q - 365 * r, ⟨?_, ?_, ?_, ?_, ?_⟩, ?_⟩ <;> omega

theorem eraYear_eq {c q r doy : ℤ} (h : InEra c q r doy) :
    eraYear (36524 * c + 1461 * q + 365 * r + doy) = 100 * c + 4 * q + r := by
  obtain ⟨⟨hc₀, hc₃⟩, ⟨hq₀, hq₂₄⟩, ⟨hr₀, hr₃⟩, hd₀, hd⟩ := h
  have hcentury : (36524 * c + 1461 * q + 365 * r + doy) / 36524 -
      (36524 * c + 1461 * q + 365 * r + doy) / 146096 = c := by
    rcases lt_or_ge (1461 * q + 365 * r + doy) 36524 with hlt | hge
    · have h₁ : (36524 * c + 1461 * q + 365 * r + doy) / 36524 = c := by omega
      have h₂ : (36524 * c + 1461 * q + 365 * r + doy) / 146096 = 0 := by omega
      omega
    · -- The last day of the era.
      obtain ⟨rfl, rfl, rfl, rfl⟩ : c = 3 ∧ q = 24 ∧ r = 3 ∧ doy = 365 := by omega
      decide
  have hcycle : (36524 * c + 1461 * q + 365 * r + doy) / 1460 =
      25 * c + q + (24 * c + q + 365 * r + doy) / 1460 := by
    omega
  rw [eraYear]
  omega

/-- A day is one of its year. -/
theorem exists_year (z : ℤ) : ∃ y doy, 0 ≤ doy ∧ doy < (if IsLeap (y + 1) then 366 else 365) ∧
    z = yearStart y + doy ∧
      y = eraYear (z - z / 146097 * 146097) + z / 146097 * 400 ∧
        doy = z - z / 146097 * 146097 - (365 * eraYear (z - z / 146097 * 146097) +
          eraYear (z - z / 146097 * 146097) / 4 - eraYear (z - z / 146097 * 146097) / 100) := by
  obtain ⟨era, hera⟩ : ∃ era, z / 146097 = era := ⟨_, rfl⟩
  have hdoe₀ : 0 ≤ z - z / 146097 * 146097 := by omega
  obtain ⟨c, q, r, doy, hin, hdoe⟩ := exists_inEra hdoe₀ (by omega)
  have hyoe := eraYear_eq hin
  rw [← hdoe] at hyoe
  obtain ⟨hc, hq, hr, hd₀, hd⟩ := hin
  rw [hyoe, hera]
  rw [hera] at hdoe
  refine ⟨_, doy, hd₀, ?_, ?_, rfl, ?_⟩
  · split <;> rename_i hleap
    · omega
    · rw [IsLeap] at hleap
      omega
  · rw [yearStart]
    omega
  · omega

/-- The month, counted from March, of a day of a year. -/
theorem monthStart_le_doy {doy : ℤ} (h : 0 ≤ doy ∧ doy < 366) :
    monthStart ((5 * doy + 2) / 153) ≤ doy ∧ doy < monthStart ((5 * doy + 2) / 153 + 1) ∧
      0 ≤ (5 * doy + 2) / 153 ∧ (5 * doy + 2) / 153 ≤ 11 := by
  rw [monthStart, monthStart]
  omega

/-- **The date of a day is one of the calendar, and its number is the day's.** -/
theorem ofDays_spec (z : ℤ) : (ofDays z).Valid ∧ toDays (ofDays z) = z := by
  obtain ⟨y, doy, hd₀, hd, hz, hy, hdoy⟩ := exists_year z
  have hlt : doy < 366 := by split at hd <;> omega
  obtain ⟨hle, hnext, hmp₀, hmp₁₁⟩ := monthStart_le_doy ⟨hd₀, hlt⟩
  obtain ⟨mp, hmp⟩ : ∃ mp, (5 * doy + 2) / 153 = mp := ⟨_, rfl⟩
  obtain ⟨m, hm⟩ : ∃ m, (if mp < 10 then mp + 3 else mp - 9) = m := ⟨_, rfl⟩
  have hdate : ofDays z = ⟨if m ≤ 2 then y + 1 else y, m, doy - monthStart mp + 1⟩ := by
    rw [ofDays, ← hdoy, hmp, hm, ← hy]
  rw [hmp] at hle hnext hmp₀ hmp₁₁
  have hmonth : 1 ≤ m ∧ m ≤ 12 ∧ marchMonth m = mp := by
    rw [marchMonth]
    split at hm <;> omega
  have hyear : marchYear (if m ≤ 2 then y + 1 else y) m = y := by
    rw [marchYear]
    split <;> omega
  rw [hdate]
  refine ⟨⟨⟨hmonth.1, hmonth.2.1⟩, ?_, ?_⟩, ?_⟩
  · show 1 ≤ doy - monthStart mp + 1
    omega
  · show doy - monthStart mp + 1 ≤ monthDays (if m ≤ 2 then y + 1 else y) m
    by_cases hlast : mp = 11
    · have hend := monthStart_last (y := if m ≤ 2 then y + 1 else y) ⟨hmonth.1, hmonth.2.1⟩
        (hmonth.2.2.trans hlast)
      rw [hyear, hmonth.2.2] at hend
      omega
    · have hsucc := monthStart_succ (y := if m ≤ 2 then y + 1 else y) ⟨hmonth.1, hmonth.2.1⟩
        (hmonth.2.2 ▸ hlast)
      rw [hmonth.2.2] at hsucc
      omega
  · rw [toDays, hyear, hmonth.2.2]
    show yearStart y + monthStart mp + (doy - monthStart mp + 1) - 1 = z
    omega

theorem ofDays_valid (z : ℤ) : (ofDays z).Valid := (ofDays_spec z).1

theorem toDays_ofDays (z : ℤ) : toDays (ofDays z) = z := (ofDays_spec z).2

/-- **A date of the calendar is the date of its day's number.** -/
theorem ofDays_toDays {d : Date} (h : d.Valid) : ofDays (toDays d) = d :=
  toDays_inj (ofDays_valid _) h (toDays_ofDays _)

/-- A date is the date of its day's number only where it is one of the calendar. -/
theorem ofDays_toDays_iff {d : Date} : ofDays (toDays d) = d ↔ d.Valid :=
  ⟨fun h ↦ h ▸ ofDays_valid _, ofDays_toDays⟩

end Civil
