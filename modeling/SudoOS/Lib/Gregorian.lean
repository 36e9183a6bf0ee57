import Mathlib

/-!
The proleptic Gregorian calendar. Days are counted through the years and months from 1 January of the year 0, which is a
leap year. An era is the period of 400 years that begins on 1 March of the year 0, or a multiple of 400 years later.
-/

namespace Gregorian

def IsLeap (y : Nat) : Prop := 4 ∣ y ∧ (¬100 ∣ y ∨ 400 ∣ y)

instance (y : Nat) : Decidable (IsLeap y) := inferInstanceAs (Decidable (_ ∧ _))

def leapDay (y : Nat) : Nat := if IsLeap y then 1 else 0

def monthLength (y : Nat) : Nat → Nat
  | 1 => 28 + leapDay y
  | 3 | 5 | 8 | 10 => 30
  | _ => 31

/-- The days of the year before a month. -/
def monthStart (y : Nat) : Nat → Nat
  | 0 => 0
  | m + 1 => monthStart y m + monthLength y m

def yearStart : Nat → Nat
  | 0 => 0
  | y + 1 => yearStart y + 365 + leapDay y

structure IsDate (n y m d : Nat) : Prop where
  month : m < 12
  day : 1 ≤ d ∧ d ≤ monthLength y m
  number : n + 1 = yearStart y + monthStart y m + d

theorem leapDay_le (y : Nat) : leapDay y ≤ 1 := by
  unfold leapDay
  split_ifs <;> decide

theorem IsDate.lt_year {n y m d : Nat} (h : IsDate n y m d) : n < yearStart y + 366 := by
  obtain ⟨hmonth, ⟨-, hday⟩, hnumber⟩ := h
  have := leapDay_le y
  interval_cases m <;> simp only [monthStart, monthLength] at hnumber hday <;> omega

def marchStart (y : Nat) : Nat := 365 * y + y / 4 - y / 100 + y / 400

theorem marchStart_succ (y : Nat) : marchStart (y + 1) = marchStart y + 365 + leapDay (y + 1) := by
  have h₁ : 100 ∣ y + 1 → 4 ∣ y + 1 := Nat.dvd_trans (by decide)
  have h₂ : 400 ∣ y + 1 → 100 ∣ y + 1 := Nat.dvd_trans (by decide)
  have hbound : y / 100 ≤ y / 4 := Nat.div_le_div_left (by decide) (by decide)
  simp only [marchStart, leapDay, IsLeap, Nat.succ_div]
  by_cases h₄ : 4 ∣ y + 1 <;> by_cases h₁₀₀ : 100 ∣ y + 1 <;> by_cases h₄₀₀ : 400 ∣ y + 1 <;> simp_all <;> omega

theorem yearStart_add_leapDay (y : Nat) : yearStart y + leapDay y = marchStart y + 1 := by
  induction y with
  | zero => rfl
  | succ y ih =>
    rw [yearStart, marchStart_succ]
    omega

theorem isDate_of_march {y mp doy : Nat} (hmp : mp = (5 * doy + 2) / 153) (hlt : mp < 10) :
    IsDate (marchStart y + doy + 60) y (mp + 2) (doy - (153 * mp + 2) / 5 + 1) := by
  have hyear := yearStart_add_leapDay y
  refine ⟨by omega, ⟨by omega, ?_⟩, ?_⟩
  · interval_cases mp <;> simp only [monthLength] <;> omega
  · interval_cases mp <;> simp only [monthStart, monthLength] <;> omega

/-- A date in January or February, which are the last months of the year that begins in March. -/
theorem isDate_of_winter {y mp doy : Nat} (hmp : mp = (5 * doy + 2) / 153) (hge : 10 ≤ mp)
    (hdoy : marchStart y + doy < marchStart (y + 1)) :
    IsDate (marchStart y + doy + 60) (y + 1) (mp - 10) (doy - (153 * mp + 2) / 5 + 1) := by
  have hyear := yearStart_add_leapDay y
  have hnext := yearStart_add_leapDay (y + 1)
  have hleap := leapDay_le (y + 1)
  rw [yearStart] at hnext
  obtain rfl | rfl : mp = 10 ∨ mp = 11 := by omega
  · refine ⟨by decide, ⟨by omega, ?_⟩, ?_⟩
    · simp only [Nat.reduceSub, monthLength]
      omega
    · simp only [Nat.reduceSub, yearStart, monthStart]
      omega
  · refine ⟨by decide, ⟨by omega, ?_⟩, ?_⟩
    · simp only [Nat.reduceSub, monthLength]
      omega
    · simp only [Nat.reduceSub, yearStart, monthStart, monthLength]
      omega

/-! ### The year of a day of the era -/

/-- The days of the era without its leap days, roughly: 365 times the year, and less than 365 more. -/
def withoutLeapDays (doe : Nat) : Nat := doe - doe / 1460 + doe / 36524 - doe / 146096

theorem withoutLeapDays_mono {a b : Nat} (h : a ≤ b) (hb : b < 146097) : withoutLeapDays a ≤ withoutLeapDays b := by
  unfold withoutLeapDays
  omega

theorem withoutLeapDays_bounds : ∀ y < 400, 365 * y ≤ withoutLeapDays (marchStart y) ∧
    withoutLeapDays (marchStart (y + 1) - 1) < 365 * (y + 1) := by
  decide +kernel

theorem yearOfEra_spec {doe yoe : Nat} (h : doe < 146097) (hyoe : yoe = withoutLeapDays doe / 365) :
    yoe < 400 ∧ marchStart yoe ≤ doe ∧ doe < marchStart (yoe + 1) := by
  have hlt : yoe < 400 := by
    unfold withoutLeapDays at hyoe
    omega
  refine ⟨hlt, ?_, ?_⟩
  · -- A day before the year falls into an earlier one.
    by_contra hbelow
    cases yoe with
    | zero => exact hbelow (Nat.zero_le _)
    | succ y =>
      have hstart : marchStart (y + 1) ≤ 146097 := by
        unfold marchStart
        omega
      have hlast := (withoutLeapDays_bounds y (by omega)).2
      have := withoutLeapDays_mono (a := doe) (b := marchStart (y + 1) - 1) (by omega) (by omega)
      omega
  · by_contra habove
    have hnext : yoe + 1 < 400 := by
      by_contra hlast
      obtain rfl : yoe = 399 := by omega
      exact habove h
    have hfirst := (withoutLeapDays_bounds _ hnext).1
    have := withoutLeapDays_mono (Nat.not_lt.1 habove) h
    omega

theorem marchStart_of_lt {y : Nat} (h : y < 400) : marchStart y = 365 * y + y / 4 - y / 100 := by
  unfold marchStart
  omega

theorem marchStart_era (y era : Nat) : marchStart (y + era * 400) = era * 146097 + marchStart y := by
  unfold marchStart
  omega

end Gregorian
