import SudoOS.Kernel.Rtc
import SudoOS.Lib.Gregorian

/-!
The date of the real-time clock is the Gregorian date for as long as the day count fits, and its day of the year is always
off by the same number.
-/

namespace SudoOS.Rtc

open Gregorian

variable {z year mon mday : Int} {n : Nat}

def epoch : Nat := yearStart 1970

theorem epoch_eq : epoch = 719528 := by decide +kernel

theorem i32_eq_some {x y : Int} : i32 x = some y ↔ (-2 ^ 31 ≤ x ∧ x < 2 ^ 31) ∧ x = y := by
  unfold i32
  split_ifs with h
  · exact ⟨fun hx => ⟨h, Option.some.inj hx⟩, fun hx => congrArg some hx.2⟩
  · exact ⟨fun hx => (nomatch hx), fun hx => absurd hx.1 h⟩

def eraDate (era : Int) (doe : Nat) : Int × Int × Int :=
  let yoe := withoutLeapDays doe / 365
  let doy := doe - (365 * yoe + yoe / 4 - yoe / 100)
  let mp := (5 * doy + 2) / 153
  (yoe + era * 400 + (if mp < 10 then 0 else 1), (if mp < 10 then mp + 2 else mp - 10 : Nat),
    (doy - (153 * mp + 2) / 5 + 1 : Nat))

theorem natCast_tdiv (a k : Nat) : (a : Int).tdiv k = ((a / k : Nat) : Int) := (Int.ofNat_tdiv a k).symm

theorem natCast_tdiv_ofNat (a k : Nat) [k.AtLeastTwo] : (a : Int).tdiv ofNat(k) = ((a / ofNat(k) : Nat) : Int) :=
  natCast_tdiv a k

/-- Rounding towards zero comes to the era on both sides of its beginning. -/
theorem eraOf_eq {length era x : Int} {rest : Nat} (hx : x = era * length + rest) (hrest : rest < length)
    (hlow : -2 ^ 31 + length ≤ x) : eraOf length x = some era := by
  have hpos : 0 < length := by omega
  unfold eraOf
  split_ifs with hsign
  · rw [Int.tdiv_eq_ediv_of_nonneg hsign, hx, Int.mul_comm, Int.mul_add_ediv_left _ _ (by omega),
      Int.ediv_eq_zero_of_lt (by omega) hrest, Int.add_zero]
  · have hneg : x - (length - 1) = -((length - 1) - x) := by omega
    have hquot : (length - 1) - x = length * -era + (length - 1 - rest) := by
      rw [hx, Int.mul_neg, Int.mul_comm length era]
      omega
    rw [i32_eq_some.2 ⟨by omega, rfl⟩, Option.map_some, hneg, Int.neg_tdiv, Int.tdiv_eq_ediv_of_nonneg (by omega), hquot,
      Int.mul_add_ediv_left _ _ (by omega), Int.ediv_eq_zero_of_lt (by omega) (by omega), Int.add_zero, Int.neg_neg]

theorem civilFromDays_eq {era : Int} {doe : Nat} (hz : z + 719468 = era * 146097 + doe) (hdoe : doe < 146097)
    (hlow : -2 ^ 31 + 146097 ≤ z + 719468) (hhigh : z + 719468 < 2 ^ 31) : civilFromDays z = some (eraDate era doe) := by
  have hsum : i32 (z + 719468) = some (z + 719468) := i32_eq_some.2 ⟨by omega, rfl⟩
  have hera : eraOf 146097 (z + 719468) = some era := eraOf_eq hz (by omega) (by omega)
  have hrest : z + 719468 - era * 146097 = doe := by omega
  simp only [civilFromDays, hsum, hera, hrest, Option.bind_eq_bind, Option.bind_some, Option.pure_def]
  have hwithout : (doe : Int) - (doe / 1460 : Nat) + (doe / 36524 : Nat) - (doe / 146096 : Nat) =
    (withoutLeapDays doe : Nat) := by
    unfold withoutLeapDays
    omega
  obtain ⟨hlt, hstart, hend⟩ := yearOfEra_spec hdoe rfl
  simp only [natCast_tdiv_ofNat, hwithout]
  unfold eraDate
  generalize withoutLeapDays doe / 365 = yoe at hlt hstart hend
  rw [marchStart_of_lt hlt] at hstart
  have hshort : doe - (365 * yoe + yoe / 4 - yoe / 100) ≤ 365 := by
    rw [marchStart_succ, marchStart_of_lt hlt] at hend
    have := leapDay_le (yoe + 1)
    omega
  have hdoy : (doe : Int) - (365 * yoe + (yoe / 4 : Nat) - (yoe / 100 : Nat)) =
    (doe - (365 * yoe + yoe / 4 - yoe / 100) : Nat) := by
    omega
  simp only [hdoy]
  generalize doe - (365 * yoe + yoe / 4 - yoe / 100) = doy at hshort
  have h₁ : (5 * (doy : Int) + 2).tdiv 153 = ((5 * doy + 2) / 153 : Nat) := natCast_tdiv (5 * doy + 2) 153
  have h₂ (mp : Nat) : (153 * (mp : Int) + 2).tdiv 5 = ((153 * mp + 2) / 5 : Nat) := natCast_tdiv (153 * mp + 2) 5
  rw [h₁, h₂]
  refine congrArg some (Prod.ext ?_ (Prod.ext ?_ ?_)) <;> dsimp only
  · split_ifs <;> omega
  · split_ifs <;> omega
  · omega

theorem eraDate_isDate (era : Nat) {doe : Nat} (hdoe : doe < 146097) :
    ∃ y m d : Nat, eraDate era doe = ((y : Int), (m : Int), (d : Int)) ∧ IsDate (era * 146097 + doe + 60) y m d := by
  obtain ⟨hlt, hstart, hend⟩ := yearOfEra_spec hdoe rfl
  unfold eraDate
  generalize withoutLeapDays doe / 365 = yoe at hlt hstart hend
  dsimp only
  rw [← marchStart_of_lt hlt]
  generalize hdoy : doe - marchStart yoe = doy
  have hnumber : era * 146097 + doe + 60 = marchStart (yoe + era * 400) + doy + 60 := by
    rw [marchStart_era]
    omega
  have hnext : marchStart (yoe + era * 400 + 1) = era * 146097 + marchStart (yoe + 1) := by
    rw [← marchStart_era]
    congr 1
    omega
  rw [hnumber]
  by_cases hmp : (5 * doy + 2) / 153 < 10
  · refine ⟨yoe + era * 400, _, _, ?_, isDate_of_march rfl hmp⟩
    rw [if_pos hmp, if_pos hmp]
    refine Prod.ext ?_ rfl
    push_cast
    omega
  · refine ⟨yoe + era * 400 + 1, _, _, ?_, isDate_of_winter rfl (Nat.not_lt.1 hmp) (by rw [hnext, marchStart_era]; omega)⟩
    rw [if_neg hmp, if_neg hmp]
    refine Prod.ext ?_ rfl
    push_cast
    omega

theorem eraDate_before {era : Int} (hera : era < 0) {doe : Nat} (hdoe : doe < 146097) : (eraDate era doe).1 ≤ 0 := by
  obtain ⟨hlt, -, -⟩ := yearOfEra_spec hdoe rfl
  unfold eraDate
  dsimp only
  split_ifs <;> omega

/-- The fields give the Gregorian date of a day since the beginning of Unix time. -/
def Dated (f : RtcFields) (n y m d : Nat) : Prop :=
  f.year + 1900 = y ∧ f.mon = m ∧ f.mday = d ∧ IsDate (epoch + n) y m d

theorem truncate_eq {x : Int} (hlow : 0 ≤ x) (hhigh : x < 2 ^ 31) : truncate x = x := by
  unfold truncate
  omega

theorem truncate_bounds (x : Int) : -2 ^ 31 ≤ truncate x ∧ truncate x < 2 ^ 31 := by
  unfold truncate
  omega

/-- The first day of a year, as the source counts it: it is 1 March of the year before. -/
theorem daysFromCivil_first {y : Nat} (hlow : 1 ≤ y) (hhigh : marchStart (y - 1) < 2 ^ 31) :
    daysFromCivil y 0 1 = some ((marchStart (y - 1) : Nat) : Int) := by
  obtain ⟨p, rfl⟩ : ∃ p, y = p + 1 := ⟨y - 1, by omega⟩
  rw [Nat.add_sub_cancel] at hhigh ⊢
  have hbelow : p ≤ marchStart p := by
    unfold marchStart
    omega
  have hyear : i32 (if (0 : Int) ≤ 1 then ((p + 1 : Nat) : Int) - 1 else (p + 1 : Nat)) = some (p : Int) := by
    rw [if_pos (by decide)]
    exact i32_eq_some.2 ⟨by omega, by omega⟩
  have hsplit : (p : Int) = ((p / 400 : Nat) : Int) * 400 + (p % 400 : Nat) := by omega
  have hera : eraOf 400 p = some ((p / 400 : Nat) : Int) := eraOf_eq hsplit (by omega) (by omega)
  simp only [daysFromCivil, hyear, hera, Option.bind_eq_bind, Option.bind_some]
  have hyoe : (p : Int) - ((p / 400 : Nat) : Int) * 400 = (p % 400 : Nat) := by omega
  have hsplit : marchStart p = p / 400 * 146097 + (365 * (p % 400) + p % 400 / 4 - p % 400 / 100) := by
    rw [← marchStart_of_lt (Nat.mod_lt p (by decide)), ← marchStart_era, Nat.mod_add_div']
  rw [hyoe, natCast_tdiv_ofNat, natCast_tdiv_ofNat, if_pos (by decide)]
  refine i32_eq_some.2 ⟨?_, ?_⟩ <;> omega

/-- While the day count fits, the date is right and the day of the year is not. -/
theorem readTime_of_fits {secs : Nat} (hfits : secs / 86400 < 2 ^ 31 - 719468) : ∃ f y m d, readTime secs = some f ∧
    Dated f (secs / 86400) y m d ∧ f.yday + 719162 = monthStart y m + (d - 1 : Nat) := by
  generalize hn : secs / 86400 = n at hfits
  have hdays : truncate ((secs : Int).tdiv 86400) = n := by
    rw [natCast_tdiv_ofNat, hn]
    exact truncate_eq (by omega) (by omega)
  have hsplit : (n : Int) + 719468 = ((n + 719468) / 146097 : Nat) * 146097 + ((n + 719468) % 146097 : Nat) := by omega
  have hciv := civilFromDays_eq hsplit (Nat.mod_lt _ (by decide)) (by omega) (by omega)
  obtain ⟨y, m, d, hdate, hisDate⟩ := eraDate_isDate ((n + 719468) / 146097) (Nat.mod_lt (n + 719468) (by decide))
  have hnumber : (n + 719468) / 146097 * 146097 + (n + 719468) % 146097 + 60 = epoch + n := by
    rw [epoch_eq]
    omega
  rw [hnumber] at hisDate
  rw [hdate] at hciv
  -- The year is not before 1970, and it begins before the day.
  have hpast : yearStart y ≤ epoch + n := by
    have := hisDate.number
    have := hisDate.day.1
    omega
  have hsince : 1 ≤ y := by
    by_contra hzero
    obtain rfl : y = 0 := by omega
    have := hisDate.lt_year
    rw [epoch_eq, yearStart] at this
    omega
  obtain ⟨p, rfl⟩ : ∃ p, y = p + 1 := ⟨y - 1, by omega⟩
  have hyear : yearStart (p + 1) = marchStart p + 366 := by
    have := yearStart_add_leapDay p
    rw [yearStart]
    omega
  have hbelow : p ≤ marchStart p := by
    unfold marchStart
    omega
  rw [hyear, epoch_eq] at hpast
  have hfirst : daysFromCivil ((p + 1 : Nat) : Int) 0 1 = some ((marchStart p : Nat) : Int) :=
    daysFromCivil_first (by omega) (by rw [Nat.add_sub_cancel]; omega)
  have hweek : i32 ((n : Int) + 4) = some ((n : Int) + 4) := i32_eq_some.2 ⟨by omega, rfl⟩
  have hshown : i32 (((p + 1 : Nat) : Int) - 1900) = some (((p + 1 : Nat) : Int) - 1900) := i32_eq_some.2 ⟨by omega, rfl⟩
  have hyday : i32 ((n : Int) - (marchStart p : Nat)) = some ((n : Int) - (marchStart p : Nat)) :=
    i32_eq_some.2 ⟨by omega, rfl⟩
  refine ⟨⟨secs % 86400 % 60, secs % 86400 / 60 % 60, secs % 86400 / 3600, d, m, (p + 1 : Nat) - 1900,
    ((n : Int) + 4).tmod 7,
    n - (marchStart p : Nat), 0⟩, p + 1, m, d, ?_, ⟨?_, rfl, rfl, hisDate⟩, ?_⟩
  · simp only [readTime, hdays, hciv, hfirst, hweek, hshown, hyday, Option.bind_eq_bind, Option.bind_some, Option.pure_def]
  · dsimp only
    omega
  · dsimp only
    have hnum := hisDate.number
    have := hisDate.day.1
    rw [hyear, epoch_eq] at hnum
    omega

/-- A right date comes from a day count that fits. -/
theorem fits_of_dated {secs y m d : Nat} {f : RtcFields} (h : readTime secs = some f) (hd : Dated f (secs / 86400) y m d) :
    secs / 86400 < 2 ^ 31 - 719468 := by
  obtain ⟨hlow, hhigh⟩ := truncate_bounds (secs / 86400 : Nat)
  simp only [readTime, natCast_tdiv_ofNat, Option.bind_eq_bind, Option.bind_eq_some_iff, Option.pure_def,
    Option.some.injEq] at h
  obtain ⟨⟨year, mon, mday⟩, hciv, _, -, _, -, shown, hshown, _, -, rfl⟩ := h
  obtain ⟨hyear, hmon, hmday, hisDate⟩ := hd
  obtain ⟨-, rfl⟩ := i32_eq_some.1 hshown
  dsimp only at hyear hmon hmday
  generalize hdays : truncate (secs / 86400 : Nat) = days at hciv hlow hhigh
  have hsum : days + 719468 < 2 ^ 31 := by
    obtain ⟨z, hz, -⟩ := Option.bind_eq_some_iff.1 hciv
    exact (i32_eq_some.1 hz).1.2
  obtain ⟨doe, hdoe⟩ : ∃ doe : Nat, (doe : Int) = (days + 719468) % 146097 := ⟨((days + 719468) % 146097).toNat, by omega⟩
  have hz : days + 719468 = (days + 719468) / 146097 * 146097 + doe := by omega
  have heq := (civilFromDays_eq hz (by omega) (by omega) hsum).symm.trans hciv
  by_cases hera : 0 ≤ (days + 719468) / 146097
  · obtain ⟨era, hera⟩ : ∃ era : Nat, (era : Int) = (days + 719468) / 146097 := ⟨((days + 719468) / 146097).toNat, by omega⟩
    obtain ⟨y', m', d', hdate, hisDate'⟩ := eraDate_isDate era (show doe < 146097 by omega)
    rw [← hera, hdate] at heq
    obtain ⟨hy, hrest⟩ := Prod.mk.inj (Option.some.inj heq)
    obtain ⟨hm, hd⟩ := Prod.mk.inj hrest
    obtain rfl : y' = y := by omega
    obtain rfl : m' = m := by omega
    obtain rfl : d' = d := by omega
    have h₁ := hisDate.number
    have h₂ := hisDate'.number
    rw [epoch_eq] at h₁
    omega
  · have hbefore := eraDate_before (show (days + 719468) / 146097 < 0 by omega) (show doe < 146097 by omega)
    rw [Option.some.inj heq] at hbefore
    obtain rfl : y = 0 := by
      dsimp only at hbefore
      omega
    have := hisDate.lt_year
    rw [epoch_eq, yearStart] at this
    omega

def DayOfYear (f : RtcFields) (n : Nat) : Prop :=
  ∃ y m d, Dated f n y m d ∧ f.yday = monthStart y m + (d - 1 : Nat)

/-- For every time, the date is right exactly if the day count fits, and the day of the year is never right. -/
theorem broken_down_time (secs : Nat) :
    ((∃ f y m d, readTime secs = some f ∧ Dated f (secs / 86400) y m d) ↔ secs / 86400 < 2 ^ 31 - 719468) ∧
    ∀ f, readTime secs = some f → ¬DayOfYear f (secs / 86400) := by
  refine ⟨⟨?_, fun hfits => ?_⟩, ?_⟩
  · rintro ⟨f, y, m, d, hread, hd⟩
    exact fits_of_dated hread hd
  · obtain ⟨f, y, m, d, hread, hd, -⟩ := readTime_of_fits hfits
    exact ⟨f, y, m, d, hread, hd⟩
  · rintro f hread ⟨y, m, d, hd, hyday⟩
    obtain ⟨f', y', m', d', hread', hd', hyday'⟩ := readTime_of_fits (fits_of_dated hread hd)
    obtain rfl := Option.some.inj (hread.symm.trans hread')
    obtain rfl : y = y' := by
      have := hd.1.symm.trans hd'.1
      omega
    obtain rfl : m = m' := by
      have := hd.2.1.symm.trans hd'.2.1
      omega
    obtain rfl : d = d' := by
      have := hd.2.2.1.symm.trans hd'.2.2.1
      omega
    omega

/-- The beginning of Unix time: 1 January 1970, and a day of the year below zero. -/
theorem epoch_day_of_year : readTime 0 = some ⟨0, 0, 0, 1, 0, 70, 4, -719162, 0⟩ := by
  decide +kernel

end SudoOS.Rtc
