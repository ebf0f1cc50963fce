import Mathlib
import Rephrase.Time.Instant

/-! The date of a day is a date of the calendar, and the number of days to it leads back to the day. -/

namespace Rephrase.Calendar

/-! ## Years of an era -/

/-- The days of an era up to a year that starts in March. -/
def daysBefore (year : Int) : Int := 365 * year + year / 4 - year / 100

/-- The days of an era up to a day, without those that leap years add. -/
def plainDays (day : Int) : Int := day - day / 1460 + day / 36524 - day / 146096

theorem plainDays_mono {a b : Int} (h : a ≤ b) : plainDays a ≤ plainDays b := by
  have hyears : b / 1460 - a / 1460 ≤ b - a := by omega
  have hcenturies : a / 36524 ≤ b / 36524 := by omega
  have heras : ∀ d : Int, d / 146096 = d / 36524 / 4 := by omega
  unfold plainDays
  rw [heras a, heras b]
  omega

theorem plainDays_daysBefore : ∀ year < (400 : Nat),
    (0 < year → plainDays (daysBefore year - 1) < 365 * year) ∧
      (year < 399 → 365 * (year + 1 : Int) ≤ plainDays (daysBefore (year + 1))) := by
  decide +kernel

section

variable {day year : Int} (hday : 0 ≤ day ∧ day < 146097) (hyear : year = plainDays day / 365)
include hday hyear

theorem yearOfEra_bounds : 0 ≤ year ∧ year ≤ 399 := by
  unfold plainDays at hyear
  omega

/-- A day lies in the year that is worked out for it. -/
theorem day_bounds : daysBefore year ≤ day ∧ (year < 399 → day < daysBefore (year + 1)) := by
  obtain ⟨hlow, hhigh⟩ := yearOfEra_bounds hday hyear
  obtain ⟨n, rfl⟩ := Int.eq_ofNat_of_zero_le hlow
  obtain ⟨hfirst, hlast⟩ := plainDays_daysBefore n (by omega)
  constructor
  · by_contra hbefore
    have hplain := hfirst (by unfold daysBefore at hbefore; omega)
    have hmono := plainDays_mono (show day ≤ daysBefore n - 1 by omega)
    omega
  · intro hsmall
    by_contra hafter
    have hmono := plainDays_mono (show daysBefore (n + 1) ≤ day by omega)
    have hplain := hlast (by omega)
    omega

theorem dayOfYear_bounds : day - daysBefore year ≤ 365 := by
  obtain ⟨hlow, hhigh⟩ := yearOfEra_bounds hday hyear
  obtain ⟨-, hlast⟩ := day_bounds hday hyear
  by_cases hsmall : year < 399
  · have hnext := hlast hsmall
    unfold daysBefore at *
    omega
  · obtain rfl : year = 399 := by omega
    unfold daysBefore
    omega

/-- Only before a leap year's March there is a 366th day. -/
theorem isLeap_of_dayOfYear (h : day - daysBefore year = 365) (era : Int) :
    isLeap (year + 400 * era + 1) = true := by
  obtain ⟨hlow, hhigh⟩ := yearOfEra_bounds hday hyear
  obtain ⟨-, hlast⟩ := day_bounds hday hyear
  have hleap : (year + 1) % 4 = 0 ∧ ((year + 1) % 100 ≠ 0 ∨ (year + 1) % 400 = 0) := by
    by_cases hsmall : year < 399
    · have hnext := hlast hsmall
      have hlonger : daysBefore year + 366 ≤ daysBefore (year + 1) := by omega
      have hfour : (year + 1) / 4 = year / 4 + 1 ∧ (year + 1) / 100 = year / 100 := by
        unfold daysBefore at hlonger
        omega
      omega
    · obtain rfl : year = 399 := by omega
      decide
  simp only [isLeap, Bool.and_eq_true, Bool.or_eq_true, decide_eq_true_eq]
  omega

end

/-! ## Days -/

/-- A day is found by its era, its year in it, which starts in March, and its day in that year. -/
theorem exists_parts (days : Int) : ∃ era year dayOfYear : Int,
    days + 719468 = 146097 * era + daysBefore year + dayOfYear ∧ 0 ≤ year ∧ year ≤ 399 ∧
      0 ≤ dayOfYear ∧ dayOfYear ≤ 365 ∧
      (dayOfYear = 365 → isLeap (year + 400 * era + 1) = true) ∧
      Date.ofDays days =
        let monthIndex := (5 * dayOfYear + 2) / 153
        let month := (monthIndex + 2) % 12 + 1
        ⟨if month ≤ 2 then year + 400 * era + 1 else year + 400 * era, month.toNat,
          (dayOfYear - (153 * monthIndex + 2) / 5 + 1).toNat⟩ := by
  have hday : 0 ≤ (days + 719468) % 146097 ∧ (days + 719468) % 146097 < 146097 := by omega
  obtain ⟨hlow, hhigh⟩ := yearOfEra_bounds hday rfl
  obtain ⟨hfirst, -⟩ := day_bounds hday rfl
  have hdayOfYear := dayOfYear_bounds hday rfl
  have hleap := isLeap_of_dayOfYear hday rfl
  refine ⟨(days + 719468) / 146097, plainDays ((days + 719468) % 146097) / 365,
    (days + 719468) % 146097 - daysBefore (plainDays ((days + 719468) % 146097) / 365),
    by omega, hlow, hhigh, by omega, hdayOfYear, fun h => hleap h _, rfl⟩

theorem toDays_ofDays (days : Int) : (Date.ofDays days).toDays = days := by
  obtain ⟨era, year, dayOfYear, hdays, hlow, hhigh, hfirst, hlast, -, hdate⟩ := exists_parts days
  have hmonth : 0 ≤ (5 * dayOfYear + 2) / 153 ∧ (5 * dayOfYear + 2) / 153 ≤ 11 := by omega
  rw [hdate]
  unfold Date.toDays daysBefore at *
  dsimp only
  generalize hindex : (5 * dayOfYear + 2) / 153 = monthIndex at *
  have hdayOfMonth : 0 ≤ dayOfYear - (153 * monthIndex + 2) / 5 := by omega
  have hback : ((((monthIndex + 2) % 12 + 1).toNat : Int) + 9) % 12 = monthIndex := by omega
  rw [hback]
  by_cases hearly : (monthIndex + 2) % 12 + 1 ≤ 2
  · rw [if_pos (by omega), if_pos hearly]
    omega
  · rw [if_neg (by omega), if_neg hearly]
    omega

/-- But for February, the last one, the months from March on are as long as the days between their
first ones. -/
theorem daysOf_eq (year : Int) {monthIndex : Int} (hlow : 0 ≤ monthIndex) (hhigh : monthIndex < 11) :
    (daysOf year ((monthIndex + 2) % 12 + 1).toNat : Int) =
      (153 * (monthIndex + 1) + 2) / 5 - (153 * monthIndex + 2) / 5 := by
  interval_cases monthIndex <;> rfl

theorem dayOfMonth_bounds {year dayOfYear monthIndex : Int} (hfirst : 0 ≤ dayOfYear)
    (hlast : dayOfYear ≤ 365) (hleap : dayOfYear = 365 → isLeap year = true)
    (hindex : (5 * dayOfYear + 2) / 153 = monthIndex) :
    1 ≤ (dayOfYear - (153 * monthIndex + 2) / 5 + 1).toNat ∧
      (dayOfYear - (153 * monthIndex + 2) / 5 + 1).toNat ≤
        daysOf year ((monthIndex + 2) % 12 + 1).toNat := by
  refine ⟨by omega, ?_⟩
  by_cases hlate : monthIndex < 11
  · have hlength := daysOf_eq year (by omega) hlate
    omega
  · obtain rfl : monthIndex = 11 := by omega
    show _ ≤ if isLeap year = true then 29 else 28
    split
    · omega
    · rename_i hcommon
      have hne : dayOfYear ≠ 365 := fun heq => hcommon (hleap heq)
      omega

/-- The calendar begins and ends with the first and the last of its years. -/
theorem year_bounds {era year dayOfYear : Int} (hyear : 0 ≤ year ∧ year ≤ 399)
    (hday : 0 ≤ dayOfYear ∧ dayOfYear ≤ 365)
    (hlow : -95745824 ≤ 146097 * era + daysBefore year + dayOfYear)
    (hhigh : 146097 * era + daysBefore year + dayOfYear < 95745705) :
    -262144 ≤ year + 400 * era ∧ year + 400 * era ≤ 262142 ∧
      (dayOfYear < 306 → -262143 ≤ year + 400 * era) ∧
      (306 ≤ dayOfYear → year + 400 * era ≤ 262141) := by
  unfold daysBefore at hlow hhigh
  have hera : -656 ≤ era ∧ era ≤ 655 := by omega
  obtain rfl | rfl | hera : era = -656 ∨ era = 655 ∨ (-655 ≤ era ∧ era ≤ 654) := by omega
  all_goals omega

/-- The day of a point in time has a date in the calendar. -/
theorem isValid_ofDays {seconds : Int} (h : covers seconds = true) :
    (Date.ofDays (seconds / daySeconds)).isValid = true := by
  obtain ⟨era, year, dayOfYear, hdays, hlow, hhigh, hfirst, hlast, hleap, hdate⟩ :=
    exists_parts (seconds / daySeconds)
  have hbounds : -96465292 ≤ seconds / daySeconds ∧ seconds / daySeconds < 95026237 := by
    have hfirstSecond : firstSecond = -96465292 * 86400 := by decide
    have hendSecond : endSecond = 95026237 * 86400 := by decide
    unfold covers at h
    rw [hfirstSecond, hendSecond] at h
    simp only [Bool.and_eq_true, decide_eq_true_eq] at h
    unfold daySeconds
    omega
  obtain ⟨hfirstYear, hlastYear, hearliest, hlatest⟩ := year_bounds ⟨hlow, hhigh⟩ ⟨hfirst, hlast⟩
    (show -95745824 ≤ 146097 * era + daysBefore year + dayOfYear by omega) (by omega)
  have hmonth : 0 ≤ (5 * dayOfYear + 2) / 153 ∧ (5 * dayOfYear + 2) / 153 ≤ 11 := by omega
  -- January and February are counted to the year before.
  have hfront : ((5 * dayOfYear + 2) / 153 + 2) % 12 + 1 ≤ 2 ↔ 306 ≤ dayOfYear := by
    obtain hlate | hearly | hearly : (5 * dayOfYear + 2) / 153 ≤ 9 ∨
        (5 * dayOfYear + 2) / 153 = 10 ∨ (5 * dayOfYear + 2) / 153 = 11 := by omega
    · rw [Int.emod_eq_of_lt (by omega) (by omega)]
      omega
    · rw [hearly]
      omega
    · rw [hearly]
      omega
  rw [hdate]
  unfold Date.isValid firstYear lastYear
  dsimp only
  simp only [Bool.and_eq_true, decide_eq_true_eq]
  by_cases hearly : ((5 * dayOfYear + 2) / 153 + 2) % 12 + 1 ≤ 2
  · have hday := dayOfMonth_bounds hfirst hlast hleap rfl
    have hyear := hlatest (hfront.mp hearly)
    rw [if_pos hearly]
    omega
  · have hlate := mt hfront.mpr hearly
    have hcommon : dayOfYear = 365 → isLeap (year + 400 * era) = true := fun heq => by omega
    have hday := dayOfMonth_bounds hfirst hlast hcommon rfl
    have hyear := hearliest (by omega)
    rw [if_neg hearly]
    omega

end Rephrase.Calendar
