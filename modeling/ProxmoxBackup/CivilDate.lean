import Mathlib.Data.Int.Basic

/-! The proleptic Gregorian calendar: days numbered from 1 January 1970, years
counted in eras of 400 years that begin on 1 March, and weekdays from Sunday. -/

namespace ProxmoxBackup.CivilDate

/-- Years begin in March here, so a leap day ends its year. -/
def dayOfYear (month day : Int) : Int := (153 * ((month + 9) % 12) + 2) / 5 + day - 1

def daysFromCivil (year month day : Int) : Int :=
  let y := if month ≤ 2 then year - 1 else year
  let yearOfEra := y % 400
  y / 400 * 146097 + yearOfEra * 365 + yearOfEra / 4 - yearOfEra / 100 + dayOfYear month day - 719468

structure Date where
  year : Int
  month : Int
  day : Int
  deriving DecidableEq

def civilFromDays (days : Int) : Date :=
  let z := days + 719468
  let dayOfEra := z % 146097
  let yearOfEra := (dayOfEra - dayOfEra / 1460 + dayOfEra / 36524 - dayOfEra / 146096) / 365
  let dayOfYear := dayOfEra - (365 * yearOfEra + yearOfEra / 4 - yearOfEra / 100)
  let shifted := (5 * dayOfYear + 2) / 153
  let month := if shifted < 10 then shifted + 3 else shifted - 9
  { year := yearOfEra + z / 146097 * 400 + (if month ≤ 2 then 1 else 0)
    month := month
    day := dayOfYear - (153 * shifted + 2) / 5 + 1 }

def daysIn (year month : Int) : Int :=
  if month = 12 then 31 else daysFromCivil year (month + 1) 1 - daysFromCivil year month 1

/-- 0 is Sunday; 1 January 1970 was a Thursday. -/
def weekday (days : Int) : Nat := ((days + 4) % 7).toNat

theorem weekday_lt (days : Int) : weekday days < 7 := by
  unfold weekday
  omega

theorem weekday_week (days : Int) : weekday (days + 7) = weekday days := by
  unfold weekday
  congr 1
  omega

/-- Every weekday comes up in the week that begins on any given day. -/
theorem weekday_from (start : Int) (day : Nat) (bound : day < 7) :
    ∃ days, start ≤ days ∧ days < start + 7 ∧ weekday days = day := by
  refine ⟨start + (day - (start + 4)) % 7, ?_, ?_, ?_⟩
  · omega
  · omega
  · unfold weekday
    omega

def mondayOf (days : Int) : Int := days - ((weekday days + 6) % 7 : Nat)

example : civilFromDays (daysFromCivil 2024 2 29) = ⟨2024, 2, 29⟩ := by decide

end ProxmoxBackup.CivilDate
