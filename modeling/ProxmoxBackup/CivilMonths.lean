import ProxmoxBackup.CivilDate

/-! Months of the calendar numbered in one row, so that a day lies in one of them
and months apart are days apart. Month `N` is March of year `Y` for `N = 12 * Y`. -/

namespace ProxmoxBackup.CivilDate

/-- The day a year that begins in March begins on. -/
def marchStart (year : Int) : Int := 365 * year + year / 4 - year / 100 + year / 400 - 719468

/-- The first day of a month. -/
def monthStart (month : Int) : Int := marchStart (month / 12) + (153 * (month % 12) + 2) / 5

def monthOf (days : Int) : Int :=
  let date := civilFromDays days
  12 * date.year + date.month - 3

theorem daysFromCivil_eq (year month day : Int) (low : 1 ≤ month) (high : month ≤ 12) :
    daysFromCivil year month day = monthStart (12 * year + month - 3) + day - 1 := by
  unfold daysFromCivil dayOfYear monthStart marchStart
  dsimp only
  split
  · have shifted : (12 * year + month - 3) / 12 = year - 1 := by omega
    have rest : (12 * year + month - 3) % 12 = (month + 9) % 12 := by omega
    rw [shifted, rest]
    omega
  · have shifted : (12 * year + month - 3) / 12 = year := by omega
    have rest : (12 * year + month - 3) % 12 = (month + 9) % 12 := by omega
    rw [shifted, rest]
    omega

theorem monthStart_step (month : Int) :
    monthStart month + 28 ≤ monthStart (month + 1) ∧ monthStart (month + 1) ≤ monthStart month + 31 := by
  unfold monthStart marchStart
  have range : 0 ≤ month % 12 ∧ month % 12 ≤ 11 := by omega
  by_cases last : month % 12 = 11
  · have ahead : (month + 1) / 12 = month / 12 + 1 := by omega
    have rest : (month + 1) % 12 = 0 := by omega
    rw [ahead, rest, last]
    omega
  · have same : (month + 1) / 12 = month / 12 := by omega
    have rest : (month + 1) % 12 = month % 12 + 1 := by omega
    rw [same, rest]
    omega

theorem monthStart_year (month : Int) :
    monthStart month + 365 ≤ monthStart (month + 12) ∧
      monthStart (month + 12) ≤ monthStart month + 366 := by
  unfold monthStart marchStart
  have ahead : (month + 12) / 12 = month / 12 + 1 := by omega
  have rest : (month + 12) % 12 = month % 12 := by omega
  rw [ahead, rest]
  omega

theorem monthStart_add (month : Int) (count : Nat) :
    monthStart month + 28 * count ≤ monthStart (month + count) ∧
      monthStart (month + count) ≤ monthStart month + 31 * count := by
  induction count with
  | zero => simp
  | succ count ih =>
      have step := monthStart_step (month + count)
      rw [show month + ((count + 1 : Nat) : Int) = month + count + 1 by omega]
      omega

theorem monthStart_years (month : Int) (count : Nat) :
    monthStart month + 365 * count ≤ monthStart (month + 12 * count) ∧
      monthStart (month + 12 * count) ≤ monthStart month + 366 * count := by
  induction count with
  | zero => simp
  | succ count ih =>
      have step := monthStart_year (month + 12 * count)
      rw [show month + 12 * ((count + 1 : Nat) : Int) = month + 12 * count + 12 by omega]
      omega

theorem monthStart_mono {a b : Int} (ordered : a ≤ b) : monthStart a ≤ monthStart b := by
  obtain ⟨count, rfl⟩ : ∃ count : Nat, b = a + count := ⟨(b - a).toNat, by omega⟩
  have := (monthStart_add a count).1
  omega

/-- A day lies in one month only. -/
theorem month_unique {a b d : Int} (lowA : monthStart a ≤ d) (highA : d < monthStart (a + 1))
    (lowB : monthStart b ≤ d) (highB : d < monthStart (b + 1)) : a = b := by
  rcases Int.lt_trichotomy a b with less | same | greater
  · have := monthStart_mono (show a + 1 ≤ b by omega)
    omega
  · exact same
  · have := monthStart_mono (show b + 1 ≤ a by omega)
    omega

/-! The year of an era that a day of it is in. -/

def eraDays (dayOfEra : Int) : Int :=
  dayOfEra - dayOfEra / 1460 + dayOfEra / 36524 - dayOfEra / 146096

def yearStart (year : Int) : Int := 365 * year + year / 4 - year / 100 + year / 400

theorem eraDays_step (day : Int) : eraDays day ≤ eraDays (day + 1) := by
  unfold eraDays
  omega

theorem eraDays_mono {a b : Int} (ordered : a ≤ b) : eraDays a ≤ eraDays b := by
  obtain ⟨count, rfl⟩ : ∃ count : Nat, b = a + count := ⟨(b - a).toNat, by omega⟩
  induction count with
  | zero => simp
  | succ count ih =>
      have step := eraDays_step (a + count)
      rw [show a + ((count + 1 : Nat) : Int) = a + count + 1 by omega]
      exact Int.le_trans (ih (by omega)) step

theorem eraDays_years : ∀ year : Nat, year < 400 → 365 * (year : Int) ≤ eraDays (yearStart year) ∧
    eraDays (yearStart (year + 1) - 1) < 365 * ((year : Int) + 1) := by
  decide +kernel

theorem year_of_era (dayOfEra : Int) (low : 0 ≤ dayOfEra) (high : dayOfEra < 146097) :
    0 ≤ eraDays dayOfEra / 365 ∧ eraDays dayOfEra / 365 < 400 ∧
      yearStart (eraDays dayOfEra / 365) ≤ dayOfEra ∧
      dayOfEra < yearStart (eraDays dayOfEra / 365 + 1) := by
  have least : eraDays 0 ≤ eraDays dayOfEra := eraDays_mono low
  have most : eraDays dayOfEra ≤ eraDays 146096 := eraDays_mono (by omega)
  have first : eraDays 0 = 0 := by decide
  have last : eraDays 146096 = 145999 := by decide
  generalize shape : eraDays dayOfEra / 365 = year
  obtain ⟨count, rfl⟩ : ∃ count : Nat, year = count := ⟨year.toNat, by omega⟩
  have bound : count < 400 := by omega
  refine ⟨by omega, by omega, ?_, ?_⟩
  · by_contra before
    -- the day would be one of the year before
    rcases Nat.eq_zero_or_pos count with rfl | positive
    · exact before low
    · have earlier := (eraDays_years (count - 1) (by omega)).2
      rw [show ((count - 1 : Nat) : Int) + 1 = count by omega] at earlier
      have ordered : eraDays dayOfEra ≤ eraDays (yearStart count - 1) := eraDays_mono (by omega)
      omega
  · by_contra late
    by_cases end_ : count = 399
    · subst end_
      exact late high
    · have later := (eraDays_years (count + 1) (by omega)).1
      rw [show ((count + 1 : Nat) : Int) = (count : Int) + 1 by omega] at later
      have ordered : eraDays (yearStart ((count : Int) + 1)) ≤ eraDays dayOfEra :=
        eraDays_mono (by omega)
      omega

theorem monthStart_in (year shifted : Int) (low : 0 ≤ shifted) (high : shifted < 12) :
    monthStart (12 * year + shifted) = marchStart year + (153 * shifted + 2) / 5 := by
  unfold monthStart
  rw [show (12 * year + shifted) / 12 = year by omega,
    show (12 * year + shifted) % 12 = shifted by omega]

theorem marchStart_era (era year : Int) :
    marchStart (year + era * 400) = yearStart year + era * 146097 - 719468 := by
  unfold marchStart yearStart
  omega

theorem monthStart_next (year shifted dayOfYear : Int) (low : 0 ≤ shifted) (high : shifted < 12)
    (inMonth : dayOfYear < (153 * (shifted + 1) + 2) / 5)
    (inYear : dayOfYear < marchStart (year + 1) - marchStart year) :
    marchStart year + dayOfYear < monthStart (12 * year + shifted + 1) := by
  by_cases last : shifted = 11
  · subst last
    have next := monthStart_in (year + 1) 0 (by omega) (by omega)
    rw [show 12 * year + 11 + 1 = 12 * (year + 1) + 0 by omega, next]
    omega
  · have next := monthStart_in year (shifted + 1) (by omega) (by omega)
    rw [show 12 * year + shifted + 1 = 12 * year + (shifted + 1) by omega, next]
    omega

/-- Where a day lies in its month. -/
theorem civil_month (d : Int) :
    monthStart (monthOf d) ≤ d ∧ d < monthStart (monthOf d + 1) ∧
      (civilFromDays d).day = d - monthStart (monthOf d) + 1 ∧
      1 ≤ (civilFromDays d).month ∧ (civilFromDays d).month ≤ 12 := by
  obtain ⟨era, dayOfEra, rfl, low, high⟩ : ∃ era dayOfEra, d = era * 146097 + dayOfEra - 719468 ∧
      0 ≤ dayOfEra ∧ dayOfEra < 146097 :=
    ⟨(d + 719468) / 146097, (d + 719468) % 146097, by omega, by omega, by omega⟩
  obtain ⟨yearLow, yearHigh, start, end_⟩ := year_of_era dayOfEra low high
  have eraSame : (era * 146097 + dayOfEra - 719468 + 719468) / 146097 = era := by omega
  have daySame : (era * 146097 + dayOfEra - 719468 + 719468) % 146097 = dayOfEra := by omega
  have folded : dayOfEra - dayOfEra / 1460 + dayOfEra / 36524 - dayOfEra / 146096 =
      eraDays dayOfEra := rfl
  unfold monthOf civilFromDays
  dsimp only
  rw [eraSame, daySame, folded]
  generalize eraDays dayOfEra / 365 = year at *
  have startSame : yearStart year = 365 * year + year / 4 - year / 100 := by
    unfold yearStart
    omega
  rw [← startSame]
  have length : yearStart (year + 1) ≤ yearStart year + 366 := by
    unfold yearStart
    omega
  have march := marchStart_era era year
  have next := marchStart_era era (year + 1)
  rw [show year + 1 + era * 400 = year + era * 400 + 1 by omega] at next
  generalize shape : (5 * (dayOfEra - yearStart year) + 2) / 153 = shifted
  have lowest : 0 ≤ shifted := by omega
  have highest : shifted < 12 := by omega
  have same : 12 * (year + era * 400 + (if (if shifted < 10 then shifted + 3 else shifted - 9) ≤ 2
      then 1 else 0)) + (if shifted < 10 then shifted + 3 else shifted - 9) - 3 =
      12 * (year + era * 400) + shifted := by
    split <;> split <;> omega
  have here := monthStart_in (year + era * 400) shifted lowest highest
  have after := monthStart_next (year + era * 400) shifted (dayOfEra - yearStart year) lowest highest
    (by omega) (by omega)
  rw [same, here]
  refine ⟨by omega, by omega, by omega, ?_, ?_⟩
  · split <;> omega
  · split <;> omega

theorem daysIn_eq (d : Int) : daysIn (civilFromDays d).year (civilFromDays d).month =
    monthStart (monthOf d + 1) - monthStart (monthOf d) := by
  obtain ⟨-, -, -, low, high⟩ := civil_month d
  unfold daysIn
  have here := daysFromCivil_eq (civilFromDays d).year (civilFromDays d).month 1 low high
  split
  · next december =>
      have first := monthStart_in (civilFromDays d).year 9 (by omega) (by omega)
      have second := monthStart_in (civilFromDays d).year 10 (by omega) (by omega)
      unfold monthOf
      dsimp only
      rw [december, show 12 * (civilFromDays d).year + 12 - 3 = 12 * (civilFromDays d).year + 9 by
        omega, first, show 12 * (civilFromDays d).year + 9 + 1 = 12 * (civilFromDays d).year + 10 by
        omega, second]
      omega
  · next other =>
      have next := daysFromCivil_eq (civilFromDays d).year ((civilFromDays d).month + 1) 1
        (by omega) (by omega)
      unfold monthOf
      dsimp only
      rw [here, next, show 12 * (civilFromDays d).year + ((civilFromDays d).month + 1) - 3 =
        12 * (civilFromDays d).year + (civilFromDays d).month - 3 + 1 by omega]
      omega

end ProxmoxBackup.CivilDate
