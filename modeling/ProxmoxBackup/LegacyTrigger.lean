import Mathlib.Data.List.Find
import ProxmoxBackup.Schedules

/-! What an older program makes of the trigger fields that mirrorLegacyTrigger
writes: one schedule, read back by jobSchedules, against the schedule mirrored.
The fields know neither a start day nor the minute of an hours schedule, and
take seven weekdays for all of them. -/

namespace ProxmoxBackup.LegacyTrigger

open CivilDate Schedules

/-- The job as a program reads it that does not know ScheduleMode. -/
def older (job : ScheduledJob) : ScheduledJob := { job with scheduleMode := .unset }

def firstEnabled (job : ScheduledJob) : Option Schedule :=
  if job.scheduleMode = .manual then none else job.schedules.find? (·.enabled)

/-- What is read back of the mirror of `s`. -/
def mirrored (s : Schedule) : Option Schedule :=
  ((jobSchedules (older (mirrorFields { triggerMode := .manual } s))).2).head?

def NeverWrong (zone : Zone) (job : ScheduledJob) : Prop :=
  ∀ now t by_, nextRunFor zone (older job) now = some (t, by_) →
    ∃ s ∈ job.schedules, s.enabled = true ∧ ∃ since, s.next zone since = some t

def Expressible (s : Schedule) : Prop :=
  s.unit = .minutes ∨ s.unit = .hours ∨ (s.unit = .days ∨ s.unit = .weeks) ∧ s.every = 1

/-- The old fields say all there is to the schedule: it runs on every day of
theirs, and an hours schedule of the whole day at the full hour. -/
def Exact (s : Schedule) : Prop :=
  Expressible s → ∀ d, monday2000 ≤ d → weekdayListed d (everyDayAsNone s.weekdays) true = true →
    s.anchor ≤ d ∧ s.runsOn d = true ∧ (s.unit = .hours → s.windowed = false → s.minute = 0)

def MirrorsExactly (job : ScheduledJob) : Prop := ∀ s, firstEnabled job = some s → Exact s

/-! The search for the next run. -/

theorem search_some (times : Int → Option Int) (day t : Int) (days : Nat) :
    search times day days = some t ↔
      ∃ i < days, times (day + i) = some t ∧ ∀ j < i, times (day + j) = none := by
  unfold search
  induction days with
  | zero => simp
  | succ days ih =>
      rw [List.range_succ, List.findSome?_append, Option.or_eq_some_iff, ih]
      constructor
      · rintro (⟨i, bound, found, before⟩ | ⟨none_, last⟩)
        · exact ⟨i, by omega, found, before⟩
        · refine ⟨days, by omega, by simpa using last, ?_⟩
          intro j bound
          exact List.findSome?_eq_none_iff.mp none_ j (List.mem_range.mpr bound)
      · rintro ⟨i, bound, found, before⟩
        by_cases last : i = days
        · subst last
          right
          refine ⟨?_, by simpa using found⟩
          rw [List.findSome?_eq_none_iff]
          intro j member
          exact before j (List.mem_range.mp member)
        · exact Or.inl ⟨i, by omega, found, before⟩

theorem next_sound (s : Schedule) (zone : Zone) (now t : Int) (found : s.next zone now = some t) :
    ∃ d minute, s.anchor ≤ d ∧ s.runsOn d = true ∧ minute ∈ s.timesOn ∧
      t = zone.instant d minute := by
  obtain ⟨i, _, here, _⟩ := (search_some _ _ _ _).mp found
  unfold Schedule.timeOn at here
  split at here
  · next runs =>
      obtain ⟨minute, member, same⟩ := List.mem_map.mp (List.mem_of_find?_eq_some here)
      exact ⟨_, minute, by omega, runs, member, same.symm⟩
  · cases here

/-! Times of the day. -/

theorem mem_steps (first last step minute : Int) (positive : 0 < step)
    (member : minute ∈ Schedule.steps first last step) : first ≤ minute ∧ minute ≤ last := by
  unfold Schedule.steps at member
  split at member
  · cases member
  · next ordered =>
      obtain ⟨i, inside, rfl⟩ := List.mem_map.mp member
      have bound := List.mem_range.mp inside
      have nonneg : 0 ≤ (last - first) / step := Int.ediv_nonneg (by omega) (by omega)
      have count : (i : Int) ≤ (last - first) / step := by omega
      have product : (i : Int) * step ≤ last - first :=
        (Int.le_ediv_iff_mul_le positive).mp count
      have ahead : 0 ≤ (i : Int) * step := Int.mul_nonneg (by omega) (by omega)
      omega

theorem hhmm_range (text : String) (minutes : Int) (read : hhmmMinutes text = some minutes) :
    0 ≤ minutes ∧ minutes < 1440 := by
  unfold hhmmMinutes at read
  split at read
  · split at read
    · cases read
    · next ok =>
        cases read
        simp at ok
        omega
  · cases read

theorem step_positive (s : Schedule) : 0 < s.step := by
  unfold Schedule.step
  split <;> omega

theorem repeatTimes_range (s : Schedule) (minute : Int) (repeats : s.unit = .minutes ∨ s.unit = .hours)
    (low : s.unit = .hours → s.windowed = false → 0 ≤ s.minute) (member : minute ∈ s.repeatTimes) :
    0 ≤ minute ∧ minute < 1440 := by
  unfold Schedule.repeatTimes at member
  split at member
  · split at member
    · next a b first last =>
        have within := mem_steps _ _ _ _ (step_positive s) member
        have one := hhmm_range _ _ first
        have two := hhmm_range _ _ last
        omega
    · cases member
  · next open_ =>
      have within := mem_steps _ _ _ _ (step_positive s) member
      rcases repeats with unit | unit
      · simp [unit] at within
        omega
      · have := low unit (by simpa using open_)
        simp [unit] at within
        omega

theorem timesOn_range (s : Schedule) (minute : Int)
    (low : s.unit = .hours → s.windowed = false → 0 ≤ s.minute) (member : minute ∈ s.timesOn) :
    0 ≤ minute ∧ minute < 1440 := by
  cases unit : s.unit with
  | minutes =>
      rw [Schedule.timesOn, unit] at member
      exact repeatTimes_range s minute (Or.inl unit) low member
  | hours =>
      rw [Schedule.timesOn, unit] at member
      exact repeatTimes_range s minute (Or.inr unit) low member
  | _ =>
      rw [Schedule.timesOn, unit] at member
      exact hhmm_range _ _ (Option.mem_toList.mp member)

/-! The mirror of one schedule. -/

theorem mirrored_daily (s : Schedule) (unit : s.unit = .days ∨ s.unit = .weeks) :
    mirrored s = if s.every = 1 ∧ s.at_ ≠ "" then
      some (dailySchedule { scheduleTime := s.at_, daysOfWeek := s.weekdays }) else none := by
  unfold mirrored
  rcases unit with unit | unit
  all_goals
    by_cases one : s.every = 1
    · by_cases blank : s.at_ = ""
      · simp [mirrorFields, unit, one, older, jobSchedules, blank]
      · simp [mirrorFields, unit, one, older, jobSchedules, blank, dailySchedule]
    · simp [mirrorFields, unit, one, older, jobSchedules]

def repeatFields (s : Schedule) : ScheduledJob where
  intervalMinutes := if s.unit = .hours then s.every * 60 else s.every
  daysOfWeek := s.weekdays
  windowAllDay := s.windowStart = "" || s.windowEnd = ""
  windowStart := s.windowStart
  windowEnd := s.windowEnd

theorem mirrored_repeat (s : Schedule) (unit : s.unit = .minutes ∨ s.unit = .hours) :
    mirrored s = if 0 < (repeatFields s).intervalMinutes then
      some (intervalSchedule (repeatFields s)) else none := by
  unfold mirrored
  rcases unit with unit | unit
  all_goals
    by_cases positive : 0 < (repeatFields s).intervalMinutes
    · rw [if_pos positive]
      simp [repeatFields, unit] at positive
      simp [mirrorFields, unit, older, jobSchedules, intervalSchedule, repeatFields]
      rw [if_neg (by omega)]
      rfl
    · rw [if_neg positive]
      have listed := Int.not_lt.mp positive
      simp [repeatFields, unit] at listed
      simp [mirrorFields, unit, older, jobSchedules]
      omega

theorem mirrored_other (s : Schedule) (unit : s.unit = .months ∨ s.unit = .years ∨
    s.unit = .unknown) : mirrored s = none := by
  unfold mirrored
  rcases unit with unit | unit | unit
  all_goals simp [mirrorFields, unit, older, jobSchedules]

theorem interval_step (s : Schedule) (unit : s.unit = .minutes ∨ s.unit = .hours)
    (positive : 0 < (repeatFields s).intervalMinutes) :
    (intervalSchedule (repeatFields s)).step = s.step := by
  have shape : s.step = (repeatFields s).intervalMinutes := by
    rcases unit with unit | unit
    · simp [repeatFields, unit] at positive
      simp [Schedule.step, repeatFields, unit]
      omega
    · simp [repeatFields, unit] at positive
      simp [Schedule.step, repeatFields, unit]
      omega
  rw [shape]
  by_cases whole : (repeatFields s).intervalMinutes % 60 = 0
  · simp only [Schedule.step, intervalSchedule, whole, if_true]
    omega
  · simp only [Schedule.step, intervalSchedule, whole, if_false]
    simp
    omega

theorem interval_windowed (s : Schedule) :
    (intervalSchedule (repeatFields s)).windowed = s.windowed := by
  by_cases first : s.windowStart = ""
  · simp [Schedule.windowed, intervalSchedule, repeatFields, first]
  · by_cases last : s.windowEnd = ""
    · simp [Schedule.windowed, intervalSchedule, repeatFields, last]
    · simp [Schedule.windowed, intervalSchedule, repeatFields, first, last]

/-- The mirror runs at the same minutes, but for the minute of an hours schedule. -/
theorem mirrored_times (s m : Schedule) (found : mirrored s = some m)
    (minute : s.unit = .hours → s.windowed = false → s.minute = 0) : m.timesOn = s.timesOn := by
  have daily : s.unit = .days ∨ s.unit = .weeks → m.timesOn = s.timesOn := by
    intro unit
    rw [mirrored_daily s unit] at found
    split at found
    · cases found
      rcases unit with unit | unit
      · simp [Schedule.timesOn, dailySchedule, unit]
      · simp [Schedule.timesOn, dailySchedule, unit]
    · cases found
  have repeats : s.unit = .minutes ∨ s.unit = .hours → m.timesOn = s.timesOn := by
    intro unit
    rw [mirrored_repeat s unit] at found
    split at found
    · next positive =>
        cases found
        have stepSame := interval_step s unit positive
        have own : s.timesOn = s.repeatTimes := by
          rcases unit with unit | unit
          · simp [Schedule.timesOn, unit]
          · simp [Schedule.timesOn, unit]
        have other : (intervalSchedule (repeatFields s)).timesOn =
            (intervalSchedule (repeatFields s)).repeatTimes := by
          by_cases whole : (repeatFields s).intervalMinutes % 60 = 0
          · simp [Schedule.timesOn, intervalSchedule, whole]
          · simp [Schedule.timesOn, intervalSchedule, whole]
        rw [own, other, Schedule.repeatTimes, Schedule.repeatTimes, stepSame, interval_windowed]
        by_cases window : s.windowed = true
        · have ends : s.windowStart ≠ "" ∧ s.windowEnd ≠ "" := by
            simpa [Schedule.windowed] using window
          rw [if_pos window, if_pos window]
          simp [intervalSchedule, repeatFields, ends.1, ends.2]
        · rw [if_neg window, if_neg window]
          have low : (if s.unit = .minutes then 0 else s.minute) = 0 := by
            rcases unit with unit | unit
            · simp [unit]
            · simp [unit, minute unit (by simpa using window)]
          rw [low]
          simp [intervalSchedule]
    · cases found
  cases unit : s.unit with
  | days => exact daily (Or.inl unit)
  | weeks => exact daily (Or.inr unit)
  | minutes => exact repeats (Or.inl unit)
  | hours => exact repeats (Or.inr unit)
  | months => simp [mirrored_other s (by simp [unit])] at found
  | years => simp [mirrored_other s (by simp [unit])] at found
  | unknown => simp [mirrored_other s (by simp [unit])] at found

theorem mirrored_expressible (s m : Schedule) (found : mirrored s = some m) : Expressible s := by
  cases unit : s.unit with
  | minutes => exact Or.inl unit
  | hours => exact Or.inr (Or.inl unit)
  | days =>
      rw [mirrored_daily s (Or.inl unit)] at found
      by_cases one : s.every = 1
      · exact Or.inr (Or.inr ⟨Or.inl unit, one⟩)
      · simp [one] at found
  | weeks =>
      rw [mirrored_daily s (Or.inr unit)] at found
      by_cases one : s.every = 1
      · exact Or.inr (Or.inr ⟨Or.inr unit, one⟩)
      · simp [one] at found
  | months => simp [mirrored_other s (by simp [unit])] at found
  | years => simp [mirrored_other s (by simp [unit])] at found
  | unknown => simp [mirrored_other s (by simp [unit])] at found

/-- What a mirror is like: it counts from nowhere, and runs by weekday. -/
structure Plain (m : Schedule) (weekdays : List String) : Prop where
  start : m.anchor = monday2000
  runs : ∀ d, m.runsOn d = weekdayListed d (everyDayAsNone weekdays) true
  horizon : m.horizon ≤ 9
  enough : 7 ≤ m.horizon
  low : m.minute = 0

theorem parseDate_blank : parseDate "" = none := by decide

theorem mirrored_plain (s m : Schedule) (found : mirrored s = some m) :
    Plain m s.weekdays ∧ m.horizon ≤ s.horizon := by
  have daily : s.unit = .days ∨ s.unit = .weeks → Plain m s.weekdays ∧ m.horizon ≤ s.horizon := by
    intro unit
    rw [mirrored_daily s unit] at found
    split at found
    · next one =>
        cases found
        refine ⟨⟨?_, ?_, ?_, ?_, rfl⟩, ?_⟩
        · simp [Schedule.anchor, dailySchedule, parseDate_blank]
        · intro d
          simp [Schedule.runsOn, Schedule.onDay, dailySchedule]
        · simp [Schedule.horizon, dailySchedule]
        · simp [Schedule.horizon, dailySchedule]
        · rcases unit with unit | unit
          · simp [Schedule.horizon, dailySchedule, unit, one.1]
          · simp [Schedule.horizon, dailySchedule, unit, one.1]
    · cases found
  have repeats : s.unit = .minutes ∨ s.unit = .hours →
      Plain m s.weekdays ∧ m.horizon ≤ s.horizon := by
    intro unit
    rw [mirrored_repeat s unit] at found
    split at found
    · next positive =>
        cases found
        have eight : (intervalSchedule (repeatFields s)).horizon = 8 := by
          by_cases whole : (repeatFields s).intervalMinutes % 60 = 0
          · simp [Schedule.horizon, intervalSchedule, whole]
          · simp [Schedule.horizon, intervalSchedule, whole]
        refine ⟨⟨?_, ?_, by omega, by omega, rfl⟩, ?_⟩
        · simp [Schedule.anchor, intervalSchedule, parseDate_blank]
        · intro d
          show _ = weekdayListed d (everyDayAsNone (repeatFields s).daysOfWeek) true
          by_cases whole : (repeatFields s).intervalMinutes % 60 = 0
          · simp [Schedule.runsOn, Schedule.onDay, intervalSchedule, whole]
          · simp [Schedule.runsOn, Schedule.onDay, intervalSchedule, whole]
        · rw [eight]
          rcases unit with unit | unit
          · simp [Schedule.horizon, unit]
          · simp [Schedule.horizon, unit]
    · cases found
  cases unit : s.unit with
  | days => exact daily (Or.inl unit)
  | weeks => exact daily (Or.inr unit)
  | minutes => exact repeats (Or.inl unit)
  | hours => exact repeats (Or.inr unit)
  | months => simp [mirrored_other s (by simp [unit])] at found
  | years => simp [mirrored_other s (by simp [unit])] at found
  | unknown => simp [mirrored_other s (by simp [unit])] at found

theorem listed_none (d : Int) (days : List String) (listed : weekdayListed d days true = true) :
    weekdayListed d (everyDayAsNone days) true = true := by
  unfold everyDayAsNone
  split
  · rfl
  · exact listed

/-- The mirror runs on every day the schedule runs on. -/
theorem mirrored_runs (s m : Schedule) (found : mirrored s = some m) (d : Int)
    (runs : s.runsOn d = true) : m.runsOn d = true := by
  rw [(mirrored_plain s m found).1.runs]
  apply listed_none
  cases unit : s.unit with
  | minutes => simpa [Schedule.runsOn, Schedule.onDay, unit] using runs
  | hours => simpa [Schedule.runsOn, Schedule.onDay, unit] using runs
  | days =>
      simp [Schedule.runsOn, Schedule.onDay, unit] at runs
      exact runs.2
  | weeks =>
      simp [Schedule.runsOn, Schedule.onDay, unit] at runs
      by_cases none_ : s.weekdays = []
      · simp [weekdayListed, none_]
      · have listed := runs.1
        rw [if_neg none_] at listed
        simpa [weekdayListed, none_] using listed
  | months => simp [mirrored_other s (by simp [unit])] at found
  | years => simp [mirrored_other s (by simp [unit])] at found
  | unknown => simp [mirrored_other s (by simp [unit])] at found

/-! An exact mirror never fires wrongly. -/

theorem plain_week (m : Schedule) (weekdays : List String) (plain : Plain m weekdays) (d : Int) :
    m.runsOn (d + 7) = m.runsOn d := by
  rw [plain.runs, plain.runs]
  simp [weekdayListed, dayAllowed, abbrevOf, weekday_week]

theorem timeOn_none (s : Schedule) (zone : Zone) (now d : Int)
    (past : ∀ minute ∈ s.timesOn, zone.instant d minute ≤ now) : s.timeOn zone now d = none := by
  unfold Schedule.timeOn
  split
  · rw [List.find?_eq_none]
    intro t member
    obtain ⟨minute, inside, rfl⟩ := List.mem_map.mp member
    have := past minute inside
    simp
    omega
  · rfl

/-- On a day all of whose times lie ahead the first of them is found. -/
theorem timeOn_first (s : Schedule) (zone : Zone) (now d first : Int) (rest : List Int)
    (times : s.timesOn = first :: rest) (runs : s.runsOn d = true)
    (ahead : now < zone.instant d first) : s.timeOn zone now d = some (zone.instant d first) := by
  simp [Schedule.timeOn, runs, times, ahead]

/-- Where the days agree, so does what the search finds on them. -/
theorem timeOn_same (s m : Schedule) (zone : Zone) (now since d : Int)
    (times : m.timesOn = s.timesOn) (runs : m.runsOn d = s.runsOn d)
    (same : ∀ minute ∈ s.timesOn, now < zone.instant d minute ↔ since < zone.instant d minute) :
    m.timeOn zone now d = s.timeOn zone since d := by
  unfold Schedule.timeOn
  rw [runs, times]
  split
  · rw [List.find?_map, List.find?_map]
    congr 1
    apply List.find?_congr
    intro minute member
    simp [same minute member]
  · rfl

theorem exact_next (zone : Zone) (s m : Schedule) (found : mirrored s = some m) (exact_ : Exact s)
    (now t : Int) (next : m.next zone now = some t) : ∃ since, s.next zone since = some t := by
  obtain ⟨plain, further⟩ := mirrored_plain s m found
  have days : ∀ d, monday2000 ≤ d → m.runsOn d = true →
      s.anchor ≤ d ∧ s.runsOn d = true ∧ (s.unit = .hours → s.windowed = false → s.minute = 0) := by
    intro d late runs
    rw [plain.runs] at runs
    exact exact_ (mirrored_expressible s m found) d late runs
  obtain ⟨first, _, firstLate, firstRuns, inTimes, _⟩ := next_sound m zone now t next
  obtain ⟨_, _, minute⟩ := days first (by rw [← plain.start]; exact firstLate) firstRuns
  have times := mirrored_times s m found minute
  have range : ∀ minute ∈ s.timesOn, 0 ≤ minute ∧ minute < 1440 :=
    fun at_ member => timesOn_range s at_ (fun unit open_ => by simp [minute unit open_]) member
  have agree : ∀ d, monday2000 ≤ d → s.anchor ≤ d → m.runsOn d = s.runsOn d := by
    intro d late _
    cases runs : m.runsOn d with
    | true => exact (days d late runs).2.1.symm
    | false =>
        cases own : s.runsOn d with
        | false => rfl
        | true => rw [mirrored_runs s m found d own] at runs; cases runs
  obtain ⟨i, bound, here, before⟩ := (search_some _ _ _ _).mp next
  rw [plain.start] at here before
  by_cases late : monday2000 ≤ s.anchor ∨ monday2000 ≤ zone.dayOf now
  · -- both searches walk the same days, but for days the mirror does not run on
    refine ⟨now, (search_some _ _ _ _).mpr ?_⟩
    have reached : max (zone.dayOf now) s.anchor ≤ max (zone.dayOf now) monday2000 + i := by
      have runs : m.runsOn (max (zone.dayOf now) monday2000 + i) = true := by
        by_contra off
        simp [Schedule.timeOn, off] at here
      have start := (days _ (by omega) runs).1
      omega
    obtain ⟨gap, shape⟩ : ∃ gap : Nat, max (zone.dayOf now) s.anchor =
        max (zone.dayOf now) monday2000 + gap := by
      by_cases ahead : monday2000 ≤ s.anchor
      · exact ⟨(max (zone.dayOf now) s.anchor - max (zone.dayOf now) monday2000).toNat, by omega⟩
      · exact ⟨0, by omega⟩
    have same : ∀ j : Nat, s.timeOn zone now (max (zone.dayOf now) s.anchor + j) =
        m.timeOn zone now (max (zone.dayOf now) monday2000 + (gap + j : Nat)) := by
      intro j
      have day : max (zone.dayOf now) s.anchor + j =
          max (zone.dayOf now) monday2000 + (gap + j : Nat) := by
        push_cast
        omega
      rw [day]
      exact (timeOn_same s m zone now now _ times (agree _ (by omega) (by omega))
        (fun _ _ => Iff.rfl)).symm
    refine ⟨i - gap, by omega, ?_, ?_⟩
    · rw [same, show gap + (i - gap) = i by omega]
      exact here
    · intro j early
      rw [same]
      exact before (gap + j) (by omega)
  · -- from the eve of the first day: all its times, and all later ones, lie ahead
    obtain ⟨eve, dayOf, past⟩ := zone.eve
    refine ⟨eve, (search_some _ _ _ _).mpr ?_⟩
    have start : max (zone.dayOf now) monday2000 = monday2000 := by omega
    have other : max (zone.dayOf eve) s.anchor = monday2000 - 1 := by omega
    rw [start] at here before
    rw [other]
    obtain ⟨first, rest, shape⟩ := List.exists_cons_of_ne_nil (List.ne_nil_of_mem inTimes)
    have ahead : ∀ d, monday2000 ≤ d → now < zone.instant d first := by
      intro d late_
      have within := range first (by rw [← times, shape]; exact List.mem_cons_self)
      exact zone.after now (by omega) d late_ first within.1 within.2
    have week : i < 7 := by
      by_contra long
      have runs : m.runsOn (monday2000 + i) = true := by
        by_contra off
        simp [Schedule.timeOn, off] at here
      have earlier : m.runsOn (monday2000 + (i - 7 : Nat)) = true := by
        rw [← plain_week m _ plain, ← runs]
        congr 1
        omega
      have hit := timeOn_first m zone now _ first rest shape earlier (ahead _ (by omega))
      rw [before (i - 7) (by omega)] at hit
      cases hit
    have same : ∀ j : Nat, s.timeOn zone eve (monday2000 - 1 + (j + 1 : Nat)) =
        m.timeOn zone now (monday2000 + j) := by
      intro j
      have day : monday2000 - 1 + ((j + 1 : Nat) : Int) = monday2000 + j := by
        push_cast
        omega
      rw [day]
      refine (timeOn_same s m zone now eve _ times (agree _ (by omega) (by omega)) ?_).symm
      intro at_ member
      have within := range at_ member
      have one := zone.after now (by omega) (monday2000 + j) (by omega) at_ within.1 within.2
      have two := zone.after eve (by omega) (monday2000 + j) (by omega) at_ within.1 within.2
      exact ⟨fun _ => two, fun _ => one⟩
    refine ⟨i + 1, ?_, ?_, ?_⟩
    · have := plain.enough
      omega
    · rw [same]
      exact here
    · intro j early
      cases j with
      | zero =>
          apply timeOn_none
          intro at_ member
          have within := range at_ member
          simpa using past at_ within.1 within.2
      | succ j =>
          rw [same]
          exact before j (by omega)


/-! What the older program reads of a job. -/

theorem mirrorFields_keeps (job : ScheduledJob) (s : Schedule) :
    (mirrorFields job s).scheduleMode = job.scheduleMode ∧
      (mirrorFields job s).schedules = job.schedules := by
  unfold mirrorFields
  split
  · split
    · exact ⟨rfl, rfl⟩
    · exact ⟨rfl, rfl⟩
  · split
    · exact ⟨rfl, rfl⟩
    · exact ⟨rfl, rfl⟩
  · exact ⟨rfl, rfl⟩
  · exact ⟨rfl, rfl⟩
  · exact ⟨rfl, rfl⟩

/-- Only the trigger fields count, and those of the mirror do not depend on the job. -/
theorem mirror_read (job : ScheduledJob) (s : Schedule) :
    jobSchedules (older (mirrorFields { job with triggerMode := .manual } s)) =
      jobSchedules (older (mirrorFields { triggerMode := .manual } s)) := by
  cases unit : s.unit with
  | days =>
      by_cases one : s.every = 1
      · simp [mirrorFields, unit, one, older, jobSchedules, dailySchedule]
      · simp [mirrorFields, unit, one, older, jobSchedules]
  | weeks =>
      by_cases one : s.every = 1
      · simp [mirrorFields, unit, one, older, jobSchedules, dailySchedule]
      · simp [mirrorFields, unit, one, older, jobSchedules]
  | minutes => simp [mirrorFields, unit, older, jobSchedules, intervalSchedule]
  | hours => simp [mirrorFields, unit, older, jobSchedules, intervalSchedule]
  | months => simp [mirrorFields, unit, older, jobSchedules]
  | years => simp [mirrorFields, unit, older, jobSchedules]
  | unknown => simp [mirrorFields, unit, older, jobSchedules]


/-- An older job has no schedule, or one, enabled. -/
theorem jobSchedules_older (job : ScheduledJob) :
    (jobSchedules (older job)).2 = (jobSchedules (older job)).2.head?.toList ∧
      (∀ m, (jobSchedules (older job)).2.head? = some m → m.enabled = true) ∧
      ((jobSchedules (older job)).1 = .manual → (jobSchedules (older job)).2 = []) := by
  unfold jobSchedules older
  simp only [ne_eq, not_true_eq_false, if_false]
  split
  · simp
  · split
    · simp
    · simp [intervalSchedule]
  · split
    · simp
    · simp [dailySchedule]

theorem mirrorLegacyTrigger_read (job : ScheduledJob) :
    (jobSchedules (older (mirrorLegacyTrigger job))).2.head? = (firstEnabled job).bind mirrored := by
  unfold mirrorLegacyTrigger firstEnabled
  by_cases manual : job.scheduleMode = .manual
  · simp [manual, older, jobSchedules]
  · simp only [manual, if_false]
    cases job.schedules.find? (·.enabled) with
    | none => simp [older, jobSchedules]
    | some s =>
        rw [Option.bind_some, mirrored, ← mirror_read job s]

theorem mirrorLegacyTrigger_keeps (job : ScheduledJob) :
    (mirrorLegacyTrigger job).scheduleMode = job.scheduleMode ∧
      (mirrorLegacyTrigger job).schedules = job.schedules := by
  unfold mirrorLegacyTrigger
  simp only
  split
  · exact ⟨rfl, rfl⟩
  · split
    · exact mirrorFields_keeps _ _
    · exact ⟨rfl, rfl⟩

/-- The older program starts the set when the mirror of its first enabled schedule does. -/
theorem normalized_next (zone : Zone) (job : ScheduledJob) (now t : Int) :
    (∃ by_, nextRunFor zone (older (normalizeJobSchedules job)) now = some (t, by_)) ↔
      ∃ s m, firstEnabled (normalizeJobSchedules job) = some s ∧ mirrored s = some m ∧
        m.next zone now = some t := by
  obtain ⟨k, written⟩ : ∃ k, normalizeJobSchedules job = mirrorLegacyTrigger k := ⟨_, rfl⟩
  have first : firstEnabled (normalizeJobSchedules job) = firstEnabled k := by
    rw [written, firstEnabled, firstEnabled, (mirrorLegacyTrigger_keeps k).1,
      (mirrorLegacyTrigger_keeps k).2]
  have read := mirrorLegacyTrigger_read k
  obtain ⟨single, enabled, manual⟩ := jobSchedules_older (mirrorLegacyTrigger k)
  have run : nextRunFor zone (older (mirrorLegacyTrigger k)) now =
      ((firstEnabled k).bind mirrored).bind fun m => (m.next zone now).map fun t => (t, m.id) := by
    unfold nextRunFor
    rw [read] at single enabled
    split
    next mode list shape =>
      rw [shape] at single manual
      simp only at single manual
      cases found : (firstEnabled k).bind mirrored with
      | none =>
          rw [found] at single
          subst single
          split
          · rfl
          · rfl
      | some m =>
          rw [found] at single
          subst single
          have on := enabled m found
          rw [if_neg (by intro bad; have := manual bad; cases this)]
          simp only [Option.toList_some, List.foldl_cons, List.foldl_nil, on, if_true,
            Option.bind_some]
          cases m.next zone now with
          | none => rfl
          | some t => rfl
  rw [first, written, run]
  constructor
  · rintro ⟨by_, found⟩
    obtain ⟨m, chosen, mapped⟩ := Option.bind_eq_some_iff.mp found
    obtain ⟨s, sFound, mFound⟩ := Option.bind_eq_some_iff.mp chosen
    obtain ⟨t', next, same⟩ := Option.map_eq_some_iff.mp mapped
    cases same
    exact ⟨s, m, sFound, mFound, next⟩
  · rintro ⟨s, m, sFound, mFound, next⟩
    exact ⟨m.id, by simp [sFound, mFound, next]⟩

theorem firstEnabled_member (job : ScheduledJob) (s : Schedule) (found : firstEnabled job = some s) :
    s ∈ job.schedules ∧ s.enabled = true := by
  unfold firstEnabled at found
  split at found
  · cases found
  · exact ⟨List.mem_of_find?_eq_some found, List.find?_some found⟩

theorem exact_never_wrong (job : ScheduledJob) (exact_ : MirrorsExactly (normalizeJobSchedules job))
    (zone : Zone) : NeverWrong zone (normalizeJobSchedules job) := by
  intro now t by_ starts
  obtain ⟨s, m, first, found, next⟩ := (normalized_next zone job now t).mp ⟨by_, starts⟩
  obtain ⟨member, enabled⟩ := firstEnabled_member _ s first
  exact ⟨s, member, enabled, exact_next zone s m found (exact_ s first) now t next⟩


/-! A wrong mirror does fire wrongly, at least where the clocks keep UTC. -/

theorem steps_cons (first last step : Int) (ordered : first ≤ last) :
    ∃ rest, Schedule.steps first last step = first :: rest := by
  unfold Schedule.steps
  rw [if_neg (by omega), List.range_succ_eq_map]
  simp

/-- What a schedule that is not refused has passed, of use to a mirror. -/
theorem validSchedule_parts (s : Schedule) (valid : validateSchedule s = none) :
    1 ≤ s.every ∧ (s.unit = .minutes ∨ s.unit = .hours → validateWindow s = none) ∧
      (s.unit = .days ∨ s.unit = .weeks → (hhmmMinutes s.at_).isSome = true) := by
  unfold validateSchedule at valid
  split at valid
  · cases valid
  · split at valid
    · cases valid
    · next every =>
        split at valid
        · cases valid
        · split at valid
          · cases valid
          · split at valid
            · cases valid
            · refine ⟨by omega, ?_, ?_⟩
              · rintro (unit | unit)
                · simpa [unit] using valid
                · simpa [unit] using valid
              · intro unit
                by_contra unread
                have blank : (hhmmMinutes s.at_).isNone = true := by simpa using unread
                rcases unit with unit | unit
                · simp [unit, blank] at valid
                · simp [unit, blank] at valid

theorem validWindow_parts (s : Schedule) (valid : validateWindow s = none) :
    0 ≤ s.minute ∧ (s.windowed = true →
      ∃ a b, hhmmMinutes s.windowStart = some a ∧ hhmmMinutes s.windowEnd = some b) := by
  unfold validateWindow at valid
  split at valid
  · cases valid
  · rw [Option.or_eq_none_iff] at valid
    constructor
    · by_contra negative
      simp at valid
      omega
    · intro windowed
      have ends : s.windowStart ≠ "" ∧ s.windowEnd ≠ "" := by
        simpa [Schedule.windowed] using windowed
      have texts := valid.1
      rw [if_neg ends.1] at texts
      split at texts
      · next a b first last => exact ⟨a, b, first, last⟩
      · cases texts

theorem hhmm_blank : hhmmMinutes "" = none := by decide

/-- A valid schedule the old fields can express has a mirror with times. -/
theorem mirrored_first (s : Schedule) (valid : validateSchedule s = none)
    (expressible : Expressible s) :
    ∃ m first rest, mirrored s = some m ∧ m.timesOn = first :: rest ∧ 0 ≤ first ∧ first < 1440 ∧
      (s.unit = .hours → s.windowed = false → first = 0) := by
  obtain ⟨every, window, time⟩ := validSchedule_parts s valid
  have repeats : s.unit = .minutes ∨ s.unit = .hours →
      ∃ m first rest, mirrored s = some m ∧ m.timesOn = first :: rest ∧ 0 ≤ first ∧ first < 1440 ∧
        (s.unit = .hours → s.windowed = false → first = 0) := by
    intro unit
    have positive : 0 < (repeatFields s).intervalMinutes := by
      rcases unit with unit | unit
      · simp [repeatFields, unit]
        omega
      · simp [repeatFields, unit]
        omega
    have own : (intervalSchedule (repeatFields s)).timesOn =
        (intervalSchedule (repeatFields s)).repeatTimes := by
      by_cases whole : (repeatFields s).intervalMinutes % 60 = 0
      · simp [Schedule.timesOn, intervalSchedule, whole]
      · simp [Schedule.timesOn, intervalSchedule, whole]
    refine ⟨intervalSchedule (repeatFields s), ?_⟩
    rw [mirrored_repeat s unit, if_pos positive, own, Schedule.repeatTimes, interval_windowed]
    by_cases windowed : s.windowed = true
    · obtain ⟨a, b, start, last⟩ := (validWindow_parts s (window unit)).2 windowed
      have ends : s.windowStart ≠ "" ∧ s.windowEnd ≠ "" := by
        simpa [Schedule.windowed] using windowed
      obtain ⟨rest, shape⟩ := steps_cons a (max a b) (intervalSchedule (repeatFields s)).step
        (by omega)
      have range := hhmm_range _ _ start
      refine ⟨a, rest, rfl, ?_, range.1, range.2, ?_⟩
      · simpa [windowed, intervalSchedule, repeatFields, ends.1, ends.2, start, last] using shape
      · intro _ open_
        rw [windowed] at open_
        cases open_
    · have zero : (intervalSchedule (repeatFields s)).minute = 0 := rfl
      obtain ⟨rest, shape⟩ := steps_cons 0 (24 * 60 - 1) (intervalSchedule (repeatFields s)).step
        (by omega)
      refine ⟨0, rest, rfl, ?_, by omega, by omega, fun _ _ => rfl⟩
      rw [if_neg windowed, zero, ite_self]
      exact shape
  have daily : (s.unit = .days ∨ s.unit = .weeks) ∧ s.every = 1 →
      ∃ m first rest, mirrored s = some m ∧ m.timesOn = first :: rest ∧ 0 ≤ first ∧ first < 1440 ∧
        (s.unit = .hours → s.windowed = false → first = 0) := by
    rintro ⟨unit, one⟩
    obtain ⟨minute, read⟩ := Option.isSome_iff_exists.mp (time unit)
    have text : s.at_ ≠ "" := by
      intro blank
      rw [blank, hhmm_blank] at read
      cases read
    have range := hhmm_range _ _ read
    refine ⟨_, minute, [], by rw [mirrored_daily s unit, if_pos ⟨one, text⟩], ?_, range.1,
      range.2, ?_⟩
    · simp [Schedule.timesOn, dailySchedule, read]
    · intro hours
      rcases unit with unit | unit
      · rw [unit] at hours
        cases hours
      · rw [unit] at hours
        cases hours
  rcases expressible with unit | unit | unit
  · exact repeats (Or.inl unit)
  · exact repeats (Or.inr unit)
  · exact daily unit

/-- Seconds since the epoch, days of 24 hours. -/
def utc : Zone where
  dayOf now := now / 86400
  instant d minute := d * 86400 + minute * 60
  eve := ⟨monday2000 * 86400 - 1, by decide, by
    intro minute _ _
    simp [monday2000]
    omega⟩
  after := by
    intro now early d late minute _ _
    have : now < monday2000 * 86400 := by omega
    omega

theorem utc_injective (d d' minute minute' : Int) (low : 0 ≤ minute) (high : minute < 1440)
    (low' : 0 ≤ minute') (high' : minute' < 1440)
    (same : utc.instant d minute = utc.instant d' minute') : d = d' ∧ minute = minute' := by
  simp [utc] at same
  omega

/-- A mirror is found at its first time of each of its days. -/
theorem plain_next (m : Schedule) (weekdays : List String) (plain : Plain m weekdays)
    (first : Int) (rest : List Int) (times : m.timesOn = first :: rest) (low : 0 ≤ first)
    (range : ∀ minute ∈ m.timesOn, minute < 1440) (d : Int) (late : monday2000 ≤ d)
    (runs : m.runsOn d = true) :
    ∃ now, m.next utc now = some (utc.instant d first) := by
  have ahead : d * 86400 - 1 < utc.instant d first := by
    simp [utc]
    omega
  have here := timeOn_first m utc _ d first rest times runs ahead
  have day : utc.dayOf (d * 86400 - 1) = d - 1 := by
    simp [utc]
    omega
  refine ⟨d * 86400 - 1, (search_some _ _ _ _).mpr ?_⟩
  rw [plain.start, day]
  have enough := plain.enough
  by_cases start : d = monday2000
  · refine ⟨0, by omega, ?_, by intro j early; omega⟩
    rw [show max (d - 1) monday2000 + ((0 : Nat) : Int) = d by omega]
    exact here
  · refine ⟨1, by omega, ?_, ?_⟩
    · rw [show max (d - 1) monday2000 + ((1 : Nat) : Int) = d by omega]
      exact here
    · intro j early
      apply timeOn_none
      intro minute member
      have bound := range minute member
      simp [utc]
      omega

def OneEnabled (job : ScheduledJob) : Prop :=
  ∀ s ∈ job.schedules, ∀ other ∈ job.schedules, s.enabled = true → other.enabled = true → s = other

theorem validSchedules_member (list : List Schedule) (valid : validateSchedules list = none)
    (s : Schedule) (member : s ∈ list) : validateSchedule s = none := by
  unfold validateSchedules at valid
  rw [List.findSome?_eq_none_iff] at valid
  obtain ⟨i, inside, rfl⟩ := List.mem_iff_getElem.mp member
  have passed := valid (list[i], 1 + i) (by
    rw [List.mk_mem_zipIdx_iff_le_and_getElem?_sub]
    simp [inside])
  simpa using passed

theorem never_wrong_exact (job : ScheduledJob)
    (valid : validateSchedules (normalizeJobSchedules job).schedules = none)
    (alone : OneEnabled (normalizeJobSchedules job))
    (right : NeverWrong utc (normalizeJobSchedules job)) :
    MirrorsExactly (normalizeJobSchedules job) := by
  intro s first expressible d late listed
  obtain ⟨member, enabled⟩ := firstEnabled_member _ s first
  have passed := validSchedules_member _ valid s member
  obtain ⟨m, minute, rest, found, times, low, high, full⟩ := mirrored_first s passed expressible
  obtain ⟨plain, _⟩ := mirrored_plain s m found
  have range : ∀ minute ∈ m.timesOn, minute < 1440 := by
    intro at_ inside
    have zero := plain.low
    exact (timesOn_range m at_ (by intro _ _; omega) inside).2
  obtain ⟨now, next⟩ := plain_next m _ plain minute rest times low range d late
    (by rw [plain.runs]; exact listed)
  obtain ⟨by_, starts⟩ := (normalized_next utc job now _).mpr ⟨s, m, first, found, next⟩
  obtain ⟨other, inside, on, since, own⟩ := right now _ by_ starts
  rw [alone other inside s member on enabled] at own
  obtain ⟨d', minute', anchored, runs, timed, same⟩ := next_sound s utc since _ own
  have lowest : s.unit = .hours → s.windowed = false → 0 ≤ s.minute := by
    intro unit _
    exact (validWindow_parts s ((validSchedule_parts s passed).2.1 (Or.inr unit))).1
  have within := timesOn_range s minute' lowest timed
  obtain ⟨rfl, rfl⟩ := utc_injective _ _ _ _ low high within.1 within.2 same
  refine ⟨anchored, runs, ?_⟩
  -- the mirror runs at the full hour, so the schedule has to
  intro unit open_
  have zero := full unit open_
  subst zero
  simp only [Schedule.timesOn, unit, Schedule.repeatTimes, open_] at timed
  have after := (mem_steps _ _ _ _ (step_positive s) timed).1
  simp at after
  have := lowest unit open_
  omega

/-- A set backed up every day at two in the morning. -/
def nightly : ScheduledJob where
  scheduleMode := .scheduled
  schedules := [{ enabled := true, unit := .days, every := 1, at_ := "02:00" }]

/-- A set backed up every day at two in the morning, from New Year 2027 on. -/
def fromNewYear : ScheduledJob where
  scheduleMode := .scheduled
  schedules := [{ enabled := true, unit := .days, every := 1, at_ := "02:00", start := "2027-01-01" }]

theorem nightly_exact : MirrorsExactly (normalizeJobSchedules nightly) := by
  intro s first _ d late _
  have shape : firstEnabled (normalizeJobSchedules nightly) = some
      { id := "s1", enabled := true, unit := .days, every := 1, at_ := "02:00" } := by
    decide +kernel
  rw [shape] at first
  cases first
  refine ⟨?_, ?_, ?_⟩
  · simpa [Schedule.anchor, parseDate_blank] using late
  · simp [Schedule.runsOn, Schedule.onDay, weekdayListed]
  · intro unit
    cases unit

theorem fromNewYear_anchor : ∀ s ∈ (normalizeJobSchedules fromNewYear).schedules,
    s.anchor = 20819 ∧ s.timesOn = [120] := by decide +kernel

end ProxmoxBackup.LegacyTrigger
