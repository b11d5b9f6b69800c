import ProxmoxBackup.CivilDate

/-! A Backup Set's schedules (gui/schedules.go): the days and minutes each of
the six kinds runs at, the search for the next run, and the trigger fields of
older versions, read by jobSchedules and written by mirrorLegacyTrigger. A time
zone gives the day of an instant and the instant of a minute of a day. -/

namespace ProxmoxBackup.Schedules

open CivilDate

inductive Repeat where
  | minutes
  | hours
  | days
  | weeks
  | months
  | years
  | unknown
  deriving DecidableEq

inductive MonthMode where
  | day
  | last
  | nth
  | unknown
  deriving DecidableEq

structure Schedule where
  id : String := ""
  enabled : Bool := false
  unit : Repeat
  every : Int
  at_ : String := ""
  minute : Int := 0
  windowStart : String := ""
  windowEnd : String := ""
  weekdays : List String := []
  monthMode : MonthMode := .unknown
  monthDay : Int := 0
  nth : Int := 0
  nthWeekday : String := ""
  yearMonth : Int := 0
  yearDay : Int := 0
  start : String := ""
  deriving DecidableEq

/-! Reading the texts. -/

/-- One signed number of Sscanf's %d, and the text after it. -/
def scanInt (text : List Char) : Option (Int × List Char) :=
  let text := text.dropWhile (· = ' ')
  let (negative, text) := match text with
    | '-' :: rest => (true, rest)
    | '+' :: rest => (false, rest)
    | _ => (false, text)
  match text.takeWhile Char.isDigit with
  | [] => none
  | digits =>
      let value : Int := digits.foldl (fun n c => 10 * n + (c.toNat - 48)) 0
      some (if negative then -value else value, text.dropWhile Char.isDigit)

def parseHHMM (s : String) : Option (Int × Int) :=
  match scanInt s.toList with
  | some (hour, ':' :: rest) => (scanInt rest).map fun (minute, _) => (hour, minute)
  | _ => none

/-- "HH:MM" as minutes after midnight. -/
def hhmmMinutes (s : String) : Option Int :=
  match parseHHMM s with
  | some (h, m) =>
      if s.utf8ByteSize < 3 || h < 0 || h > 23 || m < 0 || m > 59 then none else some (h * 60 + m)
  | none => none

/-- A date of the layout 2006-01-02, as its day. -/
def parseDate (s : String) : Option Int :=
  match s.toList with
  | [y₁, y₂, y₃, y₄, '-', m₁, m₂, '-', d₁, d₂] =>
      if [y₁, y₂, y₃, y₄, m₁, m₂, d₁, d₂].all Char.isDigit then
        let number (digits : List Char) : Int := digits.foldl (fun n c => 10 * n + (c.toNat - 48)) 0
        let (year, month, day) := (number [y₁, y₂, y₃, y₄], number [m₁, m₂], number [d₁, d₂])
        if 1 ≤ month && month ≤ 12 && 1 ≤ day && day ≤ daysIn year month then
          some (daysFromCivil year month day)
        else none
      else none
  | _ => none

/-- Simple case folding, as far as a letter of the alphabet is in the class. -/
def foldCase (c : Char) : Char :=
  if c = Char.ofNat 0x17F then 's' else if c = Char.ofNat 0x212A then 'k' else c.toLower

def equalFold (a b : String) : Bool := a.toList.map foldCase = b.toList.map foldCase

def weekdayAbbrev : List String := ["Sun", "Mon", "Tue", "Wed", "Thu", "Fri", "Sat"]

def abbrevOf (d : Int) : String := weekdayAbbrev.getD (weekday d) ""

def weekdayKnown (day : String) : Bool := weekdayAbbrev.any fun w => equalFold w day

def dayAllowed (d : Int) (days : List String) : Bool :=
  days.isEmpty || days.any fun day => equalFold day (abbrevOf d)

def weekdayListed (d : Int) (days : List String) (emptyIsAll : Bool) : Bool :=
  if days.isEmpty then emptyIsAll else dayAllowed d days

/-! When a schedule runs. -/

/-- Monday 3 January 2000. -/
def monday2000 : Int := 10959

example : monday2000 = daysFromCivil 2000 1 3 := by decide

namespace Schedule

def anchor (s : Schedule) : Int := (parseDate s.start).getD monday2000

def onDay (s : Schedule) (anchor every d : Int) : Bool :=
  let date := civilFromDays d
  let from_ := civilFromDays anchor
  match s.unit with
  | .minutes | .hours => weekdayListed d s.weekdays true
  | .days => (d - anchor) % every = 0 && weekdayListed d s.weekdays true
  | .weeks =>
      let days := if s.weekdays.isEmpty then [abbrevOf anchor] else s.weekdays
      weekdayListed d days false && (mondayOf d - mondayOf anchor) / 7 % every = 0
  | .months =>
      let months := (date.year - from_.year) * 12 + date.month - from_.month
      let last := daysIn date.year date.month
      months % every = 0 && match s.monthMode with
        | .day => date.day = min s.monthDay last
        | .last => date.day = last
        | .nth =>
            abbrevOf d = s.nthWeekday &&
              if s.nth = -1 then date.day + 7 > last else (date.day - 1) / 7 + 1 = s.nth
        | .unknown => false
  | .years =>
      (date.year - from_.year) % every = 0 && date.month = s.yearMonth &&
        date.day = min s.yearDay (daysIn date.year date.month)
  | .unknown => false

/-- The days of the schedule, counted from its start. -/
def runsOn (s : Schedule) (d : Int) : Bool := s.onDay s.anchor (max s.every 1) d

/-- The times of a loop from `first` to `last` in steps. -/
def steps (first last step : Int) : List Int :=
  if last < first then [] else
    (List.range (((last - first) / step).toNat + 1)).map fun (i : Nat) => first + i * step

def windowed (s : Schedule) : Bool := s.windowStart ≠ "" && s.windowEnd ≠ ""

/-- The step of a minutes or hours schedule. -/
def step (s : Schedule) : Int := max s.every 1 * (if s.unit = .hours then 60 else 1)

/-- The minutes of a day such a schedule runs at. -/
def repeatTimes (s : Schedule) : List Int :=
  if s.windowed then
    match hhmmMinutes s.windowStart, hhmmMinutes s.windowEnd with
    | some a, some b => steps a (max a b) s.step
    | _, _ => []
  else steps (if s.unit = .minutes then 0 else s.minute) (24 * 60 - 1) s.step

/-- The minutes of a day the schedule runs at, in the order they are tried. -/
def timesOn (s : Schedule) : List Int :=
  match s.unit with
  | .minutes | .hours => s.repeatTimes
  | _ => (hhmmMinutes s.at_).toList

def horizon (s : Schedule) : Nat :=
  let every := (max s.every 1).toNat
  match s.unit with
  | .days => every + 8
  | .weeks => 7 * every + 8
  | .months => 31 * every + 62
  | .years => 366 * every + 366 * 4
  | _ => 8

end Schedule

/-- A location. Of its clock changes only this is used: none falls on the eve of
Monday 3 January 2000, where the days of a schedule without a start begin. -/
structure Zone where
  dayOf : Int → Int
  instant : Int → Int → Int
  eve : ∃ now, dayOf now = monday2000 - 1 ∧
    ∀ minute, 0 ≤ minute → minute < 1440 → instant (monday2000 - 1) minute ≤ now
  after : ∀ now, dayOf now < monday2000 → ∀ d, monday2000 ≤ d → ∀ minute, 0 ≤ minute →
    minute < 1440 → now < instant d minute

/-- The first of the days from `day` on that gives a time. -/
def search (times : Int → Option Int) (day : Int) (days : Nat) : Option Int :=
  (List.range days).findSome? fun (i : Nat) => times (day + i)

namespace Schedule

/-- The first time on day `d` after `now`. -/
def timeOn (s : Schedule) (zone : Zone) (now d : Int) : Option Int :=
  if s.runsOn d then (s.timesOn.map (zone.instant d)).find? (now < ·) else none

def next (s : Schedule) (zone : Zone) (now : Int) : Option Int :=
  search (s.timeOn zone now) (max (zone.dayOf now) s.anchor) (s.horizon + 1)

end Schedule

/-! The sets and their older fields. -/

inductive Mode where
  | unset
  | scheduled
  | manual
  | unknown
  deriving DecidableEq

inductive TriggerMode where
  | unset
  | daily
  | interval
  | manual
  | unknown
  deriving DecidableEq

inductive Frequency where
  | unset
  | weekly
  | monthly
  | unknown
  deriving DecidableEq

structure ScheduledJob where
  scheduleMode : Mode := .unset
  schedules : List Schedule := []
  triggerMode : TriggerMode := .unset
  scheduleTime : String := ""
  intervalMinutes : Int := 0
  windowAllDay : Bool := false
  windowStart : String := ""
  windowEnd : String := ""
  daysOfWeek : List String := []
  upstreamFrequency : Frequency := .unset
  upstreamWeekdays : List Int := []
  upstreamDayOfMonth : Int := 0
  deriving DecidableEq

def everyDayAsNone (days : List String) : List String := if days.length ≥ 7 then [] else days

/-- The schedule of an "every N minutes" trigger. -/
def intervalSchedule (job : ScheduledJob) : Schedule where
  id := "s1"
  enabled := true
  unit := if job.intervalMinutes % 60 = 0 then .hours else .minutes
  every := if job.intervalMinutes % 60 = 0 then job.intervalMinutes / 60 else job.intervalMinutes
  weekdays := everyDayAsNone job.daysOfWeek
  windowStart := if job.windowAllDay then "" else job.windowStart
  windowEnd := if job.windowAllDay then "" else job.windowEnd

def dailySchedule (job : ScheduledJob) : Schedule where
  id := "s1"
  enabled := true
  unit := .days
  every := 1
  at_ := job.scheduleTime
  weekdays := everyDayAsNone job.daysOfWeek

def jobSchedules (job : ScheduledJob) : Mode × List Schedule :=
  if job.scheduleMode ≠ .unset then (job.scheduleMode, job.schedules)
  else match job.triggerMode with
    | .manual => (.manual, [])
    | .interval =>
        (.scheduled, if job.intervalMinutes ≤ 0 then [] else [intervalSchedule job])
    | _ => (.scheduled, if job.scheduleTime = "" then [] else [dailySchedule job])

/-- migrateUpstreamJob, as far as the schedules go. -/
def migrateUpstreamJob (job : ScheduledJob) : ScheduledJob :=
  let moved :=
    if job.scheduleMode = .unset && job.triggerMode = .unset && job.scheduleTime ≠ "" then
      match job.upstreamFrequency with
      | .weekly =>
          let days := job.upstreamWeekdays.filterMap fun d =>
            if 0 ≤ d && d < 7 then weekdayAbbrev[d.toNat]? else none
          if days = [] then job
          else { job with
            scheduleMode := .scheduled
            schedules := [{ id := "s1", enabled := true, unit := .weeks, every := 1
                            at_ := job.scheduleTime, weekdays := days }] }
      | .monthly =>
          let day := job.upstreamDayOfMonth
          { job with
            scheduleMode := .scheduled
            schedules := [{ id := "s1", enabled := true, unit := .months, every := 1
                            at_ := job.scheduleTime, monthMode := .day
                            monthDay := if day < 1 || day > 31 then 1 else day }] }
      | _ => job
    else job
  { moved with upstreamFrequency := .unset, upstreamWeekdays := [], upstreamDayOfMonth := 0 }

def freshId (used : List String) : String :=
  (((List.range (used.length + 1)).map fun n => "s" ++ toString (n + 1)).find? (· ∉ used)).getD ""

/-- Every schedule without an ID is given the first free one. -/
def giveIds : List String → List Schedule → List Schedule
  | _, [] => []
  | used, s :: rest =>
      if s.id ≠ "" then s :: giveIds used rest
      else { s with id := freshId used } :: giveIds (freshId used :: used) rest

def mirrorFields (job : ScheduledJob) (s : Schedule) : ScheduledJob :=
  match s.unit with
  | .days | .weeks =>
      if s.every = 1 then
        { job with triggerMode := .daily, scheduleTime := s.at_, daysOfWeek := s.weekdays }
      else job
  | .minutes | .hours =>
      { job with
        triggerMode := .interval
        intervalMinutes := if s.unit = .hours then s.every * 60 else s.every
        daysOfWeek := s.weekdays
        windowAllDay := s.windowStart = "" || s.windowEnd = ""
        windowStart := s.windowStart
        windowEnd := s.windowEnd }
  | _ => job

def mirrorLegacyTrigger (job : ScheduledJob) : ScheduledJob :=
  let cleared := { job with triggerMode := .manual }
  if job.scheduleMode = .manual then cleared
  else match job.schedules.find? (·.enabled) with
    | some s => mirrorFields cleared s
    | none => cleared

def normalizeJobSchedules (job : ScheduledJob) : ScheduledJob :=
  let moved := migrateUpstreamJob job
  let (mode, schedules) := jobSchedules moved
  mirrorLegacyTrigger { moved with
    scheduleMode := mode, schedules := giveIds (schedules.map (·.id)) schedules }

/-! What validateSchedules refuses, schedule by schedule in order. -/

inductive ScheduleError where
  | unit
  | every
  | shortRepeat
  | day (name : String)
  | start
  | windowHalf
  | windowText
  | windowOrder
  | minute
  | time
  | pickDay
  | monthDay
  | nth
  | nthDay
  | monthMode
  | yearMonth
  | yearDay
  deriving DecidableEq

def validateWindow (s : Schedule) : Option ScheduleError :=
  if (s.windowStart = "") ≠ (s.windowEnd = "") then some .windowHalf
  else
    let window := if s.windowStart = "" then none else
      match hhmmMinutes s.windowStart, hhmmMinutes s.windowEnd with
      | some a, some b => if b ≤ a then some .windowOrder else none
      | _, _ => some .windowText
    window.or (if s.minute < 0 || s.minute > 59 then some .minute else none)

def validateDay (s : Schedule) : Option ScheduleError :=
  match s.unit with
  | .weeks => if s.weekdays = [] then some .pickDay else none
  | .months =>
      match s.monthMode with
      | .day => if s.monthDay < 1 || s.monthDay > 31 then some .monthDay else none
      | .last => none
      | .nth =>
          if (s.nth < 1 || s.nth > 4) && s.nth ≠ -1 then some .nth
          else if weekdayKnown s.nthWeekday then none else some .nthDay
      | .unknown => some .monthMode
  | .years =>
      if s.yearMonth < 1 || s.yearMonth > 12 then some .yearMonth
      else if s.yearDay < 1 || s.yearDay > daysIn 2000 s.yearMonth then some .yearDay
      else none
  | _ => none

def validateSchedule (s : Schedule) : Option ScheduleError :=
  if s.unit = .unknown then some .unit
  else if s.every < 1 then some .every
  else if s.unit = .minutes && s.every < 5 then some .shortRepeat
  else match s.weekdays.find? fun day => !weekdayKnown day with
    | some day => some (.day day)
    | none =>
        if s.start ≠ "" && (parseDate s.start).isNone then some .start
        else match s.unit with
          | .minutes | .hours => validateWindow s
          | _ => if (hhmmMinutes s.at_).isNone then some .time else validateDay s

/-- The number of the first schedule refused, and why. -/
def validateSchedules (list : List Schedule) : Option (Nat × ScheduleError) :=
  (list.zipIdx 1).findSome? fun (s, n) => (validateSchedule s).map fun error => (n, error)

/-- The earliest next run of the enabled schedules, and whose it is. -/
def nextRunFor (zone : Zone) (job : ScheduledJob) (now : Int) : Option (Int × String) :=
  let (mode, list) := jobSchedules job
  if mode = .manual then none
  else list.foldl (fun best s =>
    if s.enabled then
      match s.next zone now, best with
      | some t, none => some (t, s.id)
      | some t, some (earliest, by_) => if t < earliest then some (t, s.id) else some (earliest, by_)
      | none, _ => best
    else best) none

end ProxmoxBackup.Schedules
