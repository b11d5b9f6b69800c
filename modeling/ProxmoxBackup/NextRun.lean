import Mathlib.Data.Nat.Find
import ProxmoxBackup.CivilMonths
import ProxmoxBackup.ScheduleLoops

/-! Schedule.next of gui/schedules.go in a zone of a fixed offset: when what it
returns is the earliest time after a given one at which the schedule is due.
Times are whole seconds (a run is at a full minute, so no fraction matters) and
days go on for ever; the loop counters and the horizon are of 64 bits. -/

namespace ProxmoxBackup.NextRun

open CivilDate Schedules LegacyTrigger ScheduleLoops

/-- Days of 24 hours, that many seconds ahead of UTC. -/
def fixedOffset (offset : Int) : Zone where
  dayOf now := (now + offset) / 86400
  instant d minute := d * 86400 + minute * 60 - offset
  eve := ⟨monday2000 * 86400 - 1 - offset, by omega, by
    intro minute _ _
    omega⟩
  after := by
    intro now early d late minute _ _
    omega

section

variable (s : Schedule) (offset : Int)

/-- The loop of Schedule.next over the days; the loop within it gets `turns` turns. -/
def searchDays (after day : Int) (turns : Nat) : Int → Nat → Option (Option Int)
  | _, 0 => none
  | i, fuel + 1 =>
      if i ≤ horizon64 s then
        if s.runsOn (day + i) then
          match timesOn64 s turns with
          | none => none
          | some minutes =>
              match (minutes.map ((fixedOffset offset).instant (day + i))).find? (after < ·) with
              | some t => some (some t)
              | none => searchDays after day turns (wrap64 (i + 1)) fuel
        else searchDays after day turns (wrap64 (i + 1)) fuel
      else some none

def next (after : Int) (fuel : Nat) : Option (Option Int) :=
  searchDays s offset after (max ((fixedOffset offset).dayOf after) s.anchor) fuel 0 fuel

/-- The times the schedule is due at, from its start on. -/
def Due (t : Int) : Prop :=
  ∃ d minute, s.anchor ≤ d ∧ s.runsOn d = true ∧ minute ∈ s.timesOn ∧
    t = (fixedOffset offset).instant d minute

def Earliest (after : Int) : Option Int → Prop
  | some t => Due s offset t ∧ after < t ∧ ∀ other, Due s offset other → after < other → t ≤ other
  | none => ∀ t, Due s offset t → t ≤ after

/-- The search ends, with the earliest time after the given one, or without a
time where there is none. -/
def NextRight (after : Int) : Prop :=
  ∃ fuel result, next s offset after fuel = some result ∧ Earliest s offset after result

end

def NeverDue (s : Schedule) : Prop := ∀ d, s.anchor ≤ d → s.runsOn d = false

/-- A loop over the minutes in 64 bits stays below 2^63 with its first step, or
comes round to a minute past the last without having met one after the first. -/
def StaysOrdered (first last step : Int) : Prop :=
  first + step < 2 ^ 63 ∨ ∃ k : Nat, last < wrap64 (first + k * step) ∧
    ∀ j < k, wrap64 (first + j * step) ≤ first

/-- From every day of the rhythm on a listed weekday comes up along it within
eight days. -/
def WeekdaysNear (s : Schedule) : Prop :=
  ∀ k : Nat, ∃ i : Nat, i * s.every ≤ 8 ∧
    weekdayListed (s.anchor + (k + i) * s.every) s.weekdays true = true

/-- What the search relies on. -/
def Reaches (s : Schedule) : Prop :=
  (s.horizon : Int) < 2 ^ 63 ∧ match s.unit with
    | .minutes | .hours => ∀ first last, bounds s = some (first, last) →
        StaysOrdered first last s.step
    | .days => WeekdaysNear s
    | _ => True

/-! The minutes of a day. -/

/-- The minute the loop is at after `j` steps. -/
def minuteAt (first step : Int) (j : Nat) : Int := wrap64 (first + j * step)

theorem minuteAt_succ (first step : Int) (j : Nat) :
    wrap64 (minuteAt first step j + wrap64 step) = minuteAt first step (j + 1) := by
  unfold minuteAt wrap64
  rw [show ((j + 1 : Nat) : Int) * step = j * step + step by
    rw [Int.natCast_add, Int.add_mul]; omega]
  omega

theorem minutes_cons (first step : Int) (i k : Nat) :
    ((List.range (k + 1)).map fun j => minuteAt first step (i + j)) =
      minuteAt first step i :: (List.range k).map fun j => minuteAt first step (i + 1 + j) := by
  rw [List.range_succ_eq_map, List.map_cons, List.map_map]
  congr 1
  refine List.map_congr_left fun j _ => ?_
  show minuteAt first step (i + (j + 1)) = minuteAt first step (i + 1 + j)
  rw [show i + (j + 1) = i + 1 + j by omega]

theorem minutesLoop_iff (first last step : Int) (i : Nat) (minutes : List Int) :
    (∃ fuel, minutesLoop (wrap64 step) last (minuteAt first step i) fuel = some minutes) ↔
      ∃ k, last < minuteAt first step (i + k) ∧ (∀ j < k, minuteAt first step (i + j) ≤ last) ∧
        minutes = (List.range k).map fun j => minuteAt first step (i + j) := by
  constructor
  · rintro ⟨fuel, ended⟩
    induction fuel generalizing i minutes with
    | zero => cases ended
    | succ fuel ih =>
        rw [minutesLoop] at ended
        split at ended
        · next inside =>
            obtain ⟨rest, later, rfl⟩ := Option.map_eq_some_iff.mp ended
            rw [minuteAt_succ] at later
            obtain ⟨k, past, within, rfl⟩ := ih (i + 1) rest later
            refine ⟨k + 1, by rwa [show i + (k + 1) = i + 1 + k by omega], ?_, ?_⟩
            · intro j bound
              cases j with
              | zero => exact inside
              | succ j =>
                  rw [show i + (j + 1) = i + 1 + j by omega]
                  exact within j (by omega)
            · rw [minutes_cons]
        · next outside =>
            cases ended
            refine ⟨0, ?_, fun j bound => absurd bound (Nat.not_lt_zero j), rfl⟩
            exact Int.not_le.mp outside
  · rintro ⟨k, past, within, rfl⟩
    induction k generalizing i with
    | zero =>
        have outside : ¬minuteAt first step i ≤ last := Int.not_le.mpr past
        refine ⟨1, ?_⟩
        rw [minutesLoop, if_neg outside]
        rfl
    | succ k ih =>
        have here : minuteAt first step i ≤ last := within 0 (by omega)
        obtain ⟨fuel, ended⟩ := ih (i + 1) (by rwa [show i + 1 + k = i + (k + 1) by omega])
          (fun j bound => by
            rw [show i + 1 + j = i + (j + 1) by omega]
            exact within (j + 1) (by omega))
        refine ⟨fuel + 1, ?_⟩
        rw [minutesLoop, if_pos here, minuteAt_succ, ended, Option.map_some, minutes_cons]

theorem minuteAt_same (first step : Int) (j : Nat) (low : -2 ^ 63 ≤ first + j * step)
    (high : first + j * step < 2 ^ 63) : minuteAt first step j = first + j * step :=
  wrap64_same _ low high

theorem steps_single (first last step : Int) (ordered : first ≤ last) (far : last < first + step) :
    Schedule.steps first last step = [first] := by
  unfold Schedule.steps
  rw [if_neg (by omega), Int.ediv_eq_zero_of_lt (by omega) (by omega)]
  simp

/-- The times of a loop that does not leave the 64 bits. -/
theorem steps_minutes (first last step : Int) (positive : 0 < step) (low : 0 ≤ first)
    (ordered : first ≤ last) (high : last < 1440) (fits : first + step < 2 ^ 63) :
    ∃ k, last < minuteAt first step (0 + k) ∧ (∀ j < k, minuteAt first step (0 + j) ≤ last) ∧
      Schedule.steps first last step = (List.range k).map fun j => minuteAt first step (0 + j) := by
  have nonneg : 0 ≤ (last - first) / step := Int.ediv_nonneg (by omega) (by omega)
  obtain ⟨count, same⟩ : ∃ count : Nat, (last - first) / step = count :=
    ⟨((last - first) / step).toNat, by omega⟩
  have whole : (count : Int) * step ≤ last - first :=
    (Int.le_ediv_iff_mul_le positive).mp (by omega)
  have more : last - first < ((count : Int) + 1) * step :=
    (Int.ediv_lt_iff_lt_mul positive).mp (by omega)
  have inside (j : Nat) (bound : j < count + 1) :
      0 ≤ (j : Int) * step ∧ (j : Int) * step ≤ last - first := by
    have product : (j : Int) * step ≤ count * step :=
      Int.mul_le_mul_of_nonneg_right (by omega) (by omega)
    exact ⟨Int.mul_nonneg (by omega) (by omega), by omega⟩
  have each (j : Nat) (bound : j < count + 1) : minuteAt first step (0 + j) = first + j * step := by
    have range := inside j bound
    rw [Nat.zero_add]
    exact minuteAt_same first step j (by omega) (by omega)
  refine ⟨count + 1, ?_, ?_, ?_⟩
  · have past : ((count + 1 : Nat) : Int) * step = count * step + step := by
      rw [Int.natCast_add, Int.add_mul]
      omega
    have range := inside count (by omega)
    rw [Int.add_mul] at more
    -- a second step means that it is at most a day
    have small : first + (count * step + step) < 2 ^ 63 := by
      rcases Nat.eq_zero_or_pos count with rfl | some
      · omega
      · have one := inside 1 (by omega)
        omega
    rw [Nat.zero_add, minuteAt_same first step (count + 1) (by omega) (by omega), past]
    omega
  · intro j bound
    have range := inside j bound
    rw [each j bound]
    omega
  · unfold Schedule.steps
    rw [if_neg (by omega), same, Int.toNat_natCast]
    refine List.map_congr_left fun j member => ?_
    exact (each j (List.mem_range.mp member)).symm

/-- The minutes of the loop find on any day what the schedule's own do. -/
def Agrees (s : Schedule) (minutes : List Int) : Prop :=
  ∀ offset after d, (minutes.map ((fixedOffset offset).instant d)).find? (after < ·) =
    (s.timesOn.map ((fixedOffset offset).instant d)).find? (after < ·)

theorem step64_eq (s : Schedule) (unit : s.unit = .minutes ∨ s.unit = .hours)
    (int : s.every < 2 ^ 63) : step64 s = wrap64 s.step := by
  unfold step64 Schedule.step
  rcases unit with unit | unit
  · rw [unit, if_neg (by decide), if_neg (by decide), Int.mul_one, wrap64_same _ (by omega) (by omega)]
  · rw [unit, if_pos rfl, if_pos rfl]

theorem timesOn_bounds (s : Schedule) (unit : s.unit = .minutes ∨ s.unit = .hours)
    (first last : Int) (known : bounds s = some (first, last)) :
    s.timesOn = Schedule.steps first last s.step := by
  have own : s.timesOn = s.repeatTimes := by
    unfold Schedule.timesOn
    rcases unit with unit | unit
    · rw [unit]
    · rw [unit]
  rw [own]
  unfold Schedule.repeatTimes
  unfold bounds at known
  split at known
  · next windowed =>
      rw [if_pos windowed]
      rcases readFirst : hhmmMinutes s.windowStart with _ | a
      · simp only [readFirst] at known
        cases known
      · rcases readLast : hhmmMinutes s.windowEnd with _ | b
        · simp only [readFirst, readLast] at known
          cases known
        · simp only [readFirst, readLast] at known
          cases known
          rfl
  · next open_ =>
      cases known
      rw [if_neg open_]

theorem minuteAt_zero (first step : Int) (low : 0 ≤ first) (high : first < 1440) :
    minuteAt first step 0 = first := by
  have nothing : ((0 : Nat) : Int) * step = 0 := Int.zero_mul step
  rw [minuteAt_same first step 0 (by omega) (by omega), nothing, Int.add_zero]

theorem timesOn64_iff (s : Schedule) (unit : s.unit = .minutes ∨ s.unit = .hours)
    (int : s.every < 2 ^ 63) (first last : Int) (known : bounds s = some (first, last))
    (low : 0 ≤ first) (high : first < 1440) (minutes : List Int) :
    (∃ fuel, timesOn64 s fuel = some minutes) ↔
      ∃ k, last < minuteAt first s.step (0 + k) ∧
        (∀ j < k, minuteAt first s.step (0 + j) ≤ last) ∧
        minutes = (List.range k).map fun j => minuteAt first s.step (0 + j) := by
  rw [← minutesLoop_iff]
  simp only [timesOn64_repeat s unit first last known, step64_eq s unit int,
    minuteAt_zero first s.step low high]

/-- A loop that stays ordered gives what the schedule is due at. -/
theorem ordered_times (s : Schedule) (valid : validateSchedule s = none) (int : s.every < 2 ^ 63)
    (unit : s.unit = .minutes ∨ s.unit = .hours)
    (ordered : ∀ first last, bounds s = some (first, last) → StaysOrdered first last s.step) :
    ∃ fuel minutes, timesOn64 s fuel = some minutes ∧ Agrees s minutes := by
  obtain ⟨first, last, known, low, forward, high⟩ := bounds_range s valid unit
  have own := timesOn_bounds s unit first last known
  have loop := timesOn64_iff s unit int first last known low (by omega)
  have positive := step_positive s
  by_cases fits : first + s.step < 2 ^ 63
  · obtain ⟨fuel, ended⟩ := (loop s.timesOn).mpr (by
      rw [own]
      exact steps_minutes first last s.step positive low forward high fits)
    exact ⟨fuel, s.timesOn, ended, fun _ _ _ => rfl⟩
  · obtain ⟨k, past, within⟩ := (ordered first last known).resolve_left fits
    have zero := minuteAt_zero first s.step low (by omega)
    obtain ⟨k, rfl⟩ : ∃ rest, k = rest + 1 := by
      refine ⟨k - 1, ?_⟩
      by_contra none_
      obtain rfl : k = 0 := by omega
      change last < minuteAt first s.step 0 at past
      omega
    obtain ⟨fuel, ended⟩ := (loop _).mpr ⟨k + 1, by rwa [Nat.zero_add], fun j bound => by
      rw [Nat.zero_add]
      exact Int.le_trans (within j bound) forward, rfl⟩
    refine ⟨fuel, _, ended, fun offset after d => ?_⟩
    rw [own, steps_single first last s.step forward (by omega), minutes_cons, zero, List.map_cons,
      List.map_cons, List.map_nil, List.find?_cons, List.find?_cons]
    by_cases later : after < (fixedOffset offset).instant d first
    · rw [decide_eq_true later]
    · rw [decide_eq_false later]
      refine List.find?_eq_none.mpr fun t member => ?_
      obtain ⟨minute, inside, rfl⟩ := List.mem_map.mp member
      obtain ⟨j, bound, rfl⟩ := List.mem_map.mp inside
      have less : minuteAt first s.step (0 + 1 + j) ≤ first :=
        within (0 + 1 + j) (by have := List.mem_range.mp bound; omega)
      refine fun found => later ?_
      have ahead := of_decide_eq_true found
      simp only [fixedOffset] at ahead ⊢
      omega

/-! The search. -/

theorem horizon64_eq (s : Schedule) : horizon64 s = wrap64 s.horizon := by
  have same : ((max s.every 1).toNat : Int) = max s.every 1 := by omega
  have eight : (8 : Int) = wrap64 8 := (wrap64_same 8 (by omega) (by omega)).symm
  unfold horizon64 Schedule.horizon
  cases s.unit with
  | minutes => exact eight
  | hours => exact eight
  | unknown => exact eight
  | _ =>
      dsimp only
      congr 1
      omega

theorem horizon64_range (s : Schedule) : horizon64 s < 2 ^ 63 := by
  unfold horizon64
  dsimp only
  split
  · exact (wrap64_range _).2
  · exact (wrap64_range _).2
  · exact (wrap64_range _).2
  · exact (wrap64_range _).2
  · decide

theorem steps_pairwise (first last step : Int) (positive : 0 < step) :
    (Schedule.steps first last step).Pairwise (· < ·) := by
  unfold Schedule.steps
  split
  · exact List.Pairwise.nil
  · rw [List.pairwise_map]
    refine List.pairwise_lt_range.imp fun {i j} less => ?_
    have product : (i : Int) * step < j * step :=
      Int.mul_lt_mul_of_pos_right (by omega) positive
    omega

theorem timesOn_pairwise (s : Schedule) : s.timesOn.Pairwise (· < ·) := by
  have repeats : s.repeatTimes.Pairwise (· < ·) := by
    unfold Schedule.repeatTimes
    split
    · split
      · exact steps_pairwise _ _ _ (step_positive s)
      · exact List.Pairwise.nil
    · exact steps_pairwise _ _ _ (step_positive s)
  have once : (hhmmMinutes s.at_).toList.Pairwise (· < ·) := by
    cases hhmmMinutes s.at_ with
    | none => exact List.Pairwise.nil
    | some minute => exact List.pairwise_singleton _ _
  unfold Schedule.timesOn
  split
  · exact repeats
  · exact repeats
  · exact once

theorem find_least {l : List Int} (sorted : l.Pairwise (· < ·)) (p : Int → Bool) (t : Int)
    (found : l.find? p = some t) (other : Int) (member : other ∈ l) (passes : p other = true) :
    t ≤ other := by
  obtain ⟨-, front, back, rfl, before⟩ := List.find?_eq_some_iff_append.mp found
  rcases List.mem_append.mp member with early | late
  · have := before other early
    rw [passes] at this
    cases this
  · rcases List.mem_cons.mp late with rfl | late
    · exact Int.le_refl _
    · have tail := (List.pairwise_append.mp sorted).2.1
      exact Int.le_of_lt ((List.pairwise_cons.mp tail).1 other late)

section

variable (s : Schedule) (offset : Int) {minutes : List Int} {turns : Nat}

theorem searchDays_succ (ended : timesOn64 s turns = some minutes) (agrees : Agrees s minutes)
    (after day i : Int) (fuel : Nat) :
    searchDays s offset after day turns i (fuel + 1) =
      if i ≤ horizon64 s then
        match s.timeOn (fixedOffset offset) after (day + i) with
        | some t => some (some t)
        | none => searchDays s offset after day turns (wrap64 (i + 1)) fuel
      else some none := by
  rw [searchDays]
  unfold Schedule.timeOn
  by_cases runs : s.runsOn (day + i) = true
  · simp only [if_pos runs, ended, agrees offset after (day + i)]
  · simp only [if_neg runs]

theorem searchDays_found (ended : timesOn64 s turns = some minutes) (agrees : Agrees s minutes)
    (after day t : Int) (g : Nat) (reach : (g : Int) ≤ horizon64 s)
    (found : s.timeOn (fixedOffset offset) after (day + g) = some t)
    (before : ∀ j : Nat, j < g → s.timeOn (fixedOffset offset) after (day + j) = none)
    (i : Nat) (start : i ≤ g) (fuel : Nat) (enough : g < i + fuel) :
    searchDays s offset after day turns i fuel = some (some t) := by
  induction fuel generalizing i with
  | zero => omega
  | succ fuel ih =>
      rw [searchDays_succ s offset ended agrees, if_pos (by omega)]
      by_cases here : i = g
      · rw [here, found]
      · rw [before i (by omega)]
        have range := horizon64_range s
        dsimp only
        rw [wrap64_same _ (by omega) (by omega)]
        exact ih (i + 1) (by omega) (by omega)

theorem searchDays_none (ended : timesOn64 s turns = some minutes) (agrees : Agrees s minutes)
    (after day : Int) (short : horizon64 s < 2 ^ 63 - 1)
    (nothing : ∀ j : Nat, s.timeOn (fixedOffset offset) after (day + j) = none)
    (i fuel : Nat) (some_ : 0 < fuel) (enough : horizon64 s + 1 < i + fuel) :
    searchDays s offset after day turns i fuel = some none := by
  induction fuel generalizing i with
  | zero => omega
  | succ fuel ih =>
      rw [searchDays_succ s offset ended agrees]
      split
      · rw [nothing i]
        dsimp only
        rw [wrap64_same _ (by omega) (by omega)]
        exact ih (i + 1) (by omega) (by omega)
      · rfl

theorem timeOn_sound (after d t : Int) (found : s.timeOn (fixedOffset offset) after d = some t) :
    s.runsOn d = true ∧ after < t ∧
      ∃ minute ∈ s.timesOn, t = (fixedOffset offset).instant d minute := by
  unfold Schedule.timeOn at found
  split at found
  · next runs =>
      obtain ⟨minute, member, same⟩ := List.mem_map.mp (List.mem_of_find?_eq_some found)
      have later := List.find?_some found
      exact ⟨runs, of_decide_eq_true later, minute, member, same.symm⟩
  · cases found

theorem timeOn_least (after d minute : Int) (runs : s.runsOn d = true)
    (member : minute ∈ s.timesOn) (later : after < (fixedOffset offset).instant d minute) :
    ∃ t, s.timeOn (fixedOffset offset) after d = some t ∧
      t ≤ (fixedOffset offset).instant d minute := by
  unfold Schedule.timeOn
  rw [if_pos runs]
  have inside : (fixedOffset offset).instant d minute ∈
      s.timesOn.map ((fixedOffset offset).instant d) := List.mem_map_of_mem member
  have sorted : (s.timesOn.map ((fixedOffset offset).instant d)).Pairwise (· < ·) := by
    rw [List.pairwise_map]
    refine (timesOn_pairwise s).imp fun {a b} less => ?_
    simp only [fixedOffset]
    omega
  cases found : (s.timesOn.map ((fixedOffset offset).instant d)).find? (after < ·) with
  | none => exact absurd (decide_eq_true later) (List.find?_eq_none.mp found _ inside)
  | some t => exact ⟨t, rfl, find_least sorted _ t found _ inside (decide_eq_true later)⟩

/-- Where the search finds a day within its horizon it finds the earliest time,
and where there is none it ends. -/
theorem next_right (after : Int) (ended : timesOn64 s turns = some minutes)
    (agrees : Agrees s minutes) (range : ∀ minute ∈ s.timesOn, 0 ≤ minute ∧ minute < 1440)
    (reach : (∃ g : Nat, (g : Int) ≤ horizon64 s ∧ ∃ t, s.timeOn (fixedOffset offset) after
      (max ((fixedOffset offset).dayOf after) s.anchor + g) = some t) ∨
      horizon64 s ≠ 2 ^ 63 - 1 ∧ ∀ t, Due s offset t → t ≤ after) :
    NextRight s offset after := by
  classical
  have day : ∀ d minute, 0 ≤ minute → minute < 1440 →
      after < (fixedOffset offset).instant d minute → (fixedOffset offset).dayOf after ≤ d := by
    intro d minute low high later
    simp only [fixedOffset] at later ⊢
    omega
  unfold NextRight next
  generalize start : max ((fixedOffset offset).dayOf after) s.anchor = first at reach ⊢
  rcases reach with near | ⟨short, nothing⟩
  · obtain ⟨⟨within, t, found⟩, least⟩ := Nat.find_spec near, fun j => @Nat.find_min _ _ near j
    generalize Nat.find near = g at within found least
    have before (j : Nat) (early : j < g) :
        s.timeOn (fixedOffset offset) after (first + j) = none := by
      by_contra some_
      obtain ⟨t', other⟩ := Option.ne_none_iff_exists'.mp some_
      exact least j early ⟨by omega, t', other⟩
    have more := timesOn64_mono s (Nat.le_max_left turns (g + 1)) minutes ended
    refine ⟨max turns (g + 1), some t, searchDays_found s offset more agrees after first t g within
      found before 0 (Nat.zero_le g) _ (by omega), ?_⟩
    obtain ⟨runs, later, minute, member, same⟩ := timeOn_sound s offset after _ t found
    refine ⟨⟨_, minute, by omega, runs, member, same⟩, later, ?_⟩
    rintro _ ⟨d, other, anchored, runs', member', rfl⟩ ahead
    have own := range minute member
    obtain ⟨low, high⟩ := range other member'
    have reached := day d other low high ahead
    obtain ⟨t', there, bound⟩ := timeOn_least s offset after d other runs' member' ahead
    obtain ⟨j, rfl⟩ : ∃ j : Nat, d = first + j := ⟨(d - first).toNat, by omega⟩
    rcases Nat.lt_trichotomy j g with early | here | late
    · rw [before j early] at there
      cases there
    · subst here
      rw [found] at there
      cases there
      exact bound
    · simp only [same, fixedOffset]
      omega
  · have nowhere (j : Nat) : s.timeOn (fixedOffset offset) after (first + j) = none := by
      by_contra some_
      obtain ⟨t, found⟩ := Option.ne_none_iff_exists'.mp some_
      obtain ⟨runs, later, minute, member, same⟩ := timeOn_sound s offset after _ t found
      have := nothing t ⟨_, minute, by omega, runs, member, same⟩
      omega
    have range64 := horizon64_range s
    have more := timesOn64_mono s (Nat.le_max_left turns ((horizon64 s + 1).toNat + 1)) minutes ended
    exact ⟨_, none, searchDays_none s offset more agrees after first (by omega) nowhere 0 _
      (by omega) (by omega), nothing⟩

end

/-! How far apart the days are that a schedule is due on. -/

theorem validSchedule_days (s : Schedule) (valid : validateSchedule s = none) :
    s.unit ≠ .unknown ∧ (∀ day ∈ s.weekdays, weekdayKnown day = true) ∧
      (¬(s.unit = .minutes ∨ s.unit = .hours) →
        (hhmmMinutes s.at_).isSome = true ∧ validateDay s = none) := by
  unfold validateSchedule at valid
  split at valid
  · cases valid
  · next known =>
      split at valid
      · cases valid
      · split at valid
        · cases valid
        · split at valid
          · cases valid
          · next all =>
              rw [List.find?_eq_none] at all
              split at valid
              · cases valid
              · refine ⟨known, fun day member => by simpa using all day member, fun other => ?_⟩
                rw [not_or] at other
                split at valid
                · next unit => exact absurd unit other.1
                · next unit => exact absurd unit other.2
                · split at valid
                  · cases valid
                  · next read =>
                      refine ⟨?_, valid⟩
                      cases found : hhmmMinutes s.at_ with
                      | none => exact absurd (by rw [found]; rfl) read
                      | some _ => rfl

theorem weekday_weeks (d n : Int) : weekday (d + 7 * n) = weekday d := by
  unfold weekday
  congr 1
  omega

theorem listed_weeks (d n : Int) (days : List String) (emptyIsAll : Bool) :
    weekdayListed (d + 7 * n) days emptyIsAll = weekdayListed d days emptyIsAll := by
  unfold weekdayListed dayAllowed abbrevOf
  rw [weekday_weeks]

/-- Of seven days one is listed. -/
theorem listed_near (days : List String) (known : ∀ day ∈ days, weekdayKnown day = true)
    (emptyIsAll : Bool) (some_ : days = [] → emptyIsAll = true) (x : Int) :
    ∃ d, x ≤ d ∧ d < x + 7 ∧ weekdayListed d days emptyIsAll = true := by
  cases days with
  | nil => exact ⟨x, by omega, by omega, some_ rfl⟩
  | cons day rest =>
      obtain ⟨name, member, same⟩ := List.any_eq_true.mp (known day List.mem_cons_self)
      obtain ⟨w, bound, rfl⟩ := List.mem_iff_getElem.mp member
      obtain ⟨d, low, high, here⟩ := weekday_from x w bound
      refine ⟨d, low, high, ?_⟩
      have folded : equalFold day (abbrevOf d) = true := by
        unfold equalFold at same ⊢
        rw [decide_eq_true_eq] at same ⊢
        rw [abbrevOf, here, List.getD_eq_getElem?_getD, List.getElem?_eq_getElem bound,
          Option.getD_some, same]
      unfold weekdayListed dayAllowed
      rw [if_neg (by simp), List.isEmpty_cons, Bool.false_or, List.any_cons, folded, Bool.true_or]

theorem in_month {d month : Int} (low : monthStart month ≤ d) (high : d < monthStart (month + 1)) :
    monthOf d = month ∧ (civilFromDays d).day = d - monthStart month + 1 := by
  obtain ⟨lowOwn, highOwn, day, -⟩ := civil_month d
  have same := month_unique lowOwn highOwn low high
  rw [same] at day
  exact ⟨same, day⟩

/-- The first multiple past a day. -/
theorem next_multiple (base x every : Int) (positive : 0 < every) :
    ∃ k, x < base + every * k ∧ base + every * k ≤ x + every := by
  refine ⟨(x - base) / every + 1, ?_, ?_⟩
  · have less := Int.lt_mul_ediv_self_add (x := x - base) positive
    rw [Int.mul_add]
    omega
  · have most := Int.mul_ediv_self_le (x := x - base) (k := every) (by omega)
    rw [Int.mul_add]
    omega

section

variable (s : Schedule)

/-- The day of a month of that length a months schedule is for. -/
def dayOfMonth (day last : Int) (name : String) : Bool :=
  match s.monthMode with
  | .day => day = min s.monthDay last
  | .last => day = last
  | .nth =>
      name = s.nthWeekday && if s.nth = -1 then day + 7 > last else (day - 1) / 7 + 1 = s.nth
  | .unknown => false

theorem runsOn_months (unit : s.unit = .months) (d month : Int) (low : monthStart month ≤ d)
    (high : d < monthStart (month + 1)) : s.runsOn d =
      ((month - monthOf s.anchor) % max s.every 1 = 0 && dayOfMonth s (d - monthStart month + 1)
        (monthStart (month + 1) - monthStart month) (abbrevOf d)) := by
  have months : ((civilFromDays d).year - (civilFromDays s.anchor).year) * 12 +
      (civilFromDays d).month - (civilFromDays s.anchor).month = monthOf d - monthOf s.anchor := by
    unfold monthOf
    dsimp only
    omega
  obtain ⟨here, day⟩ := in_month low high
  unfold Schedule.runsOn Schedule.onDay
  simp only [unit, months, daysIn_eq, here, day]
  unfold dayOfMonth
  cases s.monthMode <;> rfl

theorem runsOn_years (unit : s.unit = .years) (d year month : Int) (first : 1 ≤ month)
    (last : month ≤ 12) (low : monthStart (12 * year + month - 3) ≤ d)
    (high : d < monthStart (12 * year + month - 3 + 1)) : s.runsOn d =
      ((year - (civilFromDays s.anchor).year) % max s.every 1 = 0 && month = s.yearMonth &&
        d - monthStart (12 * year + month - 3) + 1 = min s.yearDay
          (monthStart (12 * year + month - 3 + 1) - monthStart (12 * year + month - 3))) := by
  obtain ⟨here, day⟩ := in_month low high
  obtain ⟨-, -, -, least, most⟩ := civil_month d
  have parts : (civilFromDays d).year = year ∧ (civilFromDays d).month = month := by
    unfold monthOf at here
    dsimp only at here
    omega
  have length := daysIn_eq d
  rw [parts.1, parts.2, here] at length
  unfold Schedule.runsOn Schedule.onDay
  simp only [unit, parts.1, parts.2, length, day]

/-- Every month has a day a valid months schedule is for, if its weekday is one. -/
theorem month_day (valid : validateDay s = none) (unit : s.unit = .months)
    (named : s.monthMode = .nth → ∃ d, abbrevOf d = s.nthWeekday) (month : Int) :
    ∃ d, monthStart month ≤ d ∧ d < monthStart (month + 1) ∧
      dayOfMonth s (d - monthStart month + 1) (monthStart (month + 1) - monthStart month)
        (abbrevOf d) = true := by
  have length := monthStart_step month
  rw [validateDay, unit] at valid
  unfold dayOfMonth
  cases mode : s.monthMode with
  | day =>
      simp only [mode] at valid
      split at valid
      · cases valid
      · next inside =>
          simp only [Bool.or_eq_true, decide_eq_true_eq, not_or] at inside
          refine ⟨monthStart month + min s.monthDay (monthStart (month + 1) - monthStart month) - 1,
            by omega, by omega, decide_eq_true ?_⟩
          omega
  | last => exact ⟨monthStart (month + 1) - 1, by omega, by omega, decide_eq_true (by omega)⟩
  | nth =>
      simp only [mode] at valid
      obtain ⟨sample, name⟩ := named mode
      split at valid
      · cases valid
      · next inside =>
          simp only [Bool.and_eq_true, Bool.or_eq_true, decide_eq_true_eq] at inside
          -- the first day the nth can be: the last week's, or its own week's
          obtain ⟨d, low, high, same⟩ := weekday_from (if s.nth = -1 then monthStart (month + 1) - 7
            else monthStart month + 7 * (s.nth - 1)) (weekday sample) (weekday_lt sample)
          have abbrev_ : abbrevOf d = s.nthWeekday := by
            rw [← name, abbrevOf, abbrevOf, same]
          by_cases final : s.nth = -1
          · rw [if_pos final] at low high
            refine ⟨d, by omega, by omega, ?_⟩
            simp only [abbrev_, final, if_true, decide_true, Bool.true_and, decide_eq_true_eq]
            omega
          · rw [if_neg final] at low high
            refine ⟨d, by omega, by omega, ?_⟩
            simp only [abbrev_, final, if_false, decide_true, Bool.true_and, decide_eq_true_eq]
            omega
  | unknown =>
      simp only [mode] at valid
      cases valid

/-- The schedule is due on some day within its horizon after any. -/
def Dense : Prop := ∀ x, s.anchor - 1 ≤ x → ∃ d, x < d ∧ d ≤ x + s.horizon ∧ s.runsOn d = true

theorem dense_repeats (unit : s.unit = .minutes ∨ s.unit = .hours)
    (known : ∀ day ∈ s.weekdays, weekdayKnown day = true) : Dense s := by
  intro x _
  obtain ⟨d, low, high, listed⟩ := listed_near s.weekdays known true (fun _ => rfl) (x + 1)
  have eight : s.horizon = 8 := by
    unfold Schedule.horizon
    rcases unit with unit | unit
    · rw [unit]
    · rw [unit]
  refine ⟨d, by omega, by omega, ?_⟩
  unfold Schedule.runsOn Schedule.onDay
  rcases unit with unit | unit
  · rw [unit]
    exact listed
  · rw [unit]
    exact listed

theorem dense_days (unit : s.unit = .days) (every : 1 ≤ s.every) (near : WeekdaysNear s) :
    Dense s := by
  intro x anchored
  have wide : (s.horizon : Int) = s.every + 8 := by
    simp only [Schedule.horizon, unit]
    omega
  obtain ⟨k, past, reach⟩ := next_multiple s.anchor x s.every (by omega)
  have nonneg : 0 ≤ k := by
    by_contra negative
    have : s.every * k ≤ s.every * (-1) := Int.mul_le_mul_of_nonneg_left (by omega) (by omega)
    omega
  obtain ⟨k, rfl⟩ : ∃ count : Nat, k = count := ⟨k.toNat, by omega⟩
  obtain ⟨i, close, listed⟩ := near k
  have product : ((k : Int) + i) * s.every = s.every * k + i * s.every := by
    rw [Int.add_mul, Int.mul_comm (k : Int)]
  have ahead : 0 ≤ (i : Int) * s.every := Int.mul_nonneg (by omega) (by omega)
  refine ⟨s.anchor + (k + i) * s.every, by omega, by omega, ?_⟩
  unfold Schedule.runsOn Schedule.onDay
  have rhythm : (s.anchor + ((k : Int) + i) * s.every - s.anchor) % max s.every 1 = 0 := by
    rw [show max s.every 1 = s.every by omega, show s.anchor + ((k : Int) + i) * s.every - s.anchor =
      ((k : Int) + i) * s.every by omega]
    exact Int.mul_emod_left _ _
  rw [unit]
  simp only [rhythm, listed, decide_true, Bool.true_and]

theorem dense_weeks (unit : s.unit = .weeks) (every : 1 ≤ s.every)
    (known : ∀ day ∈ s.weekdays, weekdayKnown day = true) (picked : s.weekdays ≠ []) :
    Dense s := by
  intro x anchored
  have wide : (s.horizon : Int) = 7 * s.every + 8 := by
    simp only [Schedule.horizon, unit]
    omega
  obtain ⟨k, past, reach⟩ := next_multiple (mondayOf s.anchor) x (7 * s.every) (by omega)
  obtain ⟨d, low, high, listed⟩ := listed_near s.weekdays known false
    (fun none_ => absurd none_ picked) (mondayOf s.anchor + 7 * s.every * k)
  have start : ∃ weeks, mondayOf s.anchor = 7 * weeks - 3 :=
    ⟨(mondayOf s.anchor + 3) / 7, by unfold mondayOf weekday; omega⟩
  have monday : mondayOf d = mondayOf s.anchor + 7 * s.every * k := by
    obtain ⟨weeks, start⟩ := start
    have own : mondayOf d = d - ((weekday d + 6) % 7 : Nat) := rfl
    unfold weekday at own
    rw [Int.mul_assoc] at low high ⊢
    omega
  refine ⟨d, by omega, by omega, ?_⟩
  unfold Schedule.runsOn Schedule.onDay
  have rhythm : (mondayOf d - mondayOf s.anchor) / 7 % max s.every 1 = 0 := by
    rw [show max s.every 1 = s.every by omega, monday, Int.mul_assoc,
      show (mondayOf s.anchor + 7 * (s.every * k) - mondayOf s.anchor) / 7 = s.every * k by omega]
    exact Int.mul_emod_right _ _
  have some_ : s.weekdays.isEmpty = false := by
    cases days : s.weekdays with
    | nil => exact absurd days picked
    | cons _ _ => rfl
  rw [unit]
  simp only [some_, rhythm, listed, decide_true, Bool.and_self, Bool.false_eq_true, if_false]

theorem dense_months (unit : s.unit = .months) (every : 1 ≤ s.every)
    (valid : validateDay s = none)
    (named : s.monthMode = .nth → ∃ d, abbrevOf d = s.nthWeekday) : Dense s := by
  intro x anchored
  have wide : (s.horizon : Int) = 31 * s.every + 62 := by
    simp only [Schedule.horizon, unit]
    omega
  obtain ⟨lowX, highX, -⟩ := civil_month x
  obtain ⟨k, past, reach⟩ := next_multiple (monthOf s.anchor) (monthOf x) s.every (by omega)
  obtain ⟨d, low, high, fits⟩ := month_day s valid unit named (monthOf s.anchor + s.every * k)
  have behind := monthStart_mono (show monthOf x + 1 ≤ monthOf s.anchor + s.every * k by omega)
  have ahead := monthStart_mono (show monthOf s.anchor + s.every * k + 1 ≤
    monthOf x + ((s.every.toNat + 1 : Nat) : Int) by omega)
  have far := (monthStart_add (monthOf x) (s.every.toNat + 1)).2
  refine ⟨d, by omega, by omega, ?_⟩
  rw [runsOn_months s unit d _ low high, fits, Bool.and_true, decide_eq_true_eq,
    show max s.every 1 = s.every by omega,
    show monthOf s.anchor + s.every * k - monthOf s.anchor = s.every * k by omega]
  exact Int.mul_emod_right _ _

theorem dense_years (unit : s.unit = .years) (every : 1 ≤ s.every)
    (valid : validateDay s = none) : Dense s := by
  intro x anchored
  have wide : (s.horizon : Int) = 366 * s.every + 366 * 4 := by
    simp only [Schedule.horizon, unit]
    omega
  have inside : (1 ≤ s.yearMonth ∧ s.yearMonth ≤ 12) ∧ 1 ≤ s.yearDay := by
    rw [validateDay, unit] at valid
    dsimp only at valid
    split at valid
    · cases valid
    · next month =>
        split at valid
        · cases valid
        · next day =>
            simp only [Bool.or_eq_true, decide_eq_true_eq, not_or] at month day
            omega
  obtain ⟨lowX, highX, -, leastX, mostX⟩ := civil_month x
  obtain ⟨k, past, reach⟩ := next_multiple (civilFromDays s.anchor).year (civilFromDays x).year
    s.every (by omega)
  obtain ⟨year, target⟩ : ∃ year, year = (civilFromDays s.anchor).year + s.every * k := ⟨_, rfl⟩
  rw [← target] at past reach
  have month : monthOf x = 12 * (civilFromDays x).year + (civilFromDays x).month - 3 := rfl
  have length := monthStart_step (12 * year + s.yearMonth - 3)
  have behind := monthStart_mono (show monthOf x + 1 ≤ 12 * year + s.yearMonth - 3 by omega)
  have ahead := monthStart_mono (show 12 * year + s.yearMonth - 3 + 1 ≤
    monthOf x + 12 * ((s.every.toNat + 1 : Nat) : Int) by omega)
  have far := (monthStart_years (monthOf x) (s.every.toNat + 1)).2
  refine ⟨monthStart (12 * year + s.yearMonth - 3) + min s.yearDay
    (monthStart (12 * year + s.yearMonth - 3 + 1) - monthStart (12 * year + s.yearMonth - 3)) - 1,
    by omega, by omega, ?_⟩
  rw [runsOn_years s unit _ year s.yearMonth inside.1.1 inside.1.2 (by omega) (by omega),
    Bool.and_eq_true, Bool.and_eq_true, decide_eq_true_eq, decide_eq_true_eq, decide_eq_true_eq]
  refine ⟨⟨?_, rfl⟩, by omega⟩
  rw [show max s.every 1 = s.every by omega, show year - (civilFromDays s.anchor).year =
    s.every * k by omega]
  exact Int.mul_emod_right _ _

/-- A schedule that passes is dense, but for the weekdays of a days schedule, if
it is due at all. -/
theorem dense_of_valid (valid : validateSchedule s = none) (due : ¬NeverDue s)
    (near : s.unit = .days → WeekdaysNear s) : Dense s := by
  obtain ⟨every, -⟩ := validSchedule_parts s valid
  obtain ⟨known, listed, other⟩ := validSchedule_days s valid
  cases unit : s.unit with
  | minutes => exact dense_repeats s (Or.inl unit) listed
  | hours => exact dense_repeats s (Or.inr unit) listed
  | days => exact dense_days s unit every (near unit)
  | weeks =>
      refine dense_weeks s unit every listed fun none_ => ?_
      have passed := (other (by rw [unit]; decide)).2
      rw [validateDay, unit] at passed
      simp only [none_, if_true] at passed
      cases passed
  | months =>
      refine dense_months s unit every (other (by rw [unit]; decide)).2 fun mode => ?_
      unfold NeverDue at due
      push Not at due
      obtain ⟨d, -, runs⟩ := due
      obtain ⟨low, high, -⟩ := civil_month d
      rw [runsOn_months s unit d _ low high] at runs
      simp only [dayOfMonth, mode] at runs
      refine ⟨d, ?_⟩
      by_contra other_
      simp [other_] at runs
  | years => exact dense_years s unit every (other (by rw [unit]; decide)).2
  | unknown => exact absurd unit known

/-! What the search finds, the other way round. -/

/-- Where the search is right at the end of a day and the schedule runs again,
it does within its horizon. -/
theorem next_near (offset x : Int) (anchored : s.anchor ≤ x)
    (once : ¬(s.unit = .minutes ∨ s.unit = .hours))
    (right : NextRight s offset ((fixedOffset offset).instant x 1439))
    (timed : (hhmmMinutes s.at_).isSome = true) (again : ∃ d, x < d ∧ s.runsOn d = true) :
    ∃ d, x < d ∧ d ≤ x + horizon64 s ∧ s.runsOn d = true := by
  obtain ⟨minute, read⟩ := Option.isSome_iff_exists.mp timed
  have range := hhmm_range _ _ read
  have times : s.timesOn = [minute] := by
    rw [not_or] at once
    unfold Schedule.timesOn
    split
    · next unit => exact absurd unit once.1
    · next unit => exact absurd unit once.2
    · rw [read]
      rfl
  have day : max ((fixedOffset offset).dayOf ((fixedOffset offset).instant x 1439)) s.anchor = x := by
    simp only [fixedOffset]
    omega
  obtain ⟨fuel, result, found, earliest⟩ := right
  rw [next, day] at found
  have each (i : Int) (more : Nat) (t : Int)
      (found : searchDays s offset ((fixedOffset offset).instant x 1439) x fuel i more =
        some (some t)) : ∃ d, x < d ∧ d ≤ x + horizon64 s ∧ s.runsOn d = true := by
    induction more generalizing i with
    | zero => cases found
    | succ more ih =>
        rw [searchDays, timesOn64_once s once, read] at found
        split at found
        · next inside =>
            split at found
            · next runs =>
                dsimp only at found
                split at found
                · next t' first =>
                    have later := List.find?_some first
                    have member := List.mem_of_find?_eq_some first
                    simp only [Option.toList_some, List.map_cons, List.map_nil,
                      List.mem_singleton] at member
                    subst member
                    have ahead := of_decide_eq_true later
                    simp only [fixedOffset] at ahead
                    exact ⟨x + i, by omega, by omega, runs⟩
                · exact ih _ found
            · exact ih _ found
        · cases found
  cases result with
  | some t => exact each 0 fuel t found
  | none =>
      obtain ⟨d, late, runs⟩ := again
      have bound := earliest _ ⟨d, minute, by omega, runs, by rw [times]; exact List.mem_cons_self, rfl⟩
      simp only [fixedOffset] at bound
      omega

theorem multiple_least {every q : Int} (zero : q % every = 0) (positive : 0 < q) : every ≤ q :=
  Int.le_of_dvd positive (Int.dvd_of_emod_eq_zero zero)

theorem runsOn_days (unit : s.unit = .days) (every : 1 ≤ s.every) (d : Int) :
    s.runsOn d = true ↔ (d - s.anchor) % s.every = 0 ∧ weekdayListed d s.weekdays true = true := by
  unfold Schedule.runsOn Schedule.onDay
  rw [unit]
  dsimp only
  rw [Bool.and_eq_true, decide_eq_true_eq, show max s.every 1 = s.every by omega]

theorem days_near (unit : s.unit = .days) (every : 1 ≤ s.every) (int : s.every < 2 ^ 63)
    (due : ¬NeverDue s) (timed : (hhmmMinutes s.at_).isSome = true) (offset : Int)
    (right : ∀ after, NextRight s offset after) :
    (s.horizon : Int) < 2 ^ 63 ∧ WeekdaysNear s := by
  have once : ¬(s.unit = .minutes ∨ s.unit = .hours) := by
    rw [unit]
    decide
  have wide : (s.horizon : Int) = s.every + 8 := by
    simp only [Schedule.horizon, unit]
    omega
  unfold NeverDue at due
  push Not at due
  obtain ⟨d₀, -, runs₀⟩ := due
  rw [ne_eq, Bool.not_eq_false, runsOn_days s unit every] at runs₀
  -- the weekdays come round after seven steps
  have again (x : Int) : ∃ d, x < d ∧ s.runsOn d = true := by
    obtain ⟨k, past, -⟩ := next_multiple d₀ x (7 * s.every) (by omega)
    rw [Int.mul_assoc] at past
    refine ⟨_, past, (runsOn_days s unit every _).mpr ⟨?_, ?_⟩⟩
    · rw [show d₀ + 7 * (s.every * k) - s.anchor = d₀ - s.anchor + s.every * (7 * k) by
        rw [Int.mul_left_comm]
        omega, Int.add_mul_emod_self_left]
      exact runs₀.1
    · rw [listed_weeks]
      exact runs₀.2
  have near (x : Int) (anchored : s.anchor ≤ x) :=
    next_near s offset x anchored once (right _) timed (again x)
  have fits : s.every + 8 < 2 ^ 63 := by
    obtain ⟨d, late, close, -⟩ := near s.anchor (Int.le_refl _)
    rw [horizon64_eq, wide] at close
    unfold wrap64 at close
    omega
  have whole : horizon64 s = s.every + 8 := by
    rw [horizon64_eq, wide, wrap64_same _ (by omega) fits]
  have later (k : Nat) : ∃ i : Nat, i * s.every ≤ 8 ∧
      weekdayListed (s.anchor + (((k + 1 : Nat) : Int) + i) * s.every) s.weekdays true = true := by
    have ahead : 0 ≤ (k : Int) * s.every := Int.mul_nonneg (by omega) (by omega)
    obtain ⟨d, late, close, runs⟩ := near (s.anchor + k * s.every) (by omega)
    obtain ⟨rhythm, listed⟩ := (runsOn_days s unit every d).mp runs
    obtain ⟨n, same⟩ := Int.dvd_of_emod_eq_zero rhythm
    rw [Int.mul_comm] at same
    have beyond : (k : Int) < n := by
      by_contra behind
      have := Int.mul_le_mul_of_nonneg_right (Int.not_lt.mp behind) (show 0 ≤ s.every by omega)
      omega
    obtain ⟨i, rfl⟩ : ∃ i : Nat, n = ((k + 1 : Nat) : Int) + i := ⟨(n - k - 1).toNat, by omega⟩
    refine ⟨i, ?_, ?_⟩
    · rw [Int.add_mul, Int.natCast_add, Int.add_mul] at same
      omega
    · rw [← same, show s.anchor + (d - s.anchor) = d by omega]
      exact listed
  refine ⟨by omega, fun k => ?_⟩
  cases k with
  | succ k => exact later k
  | zero =>
      obtain ⟨i, close, listed⟩ := later 6
      refine ⟨i, close, ?_⟩
      rw [show s.anchor + (((6 + 1 : Nat) : Int) + i) * s.every =
        s.anchor + (((0 : Nat) : Int) + i) * s.every + 7 * s.every by
          rw [Int.add_mul, Int.add_mul]
          omega, listed_weeks] at listed
      exact listed

theorem weeks_near (unit : s.unit = .weeks) (every : 1 ≤ s.every) (int : s.every < 2 ^ 63)
    (dense : Dense s) (timed : (hhmmMinutes s.at_).isSome = true)
    (offset : Int) (right : ∀ after, NextRight s offset after) : (s.horizon : Int) < 2 ^ 63 := by
  have once : ¬(s.unit = .minutes ∨ s.unit = .hours) := by
    rw [unit]
    decide
  have wide : (s.horizon : Int) = 7 * s.every + 8 := by
    simp only [Schedule.horizon, unit]
    omega
  have monday : mondayOf s.anchor ≤ s.anchor ∧ s.anchor ≤ mondayOf s.anchor + 6 := by
    unfold mondayOf weekday
    omega
  obtain ⟨d, late, close, runs⟩ := next_near s offset (mondayOf s.anchor + 6) monday.2 once
    (right _) timed (by
      obtain ⟨d, late, -, runs⟩ := dense (mondayOf s.anchor + 6) (by omega)
      exact ⟨d, late, runs⟩)
  have rhythm : (mondayOf d - mondayOf s.anchor) / 7 % s.every = 0 := by
    unfold Schedule.runsOn Schedule.onDay at runs
    rw [unit] at runs
    dsimp only at runs
    rw [Bool.and_eq_true, decide_eq_true_eq, show max s.every 1 = s.every by omega] at runs
    exact runs.2
  have least := multiple_least rhythm (by
    unfold mondayOf weekday at late monday ⊢
    omega)
  have own : mondayOf d ≤ d := by
    unfold mondayOf
    omega
  rw [horizon64_eq, wide] at close
  unfold wrap64 at close
  omega

theorem months_near (unit : s.unit = .months) (every : 1 ≤ s.every) (int : s.every < 2 ^ 63)
    (dense : Dense s) (timed : (hhmmMinutes s.at_).isSome = true)
    (offset : Int) (right : ∀ after, NextRight s offset after) : (s.horizon : Int) < 2 ^ 63 := by
  have once : ¬(s.unit = .minutes ∨ s.unit = .hours) := by
    rw [unit]
    decide
  have wide : (s.horizon : Int) = 31 * s.every + 62 := by
    simp only [Schedule.horizon, unit]
    omega
  obtain ⟨low, high, -⟩ := civil_month s.anchor
  -- the last day of the first month
  obtain ⟨d, late, close, runs⟩ := next_near s offset (monthStart (monthOf s.anchor + 1) - 1)
    (by omega) once (right _) timed (by
      obtain ⟨d, late, -, runs⟩ := dense (monthStart (monthOf s.anchor + 1) - 1) (by omega)
      exact ⟨d, late, runs⟩)
  obtain ⟨lowD, highD, -⟩ := civil_month d
  rw [runsOn_months s unit d _ lowD highD, Bool.and_eq_true, decide_eq_true_eq,
    show max s.every 1 = s.every by omega] at runs
  have after : monthOf s.anchor < monthOf d := by
    by_contra before
    have := monthStart_mono (show monthOf d + 1 ≤ monthOf s.anchor + 1 by omega)
    omega
  have least := multiple_least runs.1 (by omega)
  have behind := monthStart_mono (show monthOf s.anchor + 1 + ((s.every.toNat - 1 : Nat) : Int) ≤
    monthOf d by omega)
  have far := (monthStart_add (monthOf s.anchor + 1) (s.every.toNat - 1)).1
  rw [horizon64_eq, wide] at close
  unfold wrap64 at close
  by_contra wrapped
  have turns : 1 ≤ (31 * s.every + 62 + 2 ^ 63) / 2 ^ 64 := by omega
  omega

theorem years_near (unit : s.unit = .years) (every : 1 ≤ s.every) (int : s.every < 2 ^ 63)
    (dense : Dense s) (timed : (hhmmMinutes s.at_).isSome = true)
    (offset : Int) (right : ∀ after, NextRight s offset after) : (s.horizon : Int) < 2 ^ 63 := by
  have once : ¬(s.unit = .minutes ∨ s.unit = .hours) := by
    rw [unit]
    decide
  have wide : (s.horizon : Int) = 366 * s.every + 366 * 4 := by
    simp only [Schedule.horizon, unit]
    omega
  obtain ⟨low, high, -, least, most⟩ := civil_month s.anchor
  have month : monthOf s.anchor = 12 * (civilFromDays s.anchor).year +
    (civilFromDays s.anchor).month - 3 := rfl
  have within := monthStart_mono (show monthOf s.anchor + 1 ≤
    12 * (civilFromDays s.anchor).year + 10 by omega)
  -- the last day of the first year
  obtain ⟨d, late, close, runs⟩ := next_near s offset
    (monthStart (12 * (civilFromDays s.anchor).year + 10) - 1)
    (by omega) once (right _) timed (by
      obtain ⟨d, late, -, runs⟩ := dense
        (monthStart (12 * (civilFromDays s.anchor).year + 10) - 1) (by omega)
      exact ⟨d, late, runs⟩)
  obtain ⟨lowD, highD, -, leastD, mostD⟩ := civil_month d
  have monthD : monthOf d = 12 * (civilFromDays d).year + (civilFromDays d).month - 3 := rfl
  rw [monthD] at lowD highD
  rw [runsOn_years s unit d _ _ leastD mostD lowD highD, Bool.and_eq_true, Bool.and_eq_true,
    decide_eq_true_eq, show max s.every 1 = s.every by omega] at runs
  have after : (civilFromDays s.anchor).year < (civilFromDays d).year := by
    by_contra before
    have := monthStart_mono (show 12 * (civilFromDays d).year + (civilFromDays d).month - 3 + 1 ≤
      12 * (civilFromDays s.anchor).year + 10 by omega)
    omega
  have years := multiple_least runs.1.1 (by omega)
  have behind := monthStart_mono (show 12 * (civilFromDays s.anchor).year + 10 +
    12 * ((s.every.toNat - 1 : Nat) : Int) ≤
      12 * (civilFromDays d).year + (civilFromDays d).month - 3 by omega)
  have far := (monthStart_years (12 * (civilFromDays s.anchor).year + 10) (s.every.toNat - 1)).1
  rw [horizon64_eq, wide] at close
  unfold wrap64 at close
  by_contra wrapped
  have turns : 1 ≤ (366 * s.every + 366 * 4 + 2 ^ 63) / 2 ^ 64 := by omega
  omega

/-- A loop that gives a minute after the first, too early for the next step,
returns it as a time the schedule is not due at. -/
theorem ordered_of_right (valid : validateSchedule s = none) (int : s.every < 2 ^ 63)
    (unit : s.unit = .minutes ∨ s.unit = .hours) (offset : Int)
    (right : ∀ after, NextRight s offset after) (first last : Int)
    (known : bounds s = some (first, last)) : StaysOrdered first last s.step := by
  obtain ⟨first', last', known', low, forward, high⟩ := bounds_range s valid unit
  obtain ⟨rfl, rfl⟩ := Prod.mk.inj (Option.some.inj (known.symm.trans known'))
  unfold StaysOrdered
  by_cases fits : first + s.step < 2 ^ 63
  · exact Or.inl fits
  · have own : s.timesOn = [first] := by
      rw [timesOn_bounds s unit first last known]
      exact steps_single first last s.step forward (by omega)
    obtain ⟨d, late, -, runs⟩ := dense_repeats s unit (validSchedule_days s valid).2.1
      (s.anchor - 1) (by omega)
    have day : max ((fixedOffset offset).dayOf ((fixedOffset offset).instant d first)) s.anchor =
        d := by
      simp only [fixedOffset]
      omega
    obtain ⟨fuel, result, found, earliest⟩ := right ((fixedOffset offset).instant d first)
    rw [next, day] at found
    cases fuel with
    | zero => cases found
    | succ fuel =>
        have eight : (0 : Int) ≤ horizon64 s := by
          have wide : s.horizon = 8 := by
            unfold Schedule.horizon
            rcases unit with unit | unit
            · rw [unit]
            · rw [unit]
          rw [horizon64_eq, wide]
          decide
        rw [searchDays, if_pos eight, Int.add_zero, if_pos runs] at found
        cases ended : timesOn64 s (fuel + 1) with
        | none =>
            rw [ended] at found
            cases found
        | some minutes =>
            obtain ⟨k, past, within, shape⟩ :=
              (timesOn64_iff s unit int first last known low (by omega) minutes).mp ⟨_, ended⟩
            refine Or.inr ⟨k, by rwa [Nat.zero_add] at past, fun j bound => ?_⟩
            by_contra above
            have member : minuteAt first s.step (0 + j) ∈ minutes := by
              rw [shape]
              exact List.mem_map_of_mem (List.mem_range.mpr bound)
            rw [Nat.zero_add] at member
            have later : (fixedOffset offset).instant d first <
                (fixedOffset offset).instant d (minuteAt first s.step j) := by
              have more : first < minuteAt first s.step j := Int.not_le.mp above
              simp only [fixedOffset]
              omega
            rw [ended] at found
            dsimp only at found
            split at found
            · next t first_ =>
                cases found
                obtain ⟨minute, inside, same⟩ := List.mem_map.mp (List.mem_of_find?_eq_some first_)
                have ahead := List.find?_some first_
                have ahead := of_decide_eq_true ahead
                obtain ⟨⟨d', minute', -, -, timed, same'⟩, -⟩ := earliest
                have most : minute ≤ last := by
                  rw [shape] at inside
                  obtain ⟨i, range, rfl⟩ := List.mem_map.mp inside
                  exact within i (List.mem_range.mp range)
                rw [own, List.mem_singleton] at timed
                subst timed
                rw [← same] at same' ahead
                simp only [fixedOffset] at same' ahead
                omega
            · next none_ =>
                exact absurd (decide_eq_true later)
                  (List.find?_eq_none.mp none_ _ (List.mem_map_of_mem member))

/-- A schedule that is never due runs on for ever with the largest int64 as its
horizon. -/
theorem endless (never : NeverDue s) (whole : horizon64 s = 2 ^ 63 - 1) (offset : Int) :
    ¬NextRight s offset ((fixedOffset offset).instant s.anchor 1439) := by
  have once : ¬(s.unit = .minutes ∨ s.unit = .hours) := by
    rintro (unit | unit)
    · simp only [horizon64, unit] at whole
      omega
    · simp only [horizon64, unit] at whole
      omega
  rintro ⟨fuel, result, found, -⟩
  have day : max ((fixedOffset offset).dayOf ((fixedOffset offset).instant s.anchor 1439))
      s.anchor = s.anchor := by
    simp only [fixedOffset]
    omega
  rw [next, day] at found
  have on (i : Int) (range : i < 2 ^ 63) (more : Nat) :
      searchDays s offset ((fixedOffset offset).instant s.anchor 1439) s.anchor fuel i more =
        none := by
    induction more generalizing i with
    | zero => rfl
    | succ more ih =>
        have onwards := ih (wrap64 (i + 1)) (wrap64_range (i + 1)).2
        rw [searchDays, if_pos (by omega), timesOn64_once s once]
        split
        · next runs =>
            have before : i < 0 := by
              by_contra ahead
              rw [never _ (by omega)] at runs
              cases runs
            have nothing : ((hhmmMinutes s.at_).toList.map ((fixedOffset offset).instant
                (s.anchor + i))).find? ((fixedOffset offset).instant s.anchor 1439 < ·) = none := by
              rw [List.find?_eq_none]
              intro t member
              obtain ⟨minute, inside, rfl⟩ := List.mem_map.mp member
              have range := hhmm_range _ _ (Option.mem_toList.mp inside)
              refine fun found => ?_
              have later := of_decide_eq_true found
              simp only [fixedOffset] at later
              omega
            simp only [nothing]
            exact onwards
        · exact onwards
  rw [on 0 (by omega)] at found
  cases found

theorem first_time (valid : validateSchedule s = none) : ∃ minute, minute ∈ s.timesOn := by
  by_cases unit : s.unit = .minutes ∨ s.unit = .hours
  · obtain ⟨first, last, known, -, forward, -⟩ := bounds_range s valid unit
    obtain ⟨rest, shape⟩ := steps_cons first last s.step forward
    exact ⟨first, by rw [timesOn_bounds s unit first last known, shape]; exact List.mem_cons_self⟩
  · obtain ⟨minute, read⟩ := Option.isSome_iff_exists.mp ((validSchedule_days s valid).2.2 unit).1
    rw [not_or] at unit
    refine ⟨minute, ?_⟩
    unfold Schedule.timesOn
    split
    · next other => exact absurd other unit.1
    · next other => exact absurd other unit.2
    · rw [read]
      exact List.mem_cons_self

theorem times_range (valid : validateSchedule s = none) (minute : Int)
    (member : minute ∈ s.timesOn) : 0 ≤ minute ∧ minute < 1440 := by
  refine timesOn_range s minute (fun unit _ => ?_) member
  exact (validWindow_parts s ((validSchedule_parts s valid).2.1 (Or.inr unit))).1

/-- With the days near enough the search comes to one. -/
theorem dense_reach (valid : validateSchedule s = none) (dense : Dense s)
    (fits : (s.horizon : Int) < 2 ^ 63) (offset after : Int) :
    ∃ g : Nat, (g : Int) ≤ horizon64 s ∧ ∃ t, s.timeOn (fixedOffset offset) after
      (max ((fixedOffset offset).dayOf after) s.anchor + g) = some t := by
  obtain ⟨d, late, close, runs⟩ := dense (max ((fixedOffset offset).dayOf after) (s.anchor - 1))
    (by omega)
  obtain ⟨minute, member⟩ := first_time s valid
  have range := times_range s valid minute member
  have ahead : after < (fixedOffset offset).instant d minute := by
    simp only [fixedOffset] at late ⊢
    omega
  obtain ⟨t, found, -⟩ := timeOn_least s offset after d minute runs member ahead
  have whole : horizon64 s = s.horizon := by
    rw [horizon64_eq, wrap64_same _ (by omega) fits]
  obtain ⟨g, rfl⟩ : ∃ g : Nat, d = max ((fixedOffset offset).dayOf after) s.anchor + g :=
    ⟨(d - max ((fixedOffset offset).dayOf after) s.anchor).toNat, by omega⟩
  exact ⟨g, by omega, t, found⟩

theorem never_not_dense (never : NeverDue s) : ¬Dense s := by
  intro dense
  obtain ⟨d, late, -, runs⟩ := dense (s.anchor - 1) (by omega)
  rw [never d (by omega)] at runs
  cases runs

/-- A search that reaches its days, if it had any, ends. -/
theorem never_short (valid : validateSchedule s = none) (never : NeverDue s)
    (reaches : Reaches s) : horizon64 s ≠ 2 ^ 63 - 1 := by
  obtain ⟨every, -⟩ := validSchedule_parts s valid
  obtain ⟨known, listed, other⟩ := validSchedule_days s valid
  obtain ⟨fits, rest⟩ := reaches
  rw [horizon64_eq, wrap64_same _ (by omega) fits]
  cases unit : s.unit with
  | months =>
      have wide : (s.horizon : Int) = 31 * s.every + 62 := by
        simp only [Schedule.horizon, unit]
        omega
      omega
  | minutes => exact absurd (dense_repeats s (Or.inl unit) listed) (never_not_dense s never)
  | hours => exact absurd (dense_repeats s (Or.inr unit) listed) (never_not_dense s never)
  | days =>
      rw [unit] at rest
      exact absurd (dense_days s unit every rest) (never_not_dense s never)
  | weeks =>
      have wide : (s.horizon : Int) = 7 * s.every + 8 := by
        simp only [Schedule.horizon, unit]
        omega
      omega
  | years =>
      have wide : (s.horizon : Int) = 366 * s.every + 366 * 4 := by
        simp only [Schedule.horizon, unit]
        omega
      omega
  | unknown => exact absurd unit known

end

/-- Every six days, on Mondays only. -/
def everySixDays : Schedule where
  enabled := true
  unit := .days
  every := 6
  at_ := "02:00"
  weekdays := ["Mon"]

/-- Every other day, on working days. -/
def workingDays : Schedule where
  enabled := true
  unit := .days
  every := 2
  at_ := "02:00"
  weekdays := ["Mon", "Tue", "Wed", "Thu", "Fri"]

theorem workingDays_near : WeekdaysNear workingDays := by
  have week : ∀ r < 7, ∃ i < 5, weekdayListed (monday2000 + ((r : Nat) + (i : Nat) : Int) * 2)
      workingDays.weekdays true = true := by decide +kernel
  intro k
  obtain ⟨i, close, listed⟩ := week (k % 7) (Nat.mod_lt k (by decide))
  refine ⟨i, ?_, ?_⟩
  · change (i : Int) * 2 ≤ 8
    omega
  · have start : workingDays.anchor = monday2000 := by decide
    rw [start]
    change weekdayListed (monday2000 + ((k : Int) + i) * 2) _ _ = true
    rw [show monday2000 + ((k : Int) + i) * 2 =
      monday2000 + (((k % 7 : Nat) : Int) + i) * 2 + 7 * (2 * (k / 7 : Nat)) by omega, listed_weeks]
    exact listed

end ProxmoxBackup.NextRun
