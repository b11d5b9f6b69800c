import Mathlib.Algebra.Group.Int.Defs
import ProxmoxBackup.LegacyTrigger

/-! The loops of Schedule.timesOn and Schedule.next (gui/schedules.go) with the
64-bit integers they run on. A loop has `fuel` turns and is `none` when it would
need more, so it ends exactly if some fuel is enough. -/

namespace ProxmoxBackup.ScheduleLoops

open CivilDate Schedules LegacyTrigger

/-- An int64. -/
def wrap64 (n : Int) : Int := (n + 2 ^ 63) % 2 ^ 64 - 2 ^ 63

theorem wrap64_range (n : Int) : -2 ^ 63 ≤ wrap64 n ∧ wrap64 n < 2 ^ 63 := by
  unfold wrap64
  omega

theorem wrap64_same (n : Int) (low : -2 ^ 63 ≤ n) (high : n < 2 ^ 63) : wrap64 n = n := by
  unfold wrap64
  omega

theorem wrap64_above (n : Int) (low : 2 ^ 63 ≤ n) (high : n < 2 ^ 63 + 2 ^ 64) :
    wrap64 n = n - 2 ^ 64 := by
  unfold wrap64
  omega

/-- The times of Go. A date far enough off is another date, and there is a last
instant of any. -/
structure Clock where
  dayOf : Int → Int
  date : Int → Int
  near : ∀ d, -2 ^ 46 ≤ d → d ≤ 2 ^ 46 → date d = d
  instant : Int → Int → Int
  last : Int
  bounded : ∀ d minute, 0 ≤ minute → minute < 1440 → instant (date d) minute ≤ last

/-- The step of a minutes or hours schedule. -/
def step64 (s : Schedule) : Int :=
  let step := max s.every 1
  if s.unit = .hours then wrap64 (step * 60) else step

/-- The first and the last minute, none when the window does not read. -/
def bounds (s : Schedule) : Option (Int × Int) :=
  if s.windowed then
    match hhmmMinutes s.windowStart, hhmmMinutes s.windowEnd with
    | some a, some b => some (a, max a b)
    | _, _ => none
  else some (if s.unit = .minutes then 0 else s.minute, 24 * 60 - 1)

def minutesLoop (step last : Int) : Int → Nat → Option (List Int)
  | _, 0 => none
  | m, fuel + 1 =>
      if m ≤ last then (minutesLoop step last (wrap64 (m + step)) fuel).map (m :: ·) else some []

def timesOn64 (s : Schedule) (fuel : Nat) : Option (List Int) :=
  match s.unit with
  | .minutes | .hours =>
      match bounds s with
      | some (first, last) => minutesLoop (step64 s) last first fuel
      | none => some []
  | _ => some (hhmmMinutes s.at_).toList

def horizon64 (s : Schedule) : Int :=
  let every := max s.every 1
  match s.unit with
  | .days => wrap64 (every + 8)
  | .weeks => wrap64 (7 * every + 8)
  | .months => wrap64 (31 * every + 62)
  | .years => wrap64 (366 * every + 366 * 4)
  | _ => 8

section

variable (clock : Clock)

/-- The loop over the days; the loops within it get `turns` turns. -/
def daysLoop (s : Schedule) (after day : Int) (turns : Nat) : Int → Nat → Option (Option Int)
  | _, 0 => none
  | i, fuel + 1 =>
      if i ≤ horizon64 s then
        let d := clock.date (day + i)
        if s.onDay s.anchor (max s.every 1) d then
          match timesOn64 s turns with
          | none => none
          | some minutes =>
              match (minutes.map (clock.instant d)).find? (after < ·) with
              | some t => some (some t)
              | none => daysLoop s after day turns (wrap64 (i + 1)) fuel
        else daysLoop s after day turns (wrap64 (i + 1)) fuel
      else some none

def next64 (s : Schedule) (after : Int) (fuel : Nat) : Option (Option Int) :=
  daysLoop clock s after (max (clock.dayOf after) s.anchor) fuel 0 fuel

/-- Both functions end, whatever the instant, and give times of the day only. -/
structure Evaluates (s : Schedule) : Prop where
  times : ∃ fuel minutes, timesOn64 s fuel = some minutes ∧ ∀ m ∈ minutes, 0 ≤ m ∧ m < 1440
  next : ∀ after, ∃ fuel result, next64 clock s after fuel = some result ∧
    ∀ t, result = some t → ∃ i m, s.onDay s.anchor (max s.every 1) (clock.date i) = true ∧
      0 ≤ m ∧ m < 1440 ∧ t = clock.instant (clock.date i) m

end

/-- The first step of a minutes or hours schedule goes forward. -/
def StepsForward (s : Schedule) : Prop :=
  s.unit = .minutes ∨ s.unit = .hours → ∀ first last, bounds s = some (first, last) →
    0 < step64 s ∧ first + step64 s < 2 ^ 63

theorem minutesLoop_mono (step last : Int) {fuel more : Nat} (enough : fuel ≤ more) (m : Int)
    (minutes : List Int) (ended : minutesLoop step last m fuel = some minutes) :
    minutesLoop step last m more = some minutes := by
  induction fuel generalizing m more minutes with
  | zero => cases ended
  | succ fuel ih =>
      obtain ⟨rest, rfl⟩ : ∃ rest, more = rest + 1 := ⟨more - 1, by omega⟩
      rw [minutesLoop] at ended ⊢
      split
      · next inside =>
          rw [if_pos inside] at ended
          obtain ⟨tail, later, rfl⟩ := Option.map_eq_some_iff.mp ended
          rw [ih (Nat.le_of_succ_le_succ enough) _ _ later]
          rfl
      · next outside => rwa [if_neg outside] at ended

theorem timesOn64_mono (s : Schedule) {fuel more : Nat} (enough : fuel ≤ more)
    (minutes : List Int) (ended : timesOn64 s fuel = some minutes) :
    timesOn64 s more = some minutes := by
  unfold timesOn64 at ended ⊢
  split at ended
  · split at ended
    · exact minutesLoop_mono _ _ enough _ _ ended
    · exact ended
  · split at ended
    · exact minutesLoop_mono _ _ enough _ _ ended
    · exact ended
  · exact ended

/-- A step that goes forward from the first minute never leaves the day. -/
theorem minutesLoop_forward (step last first m : Int) (positive : 0 < step)
    (fits : first + step < 2 ^ 63) (low : 0 ≤ first) (high : last < 1440) (from_ : first ≤ m)
    (behind : m ≤ first ∨ first + step ≤ m) (small : m < 2 ^ 63) :
    ∃ fuel minutes, minutesLoop step last m fuel = some minutes ∧
      ∀ k ∈ minutes, 0 ≤ k ∧ k < 1440 := by
  by_cases inside : m ≤ last
  · have ahead : wrap64 (m + step) = m + step := wrap64_same _ (by omega) (by omega)
    obtain ⟨fuel, minutes, ended, range⟩ := minutesLoop_forward step last first (m + step) positive
      fits low high (by omega) (by omega) (by omega)
    refine ⟨fuel + 1, m :: minutes, ?_, ?_⟩
    · rw [minutesLoop, if_pos inside, ahead, ended]
      rfl
    · intro k member
      rcases List.mem_cons.mp member with rfl | member
      · omega
      · exact range k member
  · refine ⟨1, [], ?_, fun k member => absurd member List.not_mem_nil⟩
    rw [minutesLoop, if_neg inside]
termination_by (last + 1 - m).toNat
decreasing_by omega

/-- A step that does not go forward runs for ever, or into the day before. -/
theorem minutesLoop_backward (step last m : Int) (negative : step ≤ 0) (least : -2 ^ 63 ≤ step)
    (low : 0 ≤ m) (inside : m ≤ last) (high : last < 1440) (fuel : Nat) (minutes : List Int)
    (ended : minutesLoop step last m fuel = some minutes) : ∃ k ∈ minutes, k < 0 := by
  induction fuel generalizing m minutes with
  | zero => cases ended
  | succ fuel ih =>
      rw [minutesLoop, if_pos inside, wrap64_same (m + step) (by omega) (by omega)] at ended
      obtain ⟨tail, later, rfl⟩ := Option.map_eq_some_iff.mp ended
      by_cases below : m + step < 0
      · cases fuel with
        | zero => cases later
        | succ fuel =>
            rw [minutesLoop, if_pos (by omega)] at later
            obtain ⟨rest, -, rfl⟩ := Option.map_eq_some_iff.mp later
            exact ⟨m + step, by simp, below⟩
      · obtain ⟨k, member, less⟩ := ih (m + step) (by omega) (by omega) tail later
        exact ⟨k, List.mem_cons_of_mem m member, less⟩

/-- A step that wraps is followed by a time of another day. -/
theorem minutesLoop_wrapped (step last first : Int) (above : 2 ^ 63 ≤ first + step)
    (fits : step < 2 ^ 63) (inside : first ≤ last) (low : 0 ≤ first) (high : last < 1440)
    (fuel : Nat) (minutes : List Int) (ended : minutesLoop step last first fuel = some minutes) :
    ∃ k ∈ minutes, k < 0 := by
  rcases fuel with _ | _ | fuel
  · cases ended
  · rw [minutesLoop, if_pos inside] at ended
    cases ended
  · have behind : wrap64 (first + step) = first + step - 2 ^ 64 :=
      wrap64_above _ above (by omega)
    rw [minutesLoop, if_pos inside, behind, minutesLoop, if_pos (by omega)] at ended
    obtain ⟨tail, later, rfl⟩ := Option.map_eq_some_iff.mp ended
    obtain ⟨rest, -, rfl⟩ := Option.map_eq_some_iff.mp later
    exact ⟨first + step - 2 ^ 64, by simp, by omega⟩

theorem validMinute (s : Schedule) (valid : validateSchedule s = none)
    (unit : s.unit = .minutes ∨ s.unit = .hours) : s.minute ≤ 59 := by
  have window := (validSchedule_parts s valid).2.1 unit
  unfold validateWindow at window
  split at window
  · cases window
  · rw [Option.or_eq_none_iff] at window
    by_contra late
    simp at window
    omega

theorem bounds_range (s : Schedule) (valid : validateSchedule s = none)
    (unit : s.unit = .minutes ∨ s.unit = .hours) :
    ∃ first last, bounds s = some (first, last) ∧ 0 ≤ first ∧ first ≤ last ∧ last < 1440 := by
  obtain ⟨least, window⟩ := validWindow_parts s ((validSchedule_parts s valid).2.1 unit)
  unfold bounds
  by_cases windowed : s.windowed = true
  · obtain ⟨a, b, first, last⟩ := window windowed
    have low := hhmm_range _ _ first
    have high := hhmm_range _ _ last
    exact ⟨a, max a b, by rw [if_pos windowed, first, last], by omega⟩
  · have most := validMinute s valid unit
    refine ⟨_, _, if_neg windowed, ?_⟩
    split <;> omega

theorem timesOn64_repeat (s : Schedule) (unit : s.unit = .minutes ∨ s.unit = .hours)
    (first last : Int) (known : bounds s = some (first, last)) (fuel : Nat) :
    timesOn64 s fuel = minutesLoop (step64 s) last first fuel := by
  unfold timesOn64
  rcases unit with unit | unit
  · rw [unit]
    simp only [known]
  · rw [unit]
    simp only [known]

theorem timesOn64_once (s : Schedule) (other : ¬(s.unit = .minutes ∨ s.unit = .hours))
    (fuel : Nat) : timesOn64 s fuel = some (hhmmMinutes s.at_).toList := by
  rw [not_or] at other
  unfold timesOn64
  split
  · next unit => exact absurd unit other.1
  · next unit => exact absurd unit other.2
  · rfl

theorem step64_range (s : Schedule) (int : s.every < 2 ^ 63) :
    -2 ^ 63 ≤ step64 s ∧ step64 s < 2 ^ 63 := by
  unfold step64
  dsimp only
  split
  · exact wrap64_range _
  · omega

/-- timesOn ends, and stays on its day, exactly if its step goes forward. -/
theorem times_iff (s : Schedule) (valid : validateSchedule s = none) (int : s.every < 2 ^ 63) :
    (∃ fuel minutes, timesOn64 s fuel = some minutes ∧ ∀ m ∈ minutes, 0 ≤ m ∧ m < 1440) ↔
      StepsForward s := by
  by_cases unit : s.unit = .minutes ∨ s.unit = .hours
  · obtain ⟨first, last, known, low, ordered, high⟩ := bounds_range s valid unit
    have range := step64_range s int
    constructor
    · rintro ⟨fuel, minutes, ended, onDay⟩ _ first' last' known'
      obtain ⟨rfl, rfl⟩ := Prod.mk.inj (Option.some.inj (known.symm.trans known'))
      rw [timesOn64_repeat s unit first last known] at ended
      by_contra stuck
      have astray : ∃ k ∈ minutes, k < 0 := by
        rcases Int.lt_or_le 0 (step64 s) with positive | negative
        · exact minutesLoop_wrapped _ _ _ (by omega) range.2 ordered low high fuel _ ended
        · exact minutesLoop_backward _ _ _ negative range.1 low ordered high fuel _ ended
      obtain ⟨k, member, below⟩ := astray
      have := onDay k member
      omega
    · intro forward
      obtain ⟨positive, fits⟩ := forward unit first last known
      obtain ⟨fuel, minutes, ended, onDay⟩ := minutesLoop_forward (step64 s) last first first positive
        fits low high (Int.le_refl first) (Or.inl (Int.le_refl first)) (by omega)
      exact ⟨fuel, minutes, by rw [timesOn64_repeat s unit first last known, ended], onDay⟩
  · refine ⟨fun _ repeats => absurd repeats unit, fun _ => ⟨0, _, timesOn64_once s unit 0, ?_⟩⟩
    intro m member
    exact hhmm_range s.at_ m (Option.mem_toList.mp member)

section

variable (clock : Clock)

/-- Below the largest int64 the days run out. -/
theorem daysLoop_ends (s : Schedule) (after day : Int) (turns : Nat) (minutes : List Int)
    (ended : timesOn64 s turns = some minutes) (fits : horizon64 s < 2 ^ 63 - 1) (i : Int)
    (least : -2 ^ 63 ≤ i) (fuel : Nat) (enough : horizon64 s + 1 - i ≤ fuel) :
    ∃ result, daysLoop clock s after day turns i (fuel + 1) = some result := by
  induction fuel generalizing i with
  | zero =>
      rw [daysLoop, if_neg (by omega)]
      exact ⟨none, rfl⟩
  | succ fuel ih =>
      rw [daysLoop]
      split
      · next inside =>
          have ahead : wrap64 (i + 1) = i + 1 := wrap64_same (i + 1) (by omega) (by omega)
          obtain ⟨result, onwards⟩ := ih (wrap64 (i + 1)) (by omega) (by omega)
          dsimp only
          split
          · rw [ended]
            dsimp only
            split
            · exact ⟨_, rfl⟩
            · exact ⟨result, onwards⟩
          · exact ⟨result, onwards⟩
      · exact ⟨none, rfl⟩

/-- What the loop finds is a time of a day it ran on. -/
theorem daysLoop_sound (s : Schedule) (after day : Int) (turns : Nat) (minutes : List Int)
    (ended : timesOn64 s turns = some minutes) (i t : Int) (fuel : Nat)
    (found : daysLoop clock s after day turns i fuel = some (some t)) :
    ∃ j, ∃ m ∈ minutes, s.onDay s.anchor (max s.every 1) (clock.date j) = true ∧
      t = clock.instant (clock.date j) m ∧ after < t := by
  induction fuel generalizing i with
  | zero => cases found
  | succ fuel ih =>
      rw [daysLoop] at found
      split at found
      · dsimp only at found
        split at found
        · next runs =>
            rw [ended] at found
            dsimp only at found
            split at found
            · next t' first =>
                cases found
                obtain ⟨m, member, same⟩ := List.mem_map.mp (List.mem_of_find?_eq_some first)
                exact ⟨day + i, m, member, runs, same.symm,
                  by simpa using List.find?_some first⟩
            · exact ih _ found
        · exact ih _ found
      · cases found

/-- With the largest int64 as its horizon the loop does not end at the last
instant: no time is after it. -/
theorem daysLoop_endless (s : Schedule) (day : Int) (turns : Nat)
    (whole : horizon64 s = 2 ^ 63 - 1)
    (onDay : ∀ minutes, timesOn64 s turns = some minutes → ∀ m ∈ minutes, 0 ≤ m ∧ m < 1440)
    (i : Int) (int : i < 2 ^ 63) (fuel : Nat) :
    daysLoop clock s clock.last day turns i fuel = none := by
  induction fuel generalizing i with
  | zero => rfl
  | succ fuel ih =>
      have onwards := ih (wrap64 (i + 1)) (wrap64_range (i + 1)).2
      rw [daysLoop, if_pos (by omega)]
      dsimp only
      split
      · cases ended : timesOn64 s turns with
        | none => rfl
        | some minutes =>
            have nothing : (minutes.map (clock.instant (clock.date (day + i)))).find?
                (clock.last < ·) = none := by
              rw [List.find?_eq_none]
              intro t member
              obtain ⟨m, inside, rfl⟩ := List.mem_map.mp member
              have range := onDay minutes ended m inside
              have bound := clock.bounded (day + i) m range.1 range.2
              simpa using bound
            simp only [nothing]
            exact onwards
      · exact onwards

end

/-- The days that the seconds of a Go time count, in UTC. -/
def utc64 : Clock where
  dayOf t := t / 86400
  date d := (d + 106751991073400) * 86400 % 2 ^ 64 / 86400 - 106751991073400
  near d low high := by omega
  instant d minute := (d * 1440 + minute) * 60
  last := 2 ^ 64
  bounded d minute low high := by omega

def everyHours (n : Int) : Schedule := { enabled := true, unit := .hours, every := n }

end ProxmoxBackup.ScheduleLoops
