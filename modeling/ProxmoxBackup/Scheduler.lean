import Mathlib.Logic.Function.Basic
import ProxmoxBackup.TransitionSystem

/-! The scheduler of the GUI and the service, seen from one Backup Set: ticks
that read the jobs file and start executeScheduledJob, Run now, startup runs,
the rewriting of NextRun at the end of a run and the changes a user makes. The
entry of the set in scheduled_jobs.json is one value, read and replaced whole;
a run keeps the copy that was read when it was started. Times are seconds. -/

namespace ProxmoxBackup.Scheduler

open TransitionSystem

/-- When a set's schedules are due: after `now` comes first `next now`. -/
structure Calendar where
  next : Nat → Option Nat
  later : ∀ now due, next now = some due → now < due
  first : ∀ now mid due, next now = some due → now ≤ mid → mid < due → next mid = some due

namespace Calendar

def Due (calendar : Calendar) (time : Nat) : Prop := ∃ now, calendar.next now = some time

/-- No due time lies between now and the next one. -/
theorem next_le_due (calendar : Calendar) (now due time : Nat)
    (next : calendar.next now = some due) (other : calendar.Due time) (ahead : now < time) :
    due ≤ time := by
  obtain ⟨origin, found⟩ := other
  by_contra before
  have before : time < due := by omega
  have started := calendar.later origin time found
  rcases Nat.le_total origin now with earlier | later
  · have same := calendar.first origin now time found earlier ahead
    rw [next, Option.some.injEq] at same
    omega
  · have same := calendar.first now origin due next later (by omega)
    rw [found, Option.some.injEq] at same
    omega

end Calendar

variable {Settings : Type}

/-- What the file says of the set; a manual set is one with no due time. -/
structure Entry (Settings : Type) where
  enabled : Bool
  settings : Settings
  nextRun : Option Nat
  deriving DecidableEq

inductive Trigger (Settings : Type) where
  | scheduled (copy : Entry Settings) (due : Nat)
  | startup
  | manual
  deriving DecidableEq

inductive Stage (Settings : Type) where
  | idle
  | asked
  | called (trigger : Trigger Settings)
  | admitted (trigger : Trigger Settings)
  | going (trigger : Trigger Settings) (start : Nat)
  | rewritten (trigger : Trigger Settings) (start : Nat)
  | done (trigger : Trigger Settings) (start : Nat)
  | refused
  deriving DecidableEq

structure Schedules (Settings : Type) where
  clock : Nat
  file : Option (Entry Settings)
  tick : Option (Entry Settings)
  running : Bool
  runs : Nat → Stage Settings

def Schedules.start (clock : Nat) (file : Option (Entry Settings)) : Schedules Settings where
  clock := clock
  file := file
  tick := none
  running := false
  runs := fun _ => .idle

def Schedules.setRun (s : Schedules Settings) (j : Nat) (stage : Stage Settings) :
    Schedules Settings :=
  { s with runs := Function.update s.runs j stage }

inductive Action (Settings : Type) where
  | pass (seconds : Nat)
  | readTick
  | fireTick (j : Nat)
  | startup (j : Nat)
  | runNow (j : Nat)
  | askRunning (j : Nat)
  | askHold (j : Nat) (held : Bool)
  | takeMark (j : Nat)
  | rewrite (j : Nat) (written : Bool)
  | dropMark (j : Nat)
  | save (settings : Settings)
  | setEnabled (enabled : Bool)
  | delete
  | repair

section
variable (calendar : Settings → Calendar)

/-- setNextRun. -/
def setNextRun (entry : Entry Settings) (now : Nat) : Entry Settings :=
  { entry with nextRun := (calendar entry.settings).next now }

/-- SaveScheduledJob for a new set, UpdateScheduledJob for one that is there. -/
def saved (file : Option (Entry Settings)) (settings : Settings) (now : Nat) : Entry Settings :=
  setNextRun calendar ⟨file.all (·.enabled), settings, none⟩ now

def enabledSet (entry : Entry Settings) (enabled : Bool) (now : Nat) : Entry Settings :=
  if enabled then setNextRun calendar { entry with enabled := true } now
  else { entry with enabled := false }

/-- The end of executeScheduledJob, where the file is read again. -/
def rewriteFile (file : Option (Entry Settings)) (written : Bool) (now : Nat) :
    Option (Entry Settings) :=
  if written then file.map fun entry => setNextRun calendar entry now else file

/-- RecalculateNextRuns: only a NextRun that is missing is filled in. -/
def repaired (entry : Entry Settings) (now : Nat) : Entry Settings :=
  if entry.enabled && entry.nextRun.isNone then setNextRun calendar entry now else entry

def schedulerStep (s : Schedules Settings) : Action Settings → Option (Schedules Settings)
  | .pass seconds => some { s with clock := s.clock + seconds }
  | .readTick => some { s with tick := s.file }
  | .fireTick j =>
      match s.tick, s.runs j with
      | some copy, .idle =>
          match copy.enabled, copy.nextRun with
          | true, some due =>
              if due < s.clock then
                some { s.setRun j (.called (.scheduled copy due)) with tick := none }
              else none
          | _, _ => none
      | _, _ => none
  | .startup j =>
      match s.file, s.runs j with
      | some entry, .idle => if entry.enabled then some (s.setRun j (.called .startup)) else none
      | _, _ => none
  | .runNow j =>
      match s.file, s.runs j with
      | some _, .idle => some (s.setRun j .asked)
      | _, _ => none
  | .askRunning j =>
      match s.runs j with
      | .asked => some (s.setRun j (if s.running then .refused else .called .manual))
      | _ => none
  | .askHold j held =>
      match s.runs j with
      | .called trigger => some (s.setRun j (if held then .refused else .admitted trigger))
      | _ => none
  | .takeMark j =>
      match s.runs j with
      | .admitted trigger =>
          if s.running then some (s.setRun j .refused)
          else some { s.setRun j (.going trigger s.clock) with running := true }
      | _ => none
  | .rewrite j written =>
      match s.runs j with
      | .going trigger start =>
          some { s.setRun j (.rewritten trigger start) with
            file := rewriteFile calendar s.file written s.clock }
      | _ => none
  | .dropMark j =>
      match s.runs j with
      | .rewritten trigger start => some { s.setRun j (.done trigger start) with running := false }
      | _ => none
  | .save settings => some { s with file := some (saved calendar s.file settings s.clock) }
  | .setEnabled enabled =>
      some { s with file := s.file.map fun entry => enabledSet calendar entry enabled s.clock }
  | .delete => some { s with file := none }
  | .repair => some { s with file := s.file.map fun entry => repaired calendar entry s.clock }

def schedulerSystem : System (Schedules Settings) (Action Settings) where
  start s := ∃ clock file, s = Schedules.start clock file
  step s action after := schedulerStep calendar s action = some after

end

def Stage.trigger : Stage Settings → Option (Trigger Settings)
  | .called trigger | .admitted trigger | .going trigger _ | .rewritten trigger _
  | .done trigger _ => some trigger
  | _ => none

/-- A run that has taken the running mark, from when. -/
def StartedBy (s : Schedules Settings) (j : Nat) (trigger : Trigger Settings) (start : Nat) :
    Prop :=
  s.runs j = .going trigger start ∨ s.runs j = .rewritten trigger start ∨
    s.runs j = .done trigger start

/-- A run that still has it. -/
def Going (s : Schedules Settings) (j : Nat) (trigger : Trigger Settings) (start : Nat) : Prop :=
  s.runs j = .going trigger start ∨ s.runs j = .rewritten trigger start

/-- What the tick read that started the run. -/
def Stage.copy : Stage Settings → Option (Entry Settings)
  | .admitted (.scheduled copy _) | .going (.scheduled copy _) _ => some copy
  | _ => none

/-- A scheduled run takes its mark while the file still says what the tick read,
and its end is written to the file. -/
def Meets (s : Schedules Settings) : Action Settings → Prop
  | .takeMark j => ∀ copy ∈ (s.runs j).copy, s.running = false → s.file = some copy
  | .rewrite j written => (s.runs j).copy.isSome = true → written = true
  | _ => True

instance [DecidableEq Settings] (s : Schedules Settings) (action : Action Settings) :
    Decidable (Meets s action) :=
  match action with
  | .takeMark j => inferInstanceAs (Decidable (∀ copy ∈ (s.runs j).copy, _ → _))
  | .rewrite _ _ => inferInstanceAs (Decidable (_ → _))
  | .pass _ | .readTick | .fireTick _ | .startup _ | .runNow _ | .askRunning _ | .askHold _ _
  | .dropMark _ | .save _ | .setEnabled _ | .delete | .repair => inferInstanceAs (Decidable True)

section
variable (calendar : Settings → Calendar)

/-! What one step changes. -/

theorem setNextRun_later (entry : Entry Settings) (now due : Nat)
    (found : (setNextRun calendar entry now).nextRun = some due) : now < due :=
  (calendar entry.settings).later now due found

/-- Every NextRun that a step writes lies ahead. -/
theorem file_step (s after : Schedules Settings) (action : Action Settings)
    (taken : schedulerStep calendar s action = some after) (entry : Entry Settings) (due : Nat)
    (there : after.file = some entry) (found : entry.nextRun = some due) :
    s.clock < due ∨ ∃ old, s.file = some old ∧ old.nextRun = some due := by
  have kept : after.file = s.file → s.clock < due ∨ ∃ old, s.file = some old ∧
      old.nextRun = some due :=
    fun same => Or.inr ⟨entry, same ▸ there, found⟩
  have mapped : ∀ change : Entry Settings → Entry Settings,
      (∀ old, (change old).nextRun = old.nextRun ∨
        ∀ due, (change old).nextRun = some due → s.clock < due) →
      after.file = s.file.map change → s.clock < due ∨ ∃ old, s.file = some old ∧
        old.nextRun = some due := by
    intro change cases_ shape
    rw [shape] at there
    obtain ⟨old, before, rfl⟩ := Option.map_eq_some_iff.mp there
    rcases cases_ old with same | later
    · exact Or.inr ⟨old, before, same ▸ found⟩
    · exact Or.inl (later due found)
  cases action with
  | save settings =>
      cases taken
      cases there
      exact Or.inl (setNextRun_later calendar _ _ _ found)
  | setEnabled enabled =>
      cases taken
      refine mapped (fun old => enabledSet calendar old enabled s.clock) ?_ rfl
      intro old
      unfold enabledSet
      split
      · exact Or.inr fun due => setNextRun_later calendar _ _ due
      · exact Or.inl rfl
  | repair =>
      cases taken
      refine mapped (fun old => repaired calendar old s.clock) ?_ rfl
      intro old
      unfold repaired
      split
      · exact Or.inr fun due => setNextRun_later calendar _ _ due
      · exact Or.inl rfl
  | delete =>
      cases taken
      cases there
  | rewrite j written =>
      simp only [schedulerStep] at taken
      split at taken
      · cases taken
        cases written with
        | true =>
            refine mapped (fun old => setNextRun calendar old s.clock) ?_ rfl
            exact fun old => Or.inr fun due => setNextRun_later calendar _ _ due
        | false => exact kept rfl
      · cases taken
  | _ =>
      simp only [schedulerStep] at taken
      repeat' split at taken
      all_goals first | cases taken; exact kept rfl | cases taken

/-- What a step does to the runs and the running mark. -/
inductive Moved (action : Action Settings) (s after : Schedules Settings) : Prop where
  | still (runs : after.runs = s.runs) (running : after.running = s.running)
  | fired (j : Nat) (copy : Entry Settings) (due : Nat) (idle : s.runs j = .idle)
      (enabled : copy.enabled = true) (nextRun : copy.nextRun = some due) (past : due < s.clock)
      (runs : after.runs = Function.update s.runs j (.called (.scheduled copy due)))
      (running : after.running = s.running)
  | waits (j : Nat) (stage : Stage Settings)
      (unmarked : ∀ trigger start, ¬ StartedBy s j trigger start)
      (still : ∀ trigger start, stage ≠ .going trigger start ∧ stage ≠ .rewritten trigger start ∧
        stage ≠ .done trigger start)
      (known : ∀ copy due, stage.trigger = some (.scheduled copy due) →
        (s.runs j).trigger = some (.scheduled copy due))
      (runs : after.runs = Function.update s.runs j stage) (running : after.running = s.running)
  | marked (j : Nat) (trigger : Trigger Settings) (take : action = .takeMark j)
      (admitted : s.runs j = .admitted trigger) (free : s.running = false)
      (runs : after.runs = Function.update s.runs j (.going trigger s.clock))
      (running : after.running = true)
  | rewrote (j : Nat) (written : Bool) (trigger : Trigger Settings) (start : Nat)
      (rewrite : action = .rewrite j written) (going : s.runs j = .going trigger start)
      (file : after.file = rewriteFile calendar s.file written s.clock)
      (runs : after.runs = Function.update s.runs j (.rewritten trigger start))
      (running : after.running = s.running)
  | dropped (j : Nat) (trigger : Trigger Settings) (start : Nat)
      (rewritten : s.runs j = .rewritten trigger start)
      (runs : after.runs = Function.update s.runs j (.done trigger start))
      (running : after.running = false)

theorem step_moved (s after : Schedules Settings) (action : Action Settings)
    (taken : schedulerStep calendar s action = some after) : Moved calendar action s after := by
  cases action with
  | fireTick j =>
      simp only [schedulerStep] at taken
      split at taken
      · next copy tick idle =>
          split at taken
          · next due enabled nextRun =>
              split at taken
              · next past =>
                  cases taken
                  exact .fired j copy due idle enabled nextRun past rfl rfl
              · cases taken
          · cases taken
      · cases taken
  | takeMark j =>
      simp only [schedulerStep] at taken
      split at taken
      · next trigger admitted =>
          split at taken
          · cases taken
            exact .waits j .refused (by simp [StartedBy, admitted]) (by simp)
              (by simp [Stage.trigger]) rfl rfl
          · next free =>
              cases taken
              exact .marked j trigger rfl admitted (by simpa using free) rfl rfl
      · cases taken
  | rewrite j written =>
      simp only [schedulerStep] at taken
      split at taken
      · next trigger start going =>
          cases taken
          exact .rewrote j written trigger start rfl going rfl rfl rfl
      · cases taken
  | dropMark j =>
      simp only [schedulerStep] at taken
      split at taken
      · next trigger start rewritten =>
          cases taken
          exact .dropped j trigger start rewritten rfl rfl
      · cases taken
  | startup j =>
      simp only [schedulerStep] at taken
      split at taken
      · next entry there idle =>
          split at taken
          · cases taken
            exact .waits j (.called .startup) (by simp [StartedBy, idle]) (by simp)
              (by simp [Stage.trigger]) rfl rfl
          · cases taken
      · cases taken
  | runNow j =>
      simp only [schedulerStep] at taken
      split at taken
      · next entry there idle =>
          cases taken
          exact .waits j .asked (by simp [StartedBy, idle]) (by simp) (by simp [Stage.trigger])
            rfl rfl
      · cases taken
  | askRunning j =>
      simp only [schedulerStep] at taken
      split at taken
      · next asked =>
          cases taken
          refine .waits j _ (by simp [StartedBy, asked]) ?_ ?_ rfl rfl
          · split <;> simp
          · split <;> simp [Stage.trigger]
      · cases taken
  | askHold j held =>
      simp only [schedulerStep] at taken
      split at taken
      · next trigger called =>
          cases taken
          refine .waits j _ (by simp [StartedBy, called]) ?_ ?_ rfl rfl
          · split <;> simp
          · split <;> simp [Stage.trigger, called]
      · cases taken
  | _ =>
      cases taken
      exact .still rfl rfl

theorem clock_step (s after : Schedules Settings) (action : Action Settings)
    (taken : schedulerStep calendar s action = some after) : s.clock ≤ after.clock := by
  cases action <;> simp only [schedulerStep] at taken <;> repeat' split at taken
  all_goals first | cases taken; exact Nat.le_refl _ | cases taken; exact Nat.le_add_right _ _ |
    cases taken

/-! The running mark. -/

variable {action : Action Settings}

structure Marks (s : Schedules Settings) : Prop where
  running : ∀ j trigger start, Going s j trigger start → s.running = true
  only : ∀ i j trigger start other since, Going s i trigger start → Going s j other since → i = j

theorem going_update (s after : Schedules Settings) (j i : Nat) (stage : Stage Settings)
    (trigger : Trigger Settings) (start : Nat)
    (runs : after.runs = Function.update s.runs j stage) :
    Going after i trigger start ↔
      if i = j then stage = .going trigger start ∨ stage = .rewritten trigger start
      else Going s i trigger start := by
  unfold Going
  rw [runs]
  by_cases same : i = j
  · subst same
    simp
  · simp [same]

theorem marks_step (s after : Schedules Settings) (marks : Marks s) (moved : Moved calendar action s after) :
    Marks after := by
  have aside : ∀ j stage, (∀ trigger start, stage ≠ Stage.going trigger start ∧
      stage ≠ .rewritten trigger start) → after.runs = Function.update s.runs j stage →
      ∀ i trigger start, Going after i trigger start → Going s i trigger start ∧ i ≠ j := by
    intro j stage quiet runs i trigger start going
    rw [going_update s after j i stage trigger start runs] at going
    split at going
    · rcases going with same | same
      · exact absurd same (quiet trigger start).1
      · exact absurd same (quiet trigger start).2
    · next other => exact ⟨going, other⟩
  have fewer : (∀ i trigger start, Going after i trigger start → Going s i trigger start) →
      (∀ i trigger start, Going after i trigger start → after.running = true) → Marks after := by
    intro kept running
    refine ⟨running, ?_⟩
    intro i j trigger start other since first second
    exact marks.only i j trigger start other since (kept _ _ _ first) (kept _ _ _ second)
  cases moved with
  | still runs running =>
      have same : ∀ i trigger start, Going after i trigger start → Going s i trigger start := by
        intro i trigger start going
        rwa [Going, runs] at going
      exact fewer same fun i trigger start going =>
        running.trans (marks.running _ _ _ (same _ _ _ going))
  | fired j copy due idle enabled nextRun past runs running =>
      have kept := aside j _ (by simp) runs
      exact fewer (fun i trigger start going => (kept i trigger start going).1)
        fun i trigger start going => running.trans (marks.running _ _ _ (kept _ _ _ going).1)
  | waits j stage unmarked still known runs running =>
      have kept := aside j stage (fun trigger start => ⟨(still trigger start).1,
        (still trigger start).2.1⟩) runs
      exact fewer (fun i trigger start going => (kept i trigger start going).1)
        fun i trigger start going => running.trans (marks.running _ _ _ (kept _ _ _ going).1)
  | marked j trigger take admitted free runs running =>
      have none_ : ∀ i trigger start, ¬ Going s i trigger start := by
        intro i trigger start going
        have taken := marks.running i trigger start going
        rw [free] at taken
        cases taken
      have here : ∀ i other since, Going after i other since → i = j := by
        intro i other since going
        rw [going_update s after j i _ other since runs] at going
        split at going
        · next same => exact same
        · exact absurd going (none_ i other since)
      refine ⟨fun _ _ _ _ => running, ?_⟩
      intro i k other since third until_ first second
      exact (here i other since first).trans (here k third until_ second).symm
  | rewrote j written trigger start rewrite going file runs running =>
      have before : Going s j trigger start := Or.inl going
      have kept : ∀ i other since, Going after i other since → ∃ other since, Going s i other since := by
        intro i other since found
        rw [going_update s after j i _ other since runs] at found
        split at found
        · next same => exact ⟨trigger, start, same ▸ before⟩
        · exact ⟨other, since, found⟩
      constructor
      · intro i other since found
        obtain ⟨_, _, old⟩ := kept i other since found
        exact running.trans (marks.running _ _ _ old)
      · intro i k other since third until_ first second
        obtain ⟨_, _, one⟩ := kept i other since first
        obtain ⟨_, _, two⟩ := kept k third until_ second
        exact marks.only _ _ _ _ _ _ one two
  | dropped j trigger start rewritten runs running =>
      have kept := aside j _ (by simp) runs
      refine ⟨?_, ?_⟩
      · intro i other since going
        obtain ⟨old, apart⟩ := kept i other since going
        exact absurd (marks.only i j _ _ _ _ old (Or.inr rewritten)) apart
      · intro i k other since third until_ first second
        exact marks.only i k _ _ _ _ (kept _ _ _ first).1 (kept _ _ _ second).1

/-! What a scheduled run knows of the file. -/

theorem started_update (s after : Schedules Settings) (j i : Nat) (stage : Stage Settings)
    (trigger : Trigger Settings) (start : Nat)
    (runs : after.runs = Function.update s.runs j stage) :
    StartedBy after i trigger start ↔
      if i = j then stage = .going trigger start ∨ stage = .rewritten trigger start ∨
        stage = .done trigger start
      else StartedBy s i trigger start := by
  unfold StartedBy
  rw [runs]
  by_cases same : i = j
  · subst same
    simp
  · simp [same]

/-- No step but taking the mark starts a run. -/
theorem started_step (s after : Schedules Settings) (moved : Moved calendar action s after) (i : Nat)
    (trigger : Trigger Settings) (start : Nat) (started : StartedBy after i trigger start) :
    StartedBy s i trigger start ∨
      s.runs i = .admitted trigger ∧ start = s.clock ∧ s.running = false ∧
        action = .takeMark i := by
  cases moved with
  | still runs running => exact Or.inl (by rwa [StartedBy, runs] at started)
  | fired j copy due idle enabled nextRun past runs running =>
      rw [started_update s after j i _ trigger start runs] at started
      split at started
      · simp at started
      · exact Or.inl started
  | waits j stage unmarked still known runs running =>
      rw [started_update s after j i stage trigger start runs] at started
      split at started
      · obtain ⟨notGoing, notRewritten, notDone⟩ := still trigger start
        rcases started with same | same | same
        · exact absurd same notGoing
        · exact absurd same notRewritten
        · exact absurd same notDone
      · exact Or.inl started
  | marked j other take admitted free runs running =>
      rw [started_update s after j i _ trigger start runs] at started
      split at started
      · next same =>
          right
          rcases started with going | going | going
          · cases going
            exact ⟨same ▸ admitted, rfl, free, same ▸ take⟩
          · cases going
          · cases going
      · exact Or.inl started
  | rewrote j written other since rewrite going file runs running =>
      rw [started_update s after j i _ trigger start runs] at started
      split at started
      · next same =>
          left
          rcases started with now | now | now
          · cases now
          · cases now
            exact Or.inl (same ▸ going)
          · cases now
      · exact Or.inl started
  | dropped j other since rewritten runs running =>
      rw [started_update s after j i _ trigger start runs] at started
      split at started
      · next same =>
          left
          rcases started with now | now | now
          · cases now
          · cases now
          · cases now
            exact Or.inr (Or.inl (same ▸ rewritten))
      · exact Or.inl started

structure Timely (s : Schedules Settings) : Prop where
  trigger : ∀ j copy due, (s.runs j).trigger = some (.scheduled copy due) →
    copy.enabled = true ∧ copy.nextRun = some due ∧ due < s.clock
  since : ∀ j trigger start, StartedBy s j trigger start → start ≤ s.clock

theorem timely_step (s after : Schedules Settings) (timely : Timely s) (moved : Moved calendar action s after)
    (clock : s.clock ≤ after.clock) : Timely after where
  trigger := by
    have kept : ∀ i copy due, (s.runs i).trigger = some (.scheduled copy due) →
        copy.enabled = true ∧ copy.nextRun = some due ∧ due < after.clock := by
      intro i copy due found
      obtain ⟨enabled, nextRun, past⟩ := timely.trigger i copy due found
      exact ⟨enabled, nextRun, by omega⟩
    have updated : ∀ j stage, after.runs = Function.update s.runs j stage →
        (∀ copy due, stage.trigger = some (.scheduled copy due) →
          copy.enabled = true ∧ copy.nextRun = some due ∧ due < after.clock) →
        ∀ i copy due, (after.runs i).trigger = some (.scheduled copy due) →
          copy.enabled = true ∧ copy.nextRun = some due ∧ due < after.clock := by
      intro j stage runs new i copy due found
      rw [runs] at found
      by_cases same : i = j
      · subst same
        rw [Function.update_self] at found
        exact new copy due found
      · rw [Function.update_of_ne same] at found
        exact kept i copy due found
    cases moved with
    | still runs running =>
        rw [runs]
        exact kept
    | fired j copy due idle enabled nextRun past runs running =>
        refine updated j _ runs ?_
        rintro copy due ⟨⟩
        exact ⟨enabled, nextRun, by omega⟩
    | waits j stage unmarked still known runs running =>
        exact updated j stage runs fun copy due found => kept j copy due (known copy due found)
    | marked j trigger take admitted free runs running =>
        refine updated j _ runs fun copy due found => kept j copy due ?_
        rwa [admitted]
    | rewrote j written trigger start rewrite going file runs running =>
        refine updated j _ runs fun copy due found => kept j copy due ?_
        rwa [going]
    | dropped j trigger start rewritten runs running =>
        refine updated j _ runs fun copy due found => kept j copy due ?_
        rwa [rewritten]
  since := by
    intro i trigger start started
    rcases started_step calendar s after moved i trigger start started with old | ⟨_, now, _⟩
    · exact Nat.le_trans (timely.since i trigger start old) clock
    · omega

theorem timely_invariant :
    Invariant (schedulerSystem calendar) (fun s => Marks s ∧ Timely s) where
  start := by
    rintro s ⟨clock, file, rfl⟩
    refine ⟨⟨?_, ?_⟩, ?_, ?_⟩ <;> simp [Going, StartedBy, Schedules.start, Stage.trigger]
  step := by
    rintro s action after ⟨marks, timely⟩ taken
    have moved := step_moved calendar s after action taken
    exact ⟨marks_step calendar s after marks moved,
      timely_step calendar s after timely moved (clock_step calendar s after action taken)⟩

/-! Where every step meets the condition, a NextRun is spent by its run. -/

structure Spent (s : Schedules Settings) : Prop where
  rewritten : ∀ j copy due start, s.runs j = .rewritten (.scheduled copy due) start ∨
      s.runs j = .done (.scheduled copy due) start →
    ∀ entry, s.file = some entry → entry.nextRun ≠ some due
  once : ∀ i j first second due start since, StartedBy s i (.scheduled first due) start →
    StartedBy s j (.scheduled second due) since → i = j

theorem rewritten_step (s after : Schedules Settings) (moved : Moved calendar action s after) (i : Nat)
    (trigger : Trigger Settings) (start : Nat)
    (found : after.runs i = .rewritten trigger start ∨ after.runs i = .done trigger start) :
    s.runs i = .going trigger start ∧ after.runs i = .rewritten trigger start ∨
      s.runs i = .rewritten trigger start ∨ s.runs i = .done trigger start := by
  have aside : ∀ j stage, after.runs = Function.update s.runs j stage →
      (i = j → stage ≠ .rewritten trigger start ∧ stage ≠ .done trigger start) →
      s.runs i = .rewritten trigger start ∨ s.runs i = .done trigger start := by
    intro j stage runs quiet
    rw [runs] at found
    by_cases same : i = j
    · subst same
      rw [Function.update_self] at found
      rcases found with now | now
      · exact absurd now (quiet rfl).1
      · exact absurd now (quiet rfl).2
    · rwa [Function.update_of_ne same] at found
  cases moved with
  | still runs running =>
      rw [runs] at found
      exact Or.inr found
  | fired j copy due idle enabled nextRun past runs running =>
      exact Or.inr (aside j _ runs (by simp))
  | waits j stage unmarked still known runs running =>
      exact Or.inr (aside j stage runs fun _ => (still trigger start).2)
  | marked j other take admitted free runs running => exact Or.inr (aside j _ runs (by simp))
  | rewrote j written other since rewrite going file runs running =>
      by_cases same : i = j
      · subst same
        have now : after.runs i = .rewritten other since := by rw [runs, Function.update_self]
        rw [now] at found
        rcases found with shape | shape
        · cases shape
          exact Or.inl ⟨going, now⟩
        · cases shape
      · exact Or.inr (aside j _ runs fun here => absurd here same)
  | dropped j other since rewritten runs running =>
      by_cases same : i = j
      · subst same
        have now : after.runs i = .done other since := by rw [runs, Function.update_self]
        rw [now] at found
        rcases found with shape | shape
        · cases shape
        · cases shape
          exact Or.inr (Or.inl rewritten)
      · exact Or.inr (aside j _ runs fun here => absurd here same)

theorem spent_step (s after : Schedules Settings) (marks : Marks s) (timely : Timely s)
    (spent : Spent s) (taken : schedulerStep calendar s action = some after)
    (meets : Meets s action) : Spent after := by
  have moved := step_moved calendar s after action taken
  have written : ∀ j copy due start, after.runs j = .rewritten (.scheduled copy due) start ∨
      after.runs j = .done (.scheduled copy due) start →
      ∀ entry, after.file = some entry → entry.nextRun ≠ some due := by
    intro j copy due start found entry there nextRun
    rcases rewritten_step calendar s after moved j _ start found with ⟨going, now⟩ | old
    · cases moved with
      | still runs running => simp [runs, going] at now
      | rewrote i done trigger since rewrite before file runs running =>
          have here : i = j := by
            by_contra other
            rw [runs, Function.update_of_ne (Ne.symm other), going] at now
            cases now
          subst here
          have success : done = true := by
            rw [rewrite] at meets
            simpa [Meets, going, Stage.copy] using meets
          rw [file, rewriteFile, if_pos success] at there
          obtain ⟨previous, _, rfl⟩ := Option.map_eq_some_iff.mp there
          have ahead := setNextRun_later calendar _ _ _ nextRun
          have past := (timely.trigger i copy due (by simp [going, Stage.trigger])).2.2
          omega
      | fired i other time idle enabled next past runs running =>
          by_cases same : j = i
          · simp [runs, same] at now
          · simp [runs, same, going] at now
      | waits i stage unmarked still known runs running =>
          by_cases same : j = i
          · exact absurd (Or.inl (same ▸ going)) (unmarked (.scheduled copy due) start)
          · simp [runs, same, going] at now
      | marked i trigger take admitted free runs running =>
          by_cases same : j = i
          · simp [runs, same] at now
          · simp [runs, same, going] at now
      | dropped i trigger since rewritten runs running =>
          by_cases same : j = i
          · simp [runs, same] at now
          · simp [runs, same, going] at now
    · have past : due < s.clock := by
        refine (timely.trigger j copy due ?_).2.2
        rcases old with same | same
        · simp [same, Stage.trigger]
        · simp [same, Stage.trigger]
      rcases file_step calendar s after action taken entry due there nextRun with
        ahead | ⟨previous, before, same⟩
      · omega
      · exact spent.rewritten j copy due start old previous before same
  refine ⟨written, ?_⟩
  -- a second run for the same NextRun would take its mark now
  have fresh : ∀ i j first second due start, StartedBy s i (.scheduled first due) start →
      s.runs j = .admitted (.scheduled second due) → s.running = false → action = .takeMark j →
      False := by
    intro i j first second due start started admitted free take
    have file : s.file = some second := by
      rw [take] at meets
      simpa [Meets, admitted, free, Stage.copy] using meets
    have nextRun := (timely.trigger j second due (by simp [admitted, Stage.trigger])).2.1
    rcases started with going | rewritten
    · have busy := marks.running i _ start (Or.inl going)
      rw [free] at busy
      cases busy
    · exact spent.rewritten i first due start rewritten second file nextRun
  intro i j first second due start since one two
  rcases started_step calendar s after moved i _ start one with old | ⟨admitted, _, free, take⟩
  · rcases started_step calendar s after moved j _ since two with
      older | ⟨admitted, _, free, take⟩
    · exact spent.once i j first second due start since old older
    · exact (fresh i j first second due start old admitted free take).elim
  · rcases started_step calendar s after moved j _ since two with older | ⟨_, _, _, other⟩
    · exact (fresh j i second first due since older admitted free take).elim
    · rw [take] at other
      exact Action.takeMark.inj other

theorem spent_invariant : Invariant ((schedulerSystem calendar).restrict Meets)
    (fun s => (Marks s ∧ Timely s) ∧ Spent s) where
  start := by
    rintro s ⟨clock, file, rfl⟩
    refine ⟨(timely_invariant calendar).start _ ⟨clock, file, rfl⟩, ?_, ?_⟩
    · simp [Schedules.start]
    · simp [StartedBy, Schedules.start]
  step := by
    rintro s action after ⟨⟨marks, timely⟩, spent⟩ ⟨taken, meets⟩
    exact ⟨(timely_invariant calendar).step s action after ⟨marks, timely⟩ taken,
      spent_step calendar s after marks timely spent taken meets⟩

/-- Saving, enabling, disabling or deleting the set. -/
def byUser : Action Settings → Bool
  | .save _ | .setEnabled _ | .delete => true
  | _ => false

/-- NextRun passes no due time but those a run that is going covers: it was
going then, or it started after. -/
theorem next_run_moves (s after : Schedules Settings) (timely : Timely s)
    (taken : schedulerStep calendar s action = some after) (other : byUser action = false)
    (entry later : Entry Settings) (old new time : Nat) (before : s.file = some entry)
    (there : after.file = some later) (from_ : entry.nextRun = some old)
    (to_ : later.nextRun = some new) (due : (calendar entry.settings).Due time) (reached : old ≤ time)
    (passed : time < new) :
    ∃ j trigger start, Going s j trigger start ∧ start ≤ s.clock ∧ time ≤ s.clock := by
  have unmoved : after.file = s.file → False := by
    intro same
    rw [same, before, Option.some.injEq] at there
    subst there
    rw [from_, Option.some.injEq] at to_
    omega
  cases action with
  | save settings => cases other
  | setEnabled enabled => cases other
  | delete => cases other
  | repair =>
      cases taken
      refine (unmoved ?_).elim
      simp [before, repaired, from_]
  | rewrite j written =>
      simp only [schedulerStep] at taken
      split at taken
      · next trigger start going =>
          cases taken
          cases written with
          | false => exact (unmoved rfl).elim
          | true =>
              refine ⟨j, trigger, start, Or.inl going, timely.since j trigger start (Or.inl going), ?_⟩
              by_contra ahead
              have shape : later = setNextRun calendar entry s.clock := by
                simpa [rewriteFile, before] using there.symm
              rw [shape] at to_
              have first := (calendar entry.settings).next_le_due s.clock new time to_ due (by omega)
              omega
      · cases taken
  | _ =>
      simp only [schedulerStep] at taken
      repeat' split at taken
      all_goals first | cases taken; exact (unmoved rfl).elim | cases taken

end

/-! A set due every ten seconds. -/

def everyTen : Calendar where
  next now := some (10 * (now / 10 + 1))
  later := by
    rintro now due ⟨⟩
    omega
  first := by
    rintro now mid due ⟨⟩ within before
    simp only [Option.some.injEq]
    omega

def everyTenStep : Schedules Unit → Action Unit → Option (Schedules Unit) :=
  schedulerStep fun _ => everyTen

def tenSet : Entry Unit := ⟨true, (), some 10⟩

/-- A tick at 11 starts run 0, which takes the running mark. -/
def tenStarted : List (Action Unit) :=
  [.pass 11, .readTick, .fireTick 0, .askHold 0 false, .takeMark 0]

def tenStartedAgain : List (Action Unit) :=
  tenStarted ++ [.readTick, .fireTick 1, .askHold 1 false, .rewrite 0 true, .dropMark 0,
    .setEnabled false]

def tenDone : List (Action Unit) := tenStarted ++ [.pass 5, .rewrite 0 true, .dropMark 0]

end ProxmoxBackup.Scheduler
