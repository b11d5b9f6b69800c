import ProxmoxBackup.LegacyTrigger
import ProxmoxBackup.TransitionSystem
import Mathlib.Data.List.Nodup
import Mathlib.Data.List.Perm.Subperm
import Mathlib.Logic.Function.Basic

/-! The jobs file, scheduled_jobs.json (gui/scheduler.go), under any number of
calls at once: Save, Update, SetScheduledJobEnabled, Delete, the end of a run in
executeScheduledJob and recordChangeDetectionOutcome. Each reads the whole file,
changes it in memory and replaces it whole, under jobsFileMu. The file holds the
jobs encoding/json reads from it, or text it cannot read. A job comes to Save
and Update after resolveMappedDrives and pinJobDisks; fields no call here looks
at are one value, `settings`. -/

namespace ProxmoxBackup.JobsFile

open LegacyTrigger Schedules TransitionSystem

variable {Settings : Type}

structure Job (Settings : Type) where
  id : String
  name : String
  enabled : Bool
  backupType : String
  driveLetters : List String
  diskIDs : List String
  pbsServerID : String
  machineAsVM : Bool
  upstreamPBSID : String
  upstreamBackupKind : String
  changeDetectionMode : String
  metadataRunsSinceFullRead : Int
  lastRun : Option Int
  nextRun : Option (Int × String)
  schedule : ScheduledJob
  settings : Settings
  deriving DecidableEq

inductive File (Settings : Type) where
  | missing
  | damaged (error : String)
  | holds (jobs : List (Job Settings))
  deriving DecidableEq

/-- What the computer gives the calls: the time zone, the identity the config's
table or a by-id name gives a device ("" for none), and names as EqualFold of
the trimmed texts compares them. -/
structure Host where
  zone : Zone
  identityOf : String → String
  blank : String → Bool
  sameName : String → String → Bool

def migrateUpstreamDiskPins (host : Host) (job : Job Settings) : Job Settings :=
  if job.backupType ≠ "machine" || job.driveLetters.isEmpty || !job.diskIDs.isEmpty then job
  else
    let ids := job.driveLetters.map host.identityOf
    if ids.any (· ≠ "") then { job with diskIDs := ids } else job

/-- normalizeJobSchedules, with the fields migrateUpstreamJob moves. -/
def normalizeJob (job : Job Settings) : Job Settings :=
  { job with
    pbsServerID := if job.pbsServerID = "" then job.upstreamPBSID else job.pbsServerID
    machineAsVM :=
      job.machineAsVM || (job.upstreamBackupKind = "vm" && job.backupType = "machine")
    upstreamPBSID := ""
    upstreamBackupKind := ""
    schedule := normalizeJobSchedules job.schedule }

def loaded (host : Host) (job : Job Settings) : Job Settings :=
  migrateUpstreamDiskPins host (normalizeJob job)

/-- GetScheduledJobs; `fault` is what resolving the path or reading fails with. -/
def getScheduledJobs (host : Host) (fault : Option String) (file : File Settings) :
    Except String (List (Job Settings)) :=
  match fault, file with
  | some error, _ => .error error
  | none, .missing => .ok []
  | none, .damaged error => .error error
  | none, .holds jobs => .ok (jobs.map (loaded host))

def setNextRun (host : Host) (now : Int) (job : Job Settings) : Job Settings :=
  { job with nextRun := nextRunFor host.zone job.schedule now }

def checkUniqueJobName (host : Host) (jobs : List (Job Settings)) (job : Job Settings) : Bool :=
  host.blank job.name || jobs.all fun j => j.id = job.id || !host.sameName j.name job.name

/-- The loop that changes the first job of an ID and breaks. -/
def changeFirst (id : String) (change : Job Settings → Job Settings) :
    List (Job Settings) → Option (List (Job Settings))
  | [] => none
  | job :: rest =>
      if job.id = id then some (change job :: rest)
      else (changeFirst id change rest).map (job :: ·)

inductive Operation (Settings : Type) where
  | save (job : Job Settings)
  | update (job : Job Settings)
  | setEnabled (id : String) (enabled : Bool)
  | delete (id : String)
  | finishRun (id : String)
  | countRun (id : String) (success readEveryFile : Bool)
  deriving DecidableEq

def Operation.own : Operation Settings → String
  | .save job | .update job => job.id
  | .setEnabled id _ | .delete id | .finishRun id | .countRun id _ _ => id

/-- The edited job with the run state of the one it replaces. -/
def edited (host : Host) (now : Int) (job old : Job Settings) : Job Settings :=
  setNextRun host now { job with
    enabled := old.enabled
    metadataRunsSinceFullRead := old.metadataRunsSinceFullRead
    lastRun := job.lastRun.or old.lastRun }

def nextFullReadCount (job : Job Settings) (success readEveryFile : Bool) : Int :=
  if !success || job.backupType = "machine" then job.metadataRunsSinceFullRead
  else if job.changeDetectionMode ≠ "metadata" || readEveryFile then 0
  else job.metadataRunsSinceFullRead + 1

def nameTaken : String := "a Backup Set with this name already exists"

def notFound : String := "job not found"

/-- What a call makes of the jobs it read: an error, nothing to write, or the
new list. The end of a run and the counter leave a job that is gone alone. -/
def change (host : Host) (now : Int) (jobs : List (Job Settings)) :
    Operation Settings → Except String (Option (List (Job Settings)))
  | .save job =>
      let job := normalizeJob job
      if checkUniqueJobName host jobs job then
        .ok (some (jobs ++ [setNextRun host now { job with enabled := true }]))
      else .error nameTaken
  | .update job =>
      let job := normalizeJob job
      if checkUniqueJobName host jobs job then
        match changeFirst job.id (edited host now job) jobs with
        | some jobs => .ok (some jobs)
        | none => .error notFound
      else .error nameTaken
  | .setEnabled id enabled =>
      let turned (job : Job Settings) : Job Settings :=
        if enabled then setNextRun host now { job with enabled := true }
        else { job with enabled := false }
      match changeFirst id turned jobs with
      | some jobs => .ok (some jobs)
      | none => .error notFound
  | .delete id => .ok (some (jobs.filter (·.id ≠ id)))
  | .finishRun id =>
      .ok (changeFirst id (fun job => setNextRun host now { job with lastRun := some now }) jobs)
  | .countRun id success readEveryFile =>
      let counted (job : Job Settings) : Job Settings :=
        { job with metadataRunsSinceFullRead := nextFullReadCount job success readEveryFile }
      match jobs.find? (·.id = id) with
      | some job =>
          if nextFullReadCount job success readEveryFile = job.metadataRunsSinceFullRead then
            .ok none
          else .ok (changeFirst id counted jobs)
      | none => .ok none

/-- One whole call, with what it met: the refusal of the checks before the lock,
the clock, and what reading and atomicWriteFile failed with. -/
structure Turn (Settings : Type) where
  operation : Operation Settings
  refusal : Option String := none
  readFault : Option String := none
  now : Int := 0
  writeFault : Option String := none
  deriving DecidableEq

/-- atomicWriteFile: the text goes to a file beside it, which is then renamed. -/
def atomicWriteFile (fault : Option String) (jobs : List (Job Settings)) (file : File Settings) :
    File Settings × Option String :=
  match fault with
  | some error => (file, some error)
  | none => (.holds jobs, none)

/-- A call on its own: the file after it, and its error. -/
def perform (host : Host) (turn : Turn Settings) (file : File Settings) :
    File Settings × Option String :=
  match turn.refusal with
  | some error => (file, some error)
  | none =>
      match getScheduledJobs host turn.readFault file with
      | .error error => (file, some error)
      | .ok jobs =>
          match change host turn.now jobs turn.operation with
          | .error error => (file, some error)
          | .ok none => (file, none)
          | .ok (some jobs) => atomicWriteFile turn.writeFault jobs file

/-! The calls at once. -/

inductive Stage (Settings : Type) where
  | idle
  | waiting (operation : Operation Settings)
  | locked (operation : Operation Settings)
  | loaded (operation : Operation Settings) (jobs : List (Job Settings))
  | changed (operation : Operation Settings) (now : Int) (jobs : List (Job Settings))
  | leaving (turn : Turn Settings) (error : Option String)
  | done (turn : Turn Settings) (error : Option String)
  deriving DecidableEq

structure Calls (Settings : Type) where
  file : File Settings
  jobsFileMu : Option Nat
  stages : Nat → Stage Settings

inductive Action (Settings : Type) where
  | call (t : Nat) (operation : Operation Settings) (refusal : Option String)
  | lock (t : Nat)
  | read (t : Nat) (fault : Option String)
  | change (t : Nat) (now : Int)
  | write (t : Nat) (fault : Option String)
  | unlock (t : Nat)

def Calls.start (file : File Settings) : Calls Settings := ⟨file, none, fun _ => .idle⟩

def Calls.enter (s : Calls Settings) (t : Nat) (stage : Stage Settings) : Calls Settings :=
  { s with stages := Function.update s.stages t stage }

def called (operation : Operation Settings) : Option String → Stage Settings
  | some error => .done { operation := operation, refusal := some error } (some error)
  | none => .waiting operation

def readStage (operation : Operation Settings) (fault : Option String) :
    Except String (List (Job Settings)) → Stage Settings
  | .error error => .leaving { operation := operation, readFault := fault } (some error)
  | .ok jobs => .loaded operation jobs

def changeStage (operation : Operation Settings) (now : Int) :
    Except String (Option (List (Job Settings))) → Stage Settings
  | .error error => .leaving { operation := operation, now := now } (some error)
  | .ok none => .leaving { operation := operation, now := now } none
  | .ok (some jobs) => .changed operation now jobs

def step (host : Host) (s : Calls Settings) : Action Settings → Option (Calls Settings)
  | .call t operation refusal =>
      match s.stages t with
      | .idle => some (s.enter t (called operation refusal))
      | _ => none
  | .lock t =>
      match s.stages t, s.jobsFileMu with
      | .waiting operation, none => some { s.enter t (.locked operation) with jobsFileMu := some t }
      | _, _ => none
  | .read t fault =>
      match s.stages t with
      | .locked operation =>
          some (s.enter t (readStage operation fault (getScheduledJobs host fault s.file)))
      | _ => none
  | .change t now =>
      match s.stages t with
      | .loaded operation jobs =>
          some (s.enter t (changeStage operation now (change host now jobs operation)))
      | _ => none
  | .write t fault =>
      match s.stages t with
      | .changed operation now jobs =>
          let written := atomicWriteFile fault jobs s.file
          let turn : Turn Settings := { operation := operation, now := now, writeFault := fault }
          some { s.enter t (.leaving turn written.2) with file := written.1 }
      | _ => none
  | .unlock t =>
      match s.stages t with
      | .leaving turn error => some { s.enter t (.done turn error) with jobsFileMu := none }
      | _ => none

def calls (host : Host) (file : File Settings) : System (Calls Settings) (Action Settings) where
  start s := s = Calls.start file
  step s action after := step host s action = some after

/-! Loading a job twice is loading it once. -/

theorem scheduleName_injective (m n : Nat) (same : "s" ++ toString (m + 1) = "s" ++ toString (n + 1)) :
    m = n := by
  have chars := congrArg String.toList same
  simp only [String.toList_append, List.append_cancel_left_eq, Nat.toString_eq_repr,
    Nat.toList_repr] at chars
  have read (k : Nat) : Nat.ofDigitChars 10 (Nat.toDigits 10 k) 0 = k :=
    Nat.ofDigitChars_toDigits (by decide) (by decide)
  have numbers : m + 1 = n + 1 := by rw [← read (m + 1), chars, read]
  omega

/-- Among one name more than are used, one is free. -/
theorem freshId_filled (used : List String) : freshId used ≠ "" := by
  have named : ∀ n : Nat, "s" ++ toString (n + 1) ≠ "" := by
    intro n blank
    have chars := congrArg String.toList blank
    simp [String.toList_append] at chars
  unfold freshId
  cases found : ((List.range (used.length + 1)).map fun n => "s" ++ toString (n + 1)).find?
      (· ∉ used) with
  | some id =>
      obtain ⟨n, _, rfl⟩ := List.mem_map.mp (List.mem_of_find?_eq_some found)
      exact named n
  | none =>
      have all : ((List.range (used.length + 1)).map fun n => "s" ++ toString (n + 1)) ⊆ used := by
        intro id listed
        simpa using List.find?_eq_none.mp found id listed
      have apart : ((List.range (used.length + 1)).map fun n => "s" ++ toString (n + 1)).Nodup :=
        List.Nodup.map (fun m n same => scheduleName_injective m n same) List.nodup_range
      have short := (apart.subperm all).length_le
      simp only [List.length_map, List.length_range] at short
      omega

theorem giveIds_filled (used : List String) (schedules : List Schedule) :
    ∀ s ∈ giveIds used schedules, s.id ≠ "" := by
  induction schedules generalizing used with
  | nil => exact fun _ listed => (List.not_mem_nil listed).elim
  | cons first rest ih =>
      intro s listed
      unfold giveIds at listed
      split at listed
      · next given =>
          rcases List.mem_cons.mp listed with rfl | later
          · exact given
          · exact ih used s later
      · rcases List.mem_cons.mp listed with rfl | later
        · exact freshId_filled used
        · exact ih _ s later

theorem giveIds_again (used : List String) (schedules : List Schedule)
    (filled : ∀ s ∈ schedules, s.id ≠ "") : giveIds used schedules = schedules := by
  induction schedules with
  | nil => rfl
  | cons first rest ih =>
      unfold giveIds
      rw [if_pos (filled first (List.mem_cons_self ..)),
        ih fun s listed => filled s (List.mem_cons_of_mem _ listed)]

theorem jobSchedules_set (job : ScheduledJob) : (jobSchedules job).1 ≠ .unset := by
  unfold jobSchedules
  split
  · assumption
  · split
    · exact Mode.noConfusion
    · exact Mode.noConfusion
    · exact Mode.noConfusion

theorem mirrorFields_upstream (job : ScheduledJob) (s : Schedule) :
    (mirrorFields job s).upstreamFrequency = job.upstreamFrequency ∧
      (mirrorFields job s).upstreamWeekdays = job.upstreamWeekdays ∧
      (mirrorFields job s).upstreamDayOfMonth = job.upstreamDayOfMonth := by
  unfold mirrorFields
  split
  · split <;> exact ⟨rfl, rfl, rfl⟩
  · split <;> exact ⟨rfl, rfl, rfl⟩
  all_goals exact ⟨rfl, rfl, rfl⟩

theorem mirrorFields_again (job mirrored : ScheduledJob) (s : Schedule)
    (cleared : job.triggerMode = .manual) (written : mirrored = mirrorFields job s) :
    mirrorFields { mirrored with triggerMode := .manual } s = mirrored := by
  subst mirrored
  cases unit : s.unit with
  | days =>
      by_cases one : s.every = 1
      · simp [mirrorFields, unit, one]
      · simp [mirrorFields, unit, one, ← cleared]
  | weeks =>
      by_cases one : s.every = 1
      · simp [mirrorFields, unit, one]
      · simp [mirrorFields, unit, one, ← cleared]
  | minutes => simp [mirrorFields, unit]
  | hours => simp [mirrorFields, unit]
  | months => simp [mirrorFields, unit, ← cleared]
  | years => simp [mirrorFields, unit, ← cleared]
  | unknown => simp [mirrorFields, unit, ← cleared]

theorem mirrorLegacyTrigger_upstream (job : ScheduledJob) :
    (mirrorLegacyTrigger job).upstreamFrequency = job.upstreamFrequency ∧
      (mirrorLegacyTrigger job).upstreamWeekdays = job.upstreamWeekdays ∧
      (mirrorLegacyTrigger job).upstreamDayOfMonth = job.upstreamDayOfMonth := by
  unfold mirrorLegacyTrigger
  simp only
  split
  · exact ⟨rfl, rfl, rfl⟩
  · split
    · exact mirrorFields_upstream _ _
    · exact ⟨rfl, rfl, rfl⟩

/-- What the first enabled schedule makes of a job that is not manual. -/
def mirrored (k : ScheduledJob) : Option Schedule → ScheduledJob
  | some s => mirrorFields { k with triggerMode := .manual } s
  | none => { k with triggerMode := .manual }

theorem mirrorLegacyTrigger_again (job : ScheduledJob) :
    mirrorLegacyTrigger (mirrorLegacyTrigger job) = mirrorLegacyTrigger job := by
  obtain ⟨mode, schedules⟩ := mirrorLegacyTrigger_keeps job
  have shape (k : ScheduledJob) : mirrorLegacyTrigger k =
      if k.scheduleMode = .manual then { k with triggerMode := .manual }
      else mirrored k (k.schedules.find? (·.enabled)) := by
    cases first : k.schedules.find? (·.enabled) <;> simp only [mirrorLegacyTrigger, first, mirrored]
  by_cases manual : job.scheduleMode = .manual
  · rw [shape (mirrorLegacyTrigger job), if_pos (mode.trans manual), shape job, if_pos manual]
  · have enabled := congrArg (List.find? (·.enabled)) schedules
    have written := shape job
    rw [if_neg manual] at written
    rw [shape (mirrorLegacyTrigger job), if_neg fun still => manual (mode.symm.trans still)]
    cases first : job.schedules.find? (·.enabled) with
    | none =>
        rw [first] at written enabled
        rw [enabled]
        simp only [written, mirrored]
    | some s =>
        rw [first] at written enabled
        rw [enabled]
        exact mirrorFields_again { job with triggerMode := .manual } _ s rfl written

theorem normalizeJobSchedules_again (job : ScheduledJob) :
    normalizeJobSchedules (normalizeJobSchedules job) = normalizeJobSchedules job := by
  obtain ⟨k, written, set_, filled, frequency, weekdays, day⟩ : ∃ k : ScheduledJob,
      normalizeJobSchedules job = mirrorLegacyTrigger k ∧ k.scheduleMode ≠ .unset ∧
        (∀ s ∈ k.schedules, s.id ≠ "") ∧ k.upstreamFrequency = .unset ∧
        k.upstreamWeekdays = [] ∧ k.upstreamDayOfMonth = 0 :=
    ⟨_, rfl, jobSchedules_set _, giveIds_filled _ _, rfl, rfl, rfl⟩
  obtain ⟨mode, schedules⟩ := mirrorLegacyTrigger_keeps k
  obtain ⟨frequencyKept, weekdaysKept, dayKept⟩ := mirrorLegacyTrigger_upstream k
  have unmoved : migrateUpstreamJob (mirrorLegacyTrigger k) = mirrorLegacyTrigger k := by
    have cleared : ({ mirrorLegacyTrigger k with
        upstreamFrequency := .unset, upstreamWeekdays := [], upstreamDayOfMonth := 0 } :
          ScheduledJob) = mirrorLegacyTrigger k := by
      rw [← frequency, ← weekdays, ← day, ← frequencyKept, ← weekdaysKept, ← dayKept]
    unfold migrateUpstreamJob
    simp only [mode, set_, decide_false, Bool.false_and, Bool.false_eq_true, if_false]
    rw [← mode]
    exact cleared
  have listed : jobSchedules (mirrorLegacyTrigger k) =
      ((mirrorLegacyTrigger k).scheduleMode, (mirrorLegacyTrigger k).schedules) := by
    rw [jobSchedules, if_pos (by rw [mode]; exact set_)]
  have ids : giveIds ((mirrorLegacyTrigger k).schedules.map (·.id)) (mirrorLegacyTrigger k).schedules =
      (mirrorLegacyTrigger k).schedules := by
    apply giveIds_again
    rw [schedules]
    exact filled
  rw [written]
  unfold normalizeJobSchedules
  simp only [unmoved, listed, ids]
  exact mirrorLegacyTrigger_again k

theorem normalizeJob_again (job : Job Settings) : normalizeJob (normalizeJob job) = normalizeJob job := by
  unfold normalizeJob
  simp [normalizeJobSchedules_again]

theorem pins_cases (host : Host) (job : Job Settings) :
    migrateUpstreamDiskPins host job = job ∨
      ∃ ids, migrateUpstreamDiskPins host job = { job with diskIDs := ids } := by
  unfold migrateUpstreamDiskPins
  simp only
  split
  · exact .inl rfl
  · split
    · exact .inr ⟨_, rfl⟩
    · exact .inl rfl

theorem loaded_again (host : Host) (job : Job Settings) :
    loaded host (loaded host job) = loaded host job := by
  have pinned : normalizeJob (migrateUpstreamDiskPins host (normalizeJob job)) =
      migrateUpstreamDiskPins host (normalizeJob job) := by
    rcases pins_cases host (normalizeJob job) with same | ⟨ids, given⟩
    · rw [same, normalizeJob_again]
    · have same := normalizeJob_again job
      rw [given]
      simpa [normalizeJob] using same
  have again : ∀ job : Job Settings,
      migrateUpstreamDiskPins host (migrateUpstreamDiskPins host job) =
        migrateUpstreamDiskPins host job := by
    intro job
    by_cases skip : (job.backupType ≠ "machine" || job.driveLetters.isEmpty ||
        !job.diskIDs.isEmpty) = true
    · simp only [migrateUpstreamDiskPins, if_pos skip]
    · by_cases found : (job.driveLetters.map host.identityOf).any (· ≠ "") = true
      · have filled : (job.driveLetters.map host.identityOf).isEmpty = false := by
          cases letters : job.driveLetters with
          | nil => simp [letters] at found
          | cons => rfl
        simp only [migrateUpstreamDiskPins, if_neg skip, if_pos found, filled]
        simp
      · simp only [migrateUpstreamDiskPins, if_neg skip, if_neg found]
  unfold loaded
  rw [pinned, again]

theorem loaded_id (host : Host) (job : Job Settings) : (loaded host job).id = job.id := by
  unfold loaded
  rcases pins_cases host (normalizeJob job) with same | ⟨ids, given⟩
  · rw [same]
    rfl
  · rw [given]
    rfl

/-! What one call does to the jobs of others. -/

def others (own : String) (jobs : List (Job Settings)) : List (Job Settings) :=
  jobs.filter (·.id ≠ own)

theorem changeFirst_others (id : String) (f : Job Settings → Job Settings)
    (keeps : ∀ job, job.id = id → (f job).id = id) (jobs after : List (Job Settings))
    (changed : changeFirst id f jobs = some after) : others id after = others id jobs := by
  induction jobs generalizing after with
  | nil => cases changed
  | cons job rest ih =>
      unfold changeFirst at changed
      split at changed
      · next own =>
          cases changed
          simp [others, keeps job own, own]
      · obtain ⟨tail, found, rfl⟩ := Option.map_eq_some_iff.mp changed
          -- the job before the one looked for stays at the front of both
        have same := ih tail found
        simp only [others, List.filter_cons] at same ⊢
        rw [same]

theorem change_others (host : Host) (now : Int) (jobs after : List (Job Settings))
    (operation : Operation Settings) (changed : change host now jobs operation = .ok (some after)) :
    others operation.own after = others operation.own jobs := by
  cases operation with
  | save job =>
      simp only [change] at changed
      split at changed
      · cases changed
        simp [others, Operation.own, setNextRun, normalizeJob]
      · cases changed
  | update job =>
      simp only [change] at changed
      split at changed
      · split at changed
        · next found =>
            cases changed
            refine changeFirst_others job.id _ ?_ jobs after found
            exact fun _ _ => rfl
        · cases changed
      · cases changed
  | setEnabled id enabled =>
      simp only [change] at changed
      split at changed
      · next found =>
          cases changed
          refine changeFirst_others id _ ?_ jobs after found
          intro job own
          cases enabled with
          | false => exact own
          | true => exact own
      · cases changed
  | delete id =>
      cases changed
      rw [others, others, List.filter_filter]
      apply List.filter_congr
      intro job _
      by_cases own : job.id = id
      · simp [Operation.own, own]
      · simp [Operation.own, own]
  | finishRun id =>
      refine changeFirst_others id _ ?_ jobs after (Except.ok.inj changed)
      exact fun _ own => own
  | countRun id success readEveryFile =>
      simp only [change] at changed
      split at changed
      · split at changed
        · cases changed
        · refine changeFirst_others id _ ?_ jobs after (Except.ok.inj changed)
          exact fun _ own => own
      · cases changed

/-- The jobs a call would read. -/
def jobsOf (host : Host) (file : File Settings) : Except String (List (Job Settings)) :=
  getScheduledJobs host none file

theorem jobsOf_loaded (host : Host) (file : File Settings) (jobs : List (Job Settings))
    (read : jobsOf host file = .ok jobs) : jobs.map (loaded host) = jobs := by
  cases file with
  | missing =>
      cases read
      rfl
  | damaged error => cases read
  | holds stored =>
      cases read
      rw [List.map_map]
      apply List.map_congr_left
      exact fun job _ => loaded_again host job

/-- What a call has read is what the file holds. -/
theorem read_ok (host : Host) (fault : Option String) (file : File Settings)
    (jobs : List (Job Settings)) (read : getScheduledJobs host fault file = .ok jobs) :
    fault = none ∧ jobsOf host file = .ok jobs := by
  cases fault with
  | none => exact ⟨rfl, read⟩
  | some error => cases file <;> cases read

theorem others_loaded (host : Host) (own : String) (jobs : List (Job Settings)) :
    others own (jobs.map (loaded host)) = (others own jobs).map (loaded host) := by
  unfold others
  rw [List.filter_map]
  congr 1
  apply List.filter_congr
  intro job _
  simp [loaded_id]

/-- Alone, a call fails and leaves the file, or keeps every job but its own. -/
theorem perform_cases (host : Host) (turn : Turn Settings) (file : File Settings) :
    (perform host turn file).1 = file ∨
      (perform host turn file).2 = none ∧ ∃ jobs after, jobsOf host file = .ok jobs ∧
        change host turn.now jobs turn.operation = .ok (some after) ∧
        (perform host turn file).1 = .holds after := by
  unfold perform
  split
  · exact .inl rfl
  · split
    · exact .inl rfl
    · next jobs read =>
        split
        · exact .inl rfl
        · exact .inl rfl
        · next after changed =>
            cases turn.writeFault with
            | some error => exact .inl rfl
            | none => exact .inr ⟨rfl, jobs, after, (read_ok host _ _ _ read).2, changed, rfl⟩

theorem perform_failed (host : Host) (turn : Turn Settings) (file : File Settings)
    (error : String) (failed : (perform host turn file).2 = some error) :
    (perform host turn file).1 = file := by
  rcases perform_cases host turn file with same | ⟨passed, _⟩
  · exact same
  · rw [passed] at failed
    cases failed

theorem perform_others (host : Host) (turn : Turn Settings) (file : File Settings)
    (jobs : List (Job Settings)) (read : jobsOf host file = .ok jobs) :
    ∃ after, jobsOf host (perform host turn file).1 = .ok after ∧
      others turn.operation.own after = others turn.operation.own jobs := by
  rcases perform_cases host turn file with same | ⟨_, before, after, readToo, changed, written⟩
  · exact ⟨jobs, by rw [same, read], rfl⟩
  · rw [read] at readToo
    cases readToo
    have kept := change_others host turn.now jobs after turn.operation changed
    refine ⟨after.map (loaded host), by rw [written]; rfl, ?_⟩
    rw [others_loaded, kept, ← others_loaded, jobsOf_loaded host file jobs read]

/-! The calls that are over, in the order they used the file. -/

structure Done (Settings : Type) where
  thread : Nat
  turn : Turn Settings
  error : Option String
  deriving DecidableEq

/-- One at a time from `file`, with the same errors, the calls end in `last`. -/
def OneAtATime (host : Host) : File Settings → List (Done Settings) → File Settings → Prop
  | file, [], last => file = last
  | file, call :: rest, last =>
      (perform host call.turn file).2 = call.error ∧
        OneAtATime host (perform host call.turn file).1 rest last

theorem oneAtATime_snoc (host : Host) (file middle : File Settings) (order : List (Done Settings))
    (call : Done Settings) (before : OneAtATime host file order middle)
    (same : (perform host call.turn middle).2 = call.error) :
    OneAtATime host file (order ++ [call]) (perform host call.turn middle).1 := by
  induction order generalizing file with
  | nil =>
      cases before
      exact ⟨same, rfl⟩
  | cons first rest ih => exact ⟨before.1, ih _ before.2⟩

/-- The call of a thread that will not touch the file any more. -/
def Stage.ended : Stage Settings → Option (Turn Settings × Option String)
  | .leaving turn error | .done turn error => some (turn, error)
  | _ => none

def Stage.holding : Stage Settings → Bool
  | .locked _ | .loaded _ _ | .changed _ _ _ | .leaving _ _ => true
  | _ => false

/-- What a thread with the lock knows of the file. -/
def Stage.Knows (host : Host) (file : File Settings) : Stage Settings → Prop
  | .loaded _ jobs => jobsOf host file = .ok jobs
  | .changed operation now after =>
      ∃ jobs, jobsOf host file = .ok jobs ∧ change host now jobs operation = .ok (some after)
  | _ => True

/-- The order lists each thread that is over, once, as it ended. -/
structure Lists (stages : Nat → Stage Settings) (order : List (Done Settings)) : Prop where
  once : (order.map (·.thread)).Nodup
  all : ∀ call, call ∈ order ↔ (stages call.thread).ended = some (call.turn, call.error)

structure Serial (host : Host) (file : File Settings) (s : Calls Settings) : Prop where
  held : ∀ t, (s.stages t).holding = true ↔ s.jobsFileMu = some t
  knows : ∀ t, (s.stages t).Knows host s.file
  ordered : ∃ order, Lists s.stages order ∧ OneAtATime host file order s.file

theorem held_enter {s : Calls Settings}
    (held : ∀ u, (s.stages u).holding = true ↔ s.jobsFileMu = some u) (t : Nat)
    (stage : Stage Settings) (same : stage.holding = (s.stages t).holding) (u : Nat) :
    ((s.enter t stage).stages u).holding = true ↔ s.jobsFileMu = some u := by
  by_cases self : u = t
  · subst u
    simpa [Calls.enter, same] using held t
  · simpa [Calls.enter, self] using held u

theorem knows_enter {host : Host} {s : Calls Settings} {file : File Settings} (t : Nat)
    (stage : Stage Settings) (knows : ∀ u, u ≠ t → (s.stages u).Knows host file)
    (new : stage.Knows host file) (u : Nat) : ((s.enter t stage).stages u).Knows host file := by
  by_cases self : u = t
  · subst u
    simpa [Calls.enter] using new
  · simpa [Calls.enter, self] using knows u self

theorem lists_enter {s : Calls Settings} {order : List (Done Settings)}
    (lists : Lists s.stages order) (t : Nat) (stage : Stage Settings)
    (same : stage.ended = (s.stages t).ended) : Lists (s.enter t stage).stages order := by
  refine ⟨lists.once, fun call => ?_⟩
  rw [lists.all]
  by_cases self : call.thread = t
  · simp [Calls.enter, self, same]
  · simp [Calls.enter, self]

theorem lists_over {s : Calls Settings} {order : List (Done Settings)}
    (lists : Lists s.stages order) (t : Nat) (stage : Stage Settings) (turn : Turn Settings)
    (error : Option String) (open_ : (s.stages t).ended = none)
    (ends : stage.ended = some (turn, error)) :
    Lists (s.enter t stage).stages (order ++ [⟨t, turn, error⟩]) := by
  have fresh : ∀ call ∈ order, call.thread ≠ t := by
    intro call listed self
    have done := (lists.all call).mp listed
    rw [self, open_] at done
    cases done
  constructor
  · rw [List.map_append, List.nodup_append]
    refine ⟨lists.once, List.nodup_singleton _, ?_⟩
    intro a listed b last same
    obtain ⟨call, member, rfl⟩ := List.mem_map.mp listed
    cases List.mem_singleton.mp last
    exact fresh call member same
  · intro call
    rw [List.mem_append, List.mem_singleton]
    by_cases self : call.thread = t
    · simp only [Calls.enter, self, Function.update_self, ends]
      constructor
      · intro either
        rcases either with listed | rfl
        · exact (fresh call listed self).elim
        · rfl
      · intro same
        right
        cases call
        cases self
        cases same
        rfl
    · simp only [Calls.enter, ne_eq, self, not_false_eq_true, Function.update_of_ne, ← lists.all]
      constructor
      · intro either
        rcases either with listed | rfl
        · exact listed
        · exact (self rfl).elim
      · exact Or.inl

/-- A thread without the lock knows nothing that could go out of date. -/
theorem knows_nothing (host : Host) (file : File Settings) (stage : Stage Settings)
    (out : stage.holding ≠ true) : stage.Knows host file := by
  cases stage with
  | loaded => exact (out rfl).elim
  | changed => exact (out rfl).elim
  | idle => trivial
  | waiting => trivial
  | locked => trivial
  | leaving => trivial
  | done => trivial

/-- A step that ends a call where it stands adds it to the order. -/
theorem ordered_over {host : Host} {file last : File Settings} {s : Calls Settings}
    (ordered : ∃ order, Lists s.stages order ∧ OneAtATime host file order s.file) (t : Nat)
    (stage : Stage Settings) (turn : Turn Settings) (error : Option String)
    (open_ : (s.stages t).ended = none) (ends : stage.ended = some (turn, error))
    (performed : perform host turn s.file = (last, error)) :
    ∃ order, Lists (s.enter t stage).stages order ∧ OneAtATime host file order last := by
  obtain ⟨order, lists, replay⟩ := ordered
  refine ⟨order ++ [⟨t, turn, error⟩], lists_over lists t stage turn error open_ ends, ?_⟩
  have next := oneAtATime_snoc host file s.file order ⟨t, turn, error⟩ replay
    (congrArg Prod.snd performed)
  rwa [congrArg Prod.fst performed] at next

theorem ordered_stays {host : Host} {file : File Settings} {s : Calls Settings}
    (ordered : ∃ order, Lists s.stages order ∧ OneAtATime host file order s.file) (t : Nat)
    (stage : Stage Settings) (same : stage.ended = (s.stages t).ended) :
    ∃ order, Lists (s.enter t stage).stages order ∧ OneAtATime host file order s.file := by
  obtain ⟨order, lists, replay⟩ := ordered
  exact ⟨order, lists_enter lists t stage same, replay⟩

theorem serial_start (host : Host) (file : File Settings) :
    Serial host file (Calls.start file) where
  held t := by simp [Calls.start, Stage.holding]
  knows t := trivial
  ordered := ⟨[], ⟨List.nodup_nil, fun call => by simp [Calls.start, Stage.ended]⟩, rfl⟩

theorem serial_call {host : Host} {file : File Settings} {s : Calls Settings}
    (serial : Serial host file s) (t : Nat) (operation : Operation Settings)
    (refusal : Option String) (idle : s.stages t = .idle) :
    Serial host file (s.enter t (called operation refusal)) := by
  cases refusal with
  | some error =>
      constructor
      · exact held_enter serial.held t _ (by rw [idle]; rfl)
      · exact knows_enter t _ (fun u _ => serial.knows u) trivial
      · exact ordered_over serial.ordered t _ _ _ (by rw [idle]; rfl) rfl rfl
  | none =>
      constructor
      · exact held_enter serial.held t _ (by rw [idle]; rfl)
      · exact knows_enter t _ (fun u _ => serial.knows u) trivial
      · exact ordered_stays serial.ordered t _ (by rw [idle]; rfl)

theorem serial_lock {host : Host} {file : File Settings} {s : Calls Settings}
    (serial : Serial host file s) (t : Nat) (operation : Operation Settings)
    (waiting : s.stages t = .waiting operation) (free : s.jobsFileMu = none) :
    Serial host file { s.enter t (.locked operation) with jobsFileMu := some t } := by
  constructor
  · intro u
    by_cases self : u = t
    · simp [Calls.enter, self, Stage.holding]
    · have out := serial.held u
      rw [free] at out
      simp [Calls.enter, self, Ne.symm self, out]
  · exact knows_enter t _ (fun u _ => serial.knows u) trivial
  · exact ordered_stays serial.ordered t _ (by rw [waiting]; rfl)

theorem serial_read {host : Host} {file : File Settings} {s : Calls Settings}
    (serial : Serial host file s) (t : Nat) (operation : Operation Settings)
    (fault : Option String) (locked : s.stages t = .locked operation) :
    Serial host file
      (s.enter t (readStage operation fault (getScheduledJobs host fault s.file))) := by
  cases read : getScheduledJobs host fault s.file with
  | error error =>
      constructor
      · exact held_enter serial.held t _ (by rw [locked]; rfl)
      · exact knows_enter t _ (fun u _ => serial.knows u) trivial
      · refine ordered_over serial.ordered t _ _ _ (by rw [locked]; rfl) rfl ?_
        simp only [perform, read]
        rfl
  | ok jobs =>
      constructor
      · exact held_enter serial.held t _ (by rw [locked]; rfl)
      · exact knows_enter t _ (fun u _ => serial.knows u) (read_ok host fault s.file jobs read).2
      · exact ordered_stays serial.ordered t _ (by rw [locked]; rfl)

theorem serial_change {host : Host} {file : File Settings} {s : Calls Settings}
    (serial : Serial host file s) (t : Nat) (operation : Operation Settings) (now : Int)
    (jobs : List (Job Settings)) (loaded : s.stages t = .loaded operation jobs) :
    Serial host file (s.enter t (changeStage operation now (change host now jobs operation))) := by
  have read : getScheduledJobs host none s.file = .ok jobs := by
    have knows := serial.knows t
    rw [loaded] at knows
    exact knows
  have holds : ∀ stage : Stage Settings, stage.holding = true →
      ∀ u, ((s.enter t stage).stages u).holding = true ↔ s.jobsFileMu = some u := by
    intro stage holding
    exact held_enter serial.held t stage (by rw [loaded, holding]; rfl)
  cases made : change host now jobs operation with
  | error error =>
      refine ⟨holds _ rfl, knows_enter t _ (fun u _ => serial.knows u) trivial, ?_⟩
      refine ordered_over serial.ordered t _ _ _ (by rw [loaded]; rfl) rfl ?_
      simp only [perform, read, made]
      rfl
  | ok changed =>
      cases changed with
      | none =>
          refine ⟨holds _ rfl, knows_enter t _ (fun u _ => serial.knows u) trivial, ?_⟩
          refine ordered_over serial.ordered t _ _ _ (by rw [loaded]; rfl) rfl ?_
          simp only [perform, read, made]
          rfl
      | some after =>
          refine ⟨holds _ rfl, ?_, ordered_stays serial.ordered t _ (by rw [loaded]; rfl)⟩
          exact knows_enter t _ (fun u _ => serial.knows u) ⟨jobs, read, made⟩

theorem serial_write {host : Host} {file : File Settings} {s : Calls Settings}
    (serial : Serial host file s) (t : Nat) (operation : Operation Settings) (now : Int)
    (jobs : List (Job Settings)) (fault : Option String) (turn : Turn Settings)
    (changed : s.stages t = .changed operation now jobs)
    (taken : turn = { operation := operation, now := now, writeFault := fault }) :
    perform host turn s.file = atomicWriteFile fault jobs s.file ∧
      Serial host file { s.enter t (.leaving turn (atomicWriteFile fault jobs s.file).2) with
        file := (atomicWriteFile fault jobs s.file).1 } := by
  subst turn
  have knows := serial.knows t
  rw [changed] at knows
  obtain ⟨before, read, made⟩ := knows
  have performed : perform host { operation := operation, now := now, writeFault := fault } s.file =
      atomicWriteFile fault jobs s.file := by
    have loaded : getScheduledJobs host none s.file = .ok before := read
    simp only [perform, loaded, made]
  have mine : s.jobsFileMu = some t := (serial.held t).mp (by rw [changed]; rfl)
  refine ⟨performed, ?_⟩
  constructor
  · exact held_enter serial.held t _ (by rw [changed]; rfl)
  · refine knows_enter t _ (fun u other => ?_) trivial
    apply knows_nothing
    intro holding
    have same := (serial.held u).mp holding
    rw [mine] at same
    exact other (Option.some.inj same).symm
  · exact ordered_over serial.ordered t _ _ _ (by rw [changed]; rfl) rfl performed

theorem serial_unlock {host : Host} {file : File Settings} {s : Calls Settings}
    (serial : Serial host file s) (t : Nat) (turn : Turn Settings) (error : Option String)
    (leaving : s.stages t = .leaving turn error) :
    Serial host file { s.enter t (.done turn error) with jobsFileMu := none } := by
  have mine : s.jobsFileMu = some t := (serial.held t).mp (by rw [leaving]; rfl)
  constructor
  · intro u
    by_cases self : u = t
    · simp [Calls.enter, self, Stage.holding]
    · have out := serial.held u
      rw [mine] at out
      simp [Calls.enter, self, out, Ne.symm self]
  · exact knows_enter t _ (fun u _ => serial.knows u) trivial
  · exact ordered_stays serial.ordered t _ (by rw [leaving]; rfl)

/-- A step leaves the file, or is the write of one whole call. -/
structure Taken (host : Host) (file : File Settings) (s after : Calls Settings) : Prop where
  serial : Serial host file after
  writes : after.file = s.file ∨ ∃ t turn, (after.stages t).ended = some (turn, none) ∧
    perform host turn s.file = (after.file, none)

theorem serial_step {host : Host} {file : File Settings} {s after : Calls Settings}
    (serial : Serial host file s) (action : Action Settings)
    (taken : step host s action = some after) : Taken host file s after := by
  unfold step at taken
  split at taken
  · split at taken
    · next t operation refusal _ idle =>
        cases taken
        exact ⟨serial_call serial t operation refusal idle, .inl rfl⟩
    · cases taken
  · split at taken
    · next t _ _ operation waiting free =>
        cases taken
        exact ⟨serial_lock serial t operation waiting free, .inl rfl⟩
    · cases taken
  · split at taken
    · next t fault _ operation locked =>
        cases taken
        exact ⟨serial_read serial t operation fault locked, .inl rfl⟩
    · cases taken
  · split at taken
    · next t now _ operation jobs loaded =>
        cases taken
        exact ⟨serial_change serial t operation now jobs loaded, .inl rfl⟩
    · cases taken
  · split at taken
    · next t fault _ operation now jobs changed =>
        cases taken
        obtain ⟨performed, next⟩ := serial_write serial t operation now jobs fault _ changed rfl
        refine ⟨next, ?_⟩
        cases fault with
        | some error => exact .inl rfl
        | none =>
            refine .inr ⟨t, _, ?_, performed⟩
            simp [Calls.enter, Stage.ended, atomicWriteFile]
    · cases taken
  · split at taken
    · next t _ turn error leaving =>
        cases taken
        exact ⟨serial_unlock serial t turn error leaving, .inl rfl⟩
    · cases taken

def manualJob (id name : String) : Job Unit where
  id := id
  name := name
  enabled := true
  backupType := "directory"
  driveLetters := []
  diskIDs := []
  pbsServerID := ""
  machineAsVM := false
  upstreamPBSID := ""
  upstreamBackupKind := ""
  changeDetectionMode := ""
  metadataRunsSinceFullRead := 0
  lastRun := none
  nextRun := none
  schedule := { scheduleMode := .manual, triggerMode := .manual }
  settings := ()

def plainHost : Host where
  zone := utc
  identityOf := fun _ => ""
  blank := (· = "")
  sameName := (· = ·)

def twoCalls : List (Action Unit) :=
  [.call 0 (.save (manualJob "b" "Second")) none, .call 1 (.delete "a") none, .lock 0,
    .call 2 (.update (manualJob "a" "First")) (some "administrators only"), .read 0 none,
    .change 0 10, .write 0 none, .unlock 0, .lock 1, .read 1 none, .change 1 20, .write 1 none,
    .unlock 1]

end ProxmoxBackup.JobsFile
