import ProxmoxBackup.JobsFile

/-! The full reads of a metadata-mode Backup Set (gui/change_detection_job.go and
executeScheduledJob): the scheduler's tick and Run now read the set and give a
goroutine its copy, which decides how the run reads when it starts; when the run
ends, the counter of the set as it is stored by then is moved. Any other calls on
the jobs file come in between. -/

namespace ProxmoxBackup.FullReads

open JobsFile TransitionSystem

variable {Other : Type}

/-- The fields of a set the calls on the jobs file leave alone. -/
structure RunSettings (Other : Type) where
  fullReadEvery : Int
  other : Other
  deriving DecidableEq

abbrev BackupSet (Other : Type) : Type := Job (RunSettings Other)

/-- The run's mode, and what the counter comes to. -/
def changeDetectionForRun (job : BackupSet Other) : String × Int :=
  if job.backupType = "machine" then ("", job.metadataRunsSinceFullRead)
  else if job.changeDetectionMode = "metadata" then
    if job.settings.fullReadEvery > 0 ∧
        job.metadataRunsSinceFullRead + 1 ≥ job.settings.fullReadEvery then ("data", 0)
    else ("metadata", job.metadataRunsSinceFullRead + 1)
  else if job.changeDetectionMode = "data" then ("data", 0)
  else ("", 0)

/-- The mode after Run now's choice, and whether it is the schedule's full read
or the one asked for. -/
def applyRequestedRead (job : BackupSet Other) (requestedRead mode : String) :
    String × Bool × Bool :=
  if job.backupType = "machine" ∨ job.changeDetectionMode ≠ "metadata" then (mode, false, false)
  else if requestedRead = "full" then ("data", false, true)
  else if requestedRead = "quick" then ("metadata", false, false)
  else (mode, mode = "data", false)

def runMode (job : BackupSet Other) (requestedRead : String) : String :=
  (applyRequestedRead job requestedRead (changeDetectionForRun job).1).1

/-- What the run reports at its end: nothing of it was compared with a usable
previous snapshot. The classic format does not report. -/
def readEveryFile (mode : String) (nonePrevious : Bool) : Bool :=
  mode = "data" || mode = "metadata" && nonePrevious

/-! One set's runs. -/

/-- What a goroutine of executeScheduledJob was given. -/
structure Copy (Other : Type) where
  job : BackupSet Other
  requestedRead : String

structure Ended where
  success : Bool
  readEveryFile : Bool
  deriving DecidableEq

/-- `running` is the mode registered for the run that holds the set in
runningJobs, `ended` its runs so far. -/
structure SetRuns (Other : Type) where
  file : File (RunSettings Other)
  copies : List (Copy Other)
  running : Option String
  ended : List Ended

/-- `call` is any whole call on the jobs file, `restart` the end of the process. -/
inductive Action (Other : Type) where
  | call (turn : Turn (RunSettings Other))
  | dispatch (readFault : Option String) (requestedRead : String)
  | start (copy : Nat)
  | finish (success nonePrevious : Bool) (readFault writeFault : Option String)
  | restart

def stored (host : Host) (id : String) (readFault : Option String)
    (file : File (RunSettings Other)) : Option (BackupSet Other) :=
  (getScheduledJobs host readFault file).toOption.bind (·.find? (·.id = id))

/-- The call of recordChangeDetectionOutcome at a run's end. -/
def outcome (id : String) (success readEveryFile : Bool) (readFault writeFault : Option String) :
    Turn (RunSettings Other) where
  operation := .countRun id success readEveryFile
  readFault := readFault
  writeFault := writeFault

/-- A copy that finds the set running is dropped. -/
def started (s : SetRuns Other) (copy : Copy Other) : Option String :=
  s.running.or (some (runMode copy.job copy.requestedRead))

def step (host : Host) (id : String) (s : SetRuns Other) : Action Other → Option (SetRuns Other)
  | .call turn => some { s with file := (perform host turn s.file).1 }
  | .dispatch readFault requestedRead =>
      (stored host id readFault s.file).map fun job =>
        { s with copies := s.copies ++ [⟨job, requestedRead⟩] }
  | .start k =>
      s.copies[k]?.map fun copy =>
        { s with copies := s.copies.eraseIdx k, running := started s copy }
  | .finish success nonePrevious readFault writeFault =>
      s.running.map fun mode =>
        let every := readEveryFile mode nonePrevious
        { s with
          file := (perform host (outcome id success every readFault writeFault) s.file).1
          running := none
          ended := s.ended ++ [⟨success, every⟩] }
  | .restart => some { s with copies := [], running := none }

def SetRuns.start (file : File (RunSettings Other)) : SetRuns Other := ⟨file, [], none, []⟩

def runs (host : Host) (id : String) (file : File (RunSettings Other)) :
    System (SetRuns Other) (Action Other) where
  start s := s = SetRuns.start file
  step s action after := step host id s action = some after

/-! What the set is promised: a full read among any N successful runs in a row. -/

/-- A metadata-mode set that reads every file on every Nth run. -/
def readsEvery (every : Int) (job : BackupSet Other) : Bool :=
  job.backupType ≠ "machine" && job.changeDetectionMode = "metadata" &&
    job.settings.fullReadEvery = every

def FullReadKept (every : Int) (ended : List Ended) : Prop :=
  ∀ before window after, ended.filter (·.success) = before ++ window ++ after →
    (window.length : Int) = every → ∃ run ∈ window, run.readEveryFile = true

/-- What one run makes of the number of runs since the last full read. -/
def counted (count : Int) (run : Ended) : Int :=
  if run.success then if run.readEveryFile then 0 else count + 1 else count

/-- The successful runs since the last full read, from a count at the start. -/
def sinceFullRead (count : Int) (ended : List Ended) : Int := ended.foldl counted count

/-- Calls that edit the set, and any calls on others; only the ends of its runs
move its counter. -/
def edits (id : String) : Operation (RunSettings Other) → Bool
  | .save job => job.id ≠ id
  | .delete other | .countRun other _ _ => other ≠ id
  | .update _ | .setEnabled _ _ | .finishRun _ => true

/-- The set is edited only, and is a metadata-mode set with the same N when a run
of it starts; no run is a quick one asked for. -/
def asked (host : Host) (id : String) (every : Int) (s : SetRuns Other) : Action Other → Bool
  | .call turn => edits id turn.operation
  | .start k =>
      (stored host id none s.file).any (readsEvery every) &&
        s.copies[k]?.all (·.requestedRead ≠ "quick")
  | _ => true

/-- The copy still has what the decision is made from. -/
def fresh (copy job : BackupSet Other) : Bool :=
  copy.backupType = job.backupType && copy.changeDetectionMode = job.changeDetectionMode &&
    copy.settings.fullReadEvery = job.settings.fullReadEvery &&
    copy.metadataRunsSinceFullRead = job.metadataRunsSinceFullRead

/-- The run is still counted by the set's mode when it ends. -/
def countsRun (every : Bool) (job : BackupSet Other) : Bool :=
  job.backupType ≠ "machine" && (job.changeDetectionMode = "metadata" || every)

/-- A run starts from the set as it is stored; where one succeeds, the counter is
saved, and the set has not left metadata mode unless the run read every file. -/
def inOrder (host : Host) (id : String) (s : SetRuns Other) : Action Other → Bool
  | .start k =>
      s.copies[k]?.all fun copy => (stored host id none s.file).all (fresh copy.job)
  | .finish true nonePrevious readFault writeFault =>
      readFault.isNone && writeFault.isNone && s.running.all fun mode =>
        (stored host id none s.file).all (countsRun (readEveryFile mode nonePrevious))
  | _ => true

/-! The set in the jobs file. -/

theorem loaded_run (host : Host) (job : BackupSet Other) :
    (loaded host job).metadataRunsSinceFullRead = job.metadataRunsSinceFullRead := by
  unfold loaded
  rcases pins_cases host (normalizeJob job) with same | ⟨ids, given⟩
  · rw [same]
    rfl
  · rw [given]
    rfl

theorem changeFirst_find (id : String) (f : BackupSet Other → BackupSet Other)
    (keeps : ∀ job, job.id = id → (f job).id = id) (jobs after : List (BackupSet Other))
    (changed : changeFirst id f jobs = some after) :
    after.find? (·.id = id) = (jobs.find? (·.id = id)).map f := by
  induction jobs generalizing after with
  | nil => cases changed
  | cons job rest ih =>
      unfold changeFirst at changed
      split at changed
      · next own =>
          cases changed
          simp [own, keeps job own]
      · next other =>
          obtain ⟨tail, found, rfl⟩ := Option.map_eq_some_iff.mp changed
          simpa [other] using ih tail found

theorem stored_holds (host : Host) (id : String) (jobs : List (BackupSet Other)) :
    stored host id none (.holds jobs) = (jobs.find? (·.id = id)).map (loaded host) := by
  have same : (fun job : BackupSet Other => decide (job.id = id)) ∘ loaded host =
      fun job => decide (job.id = id) := by
    funext job
    simp [loaded_id]
  show (jobs.map (loaded host)).find? (fun job => decide (job.id = id)) = _
  rw [List.find?_map, same]

theorem stored_some {host : Host} {id : String} {file : File (RunSettings Other)}
    {job : BackupSet Other} (found : stored host id none file = some job) :
    ∃ jobs, jobsOf host file = .ok jobs ∧ jobs.find? (·.id = id) = some job := by
  unfold stored at found
  cases read : getScheduledJobs host none file with
  | error error =>
      rw [read] at found
      cases found
  | ok jobs =>
      rw [read] at found
      exact ⟨jobs, read, found⟩

/-- A call on another set leaves this one as it was. -/
theorem stored_others {host : Host} {id : String} {file : File (RunSettings Other)}
    {job : BackupSet Other} (turn : Turn (RunSettings Other))
    (other : turn.operation.own ≠ id) (found : stored host id none file = some job) :
    stored host id none (perform host turn file).1 = some job := by
  obtain ⟨jobs, read, here⟩ := stored_some found
  obtain ⟨after, readAfter, same⟩ := perform_others host turn file jobs read
  have looked (all : List (BackupSet Other)) :
      (others turn.operation.own all).find? (·.id = id) = all.find? (·.id = id) := by
    unfold others
    rw [List.find?_filter]
    congr 1
    funext j
    by_cases own : j.id = id
    · simp [own, other.symm]
    · simp [own]
  have there : after.find? (·.id = id) = some job := by rw [← looked, same, looked, here]
  unfold stored
  rw [show getScheduledJobs host none (perform host turn file).1 = .ok after from readAfter]
  exact there

/-- The write of a call that changes the set itself. -/
theorem stored_changed (host : Host) {id : String} {jobs after : List (BackupSet Other)}
    {job : BackupSet Other} {f : BackupSet Other → BackupSet Other}
    (here : jobs.find? (·.id = id) = some job) (changed : changeFirst id f jobs = some after)
    (keeps : ∀ job, job.id = id → (f job).id = id) :
    ∃ left, stored host id none (.holds after) = some left ∧
      left.metadataRunsSinceFullRead = (f job).metadataRunsSinceFullRead := by
  refine ⟨loaded host (f job), ?_, loaded_run host (f job)⟩
  rw [stored_holds, changeFirst_find id f keeps jobs after changed, here]
  rfl

/-- An edit keeps the counter. -/
theorem edit_keeps {host : Host} {id : String} {file : File (RunSettings Other)}
    {job : BackupSet Other} (turn : Turn (RunSettings Other)) (edit : edits id turn.operation)
    (found : stored host id none file = some job) :
    ∃ left, stored host id none (perform host turn file).1 = some left ∧
      left.metadataRunsSinceFullRead = job.metadataRunsSinceFullRead := by
  by_cases own : turn.operation.own = id
  · obtain ⟨jobs, read, here⟩ := stored_some found
    rcases perform_cases host turn file with same | ⟨_, before, after, readToo, changed, written⟩
    · exact ⟨job, by rw [same, found], rfl⟩
    · rw [read] at readToo
      cases readToo
      rw [written]
      cases operation : turn.operation with
      | save other =>
          simp only [operation, edits, Operation.own, decide_eq_true_eq] at edit own
          exact absurd own edit
      | delete other =>
          simp only [operation, edits, Operation.own, decide_eq_true_eq] at edit own
          exact absurd own edit
      | countRun other success every =>
          simp only [operation, edits, Operation.own, decide_eq_true_eq] at edit own
          exact absurd own edit
      | update new =>
          rw [operation] at changed own
          simp only [change] at changed
          split at changed
          · split at changed
            · next rewritten =>
                cases changed
                rw [show (normalizeJob new).id = id from own] at rewritten
                exact stored_changed host here rewritten (fun _ _ => own)
            · cases changed
          · cases changed
      | setEnabled other enabled =>
          rw [operation] at changed own
          cases (show other = id from own)
          simp only [change] at changed
          split at changed
          · next rewritten =>
              cases changed
              cases enabled with
              | false => exact stored_changed host here rewritten (fun _ own => own)
              | true => exact stored_changed host here rewritten (fun _ own => own)
          · cases changed
      | finishRun other =>
          rw [operation] at changed own
          cases (show other = id from own)
          have rewritten := Except.ok.inj changed
          exact stored_changed host here rewritten (fun _ own => own)
  · exact ⟨job, stored_others turn own found, rfl⟩

/-- A run that does not succeed leaves the file. -/
theorem outcome_failed (host : Host) (id : String) (every : Bool)
    (readFault writeFault : Option String) (file : File (RunSettings Other)) :
    (perform host (outcome id false every readFault writeFault) file).1 = file := by
  rcases perform_cases host (outcome id false every readFault writeFault) file with
    same | ⟨_, jobs, after, _, changed, _⟩
  · exact same
  · simp only [outcome, change, nextFullReadCount, Bool.not_false, Bool.true_or, if_true] at changed
    split at changed
    · cases changed
    · cases changed

/-- The end of a run that succeeds counts it, by the set as it is stored by then. -/
theorem outcome_counts {host : Host} {id : String} {file : File (RunSettings Other)}
    {job : BackupSet Other} (every : Bool) (found : stored host id none file = some job) :
    ∃ left, stored host id none (perform host (outcome id true every none none) file).1 = some left ∧
      left.metadataRunsSinceFullRead = nextFullReadCount job true every := by
  obtain ⟨jobs, read, here⟩ := stored_some found
  by_cases still : nextFullReadCount job true every = job.metadataRunsSinceFullRead
  · have same : (perform host (outcome id true every none none) file).1 = file := by
      simp only [perform, outcome, change, show getScheduledJobs host none file = .ok jobs from read,
        here, if_pos still]
    exact ⟨job, by rw [same, found], still.symm⟩
  · -- the job is in the file, so the loop over the jobs finds it
    have listed : ∀ all : List (BackupSet Other), all.find? (·.id = id) = some job →
        ∀ f, ∃ after, changeFirst id f all = some after := by
      intro all found f
      induction all with
      | nil => cases found
      | cons first rest ih =>
          unfold changeFirst
          by_cases own : first.id = id
          · exact ⟨_, if_pos own⟩
          · obtain ⟨tail, later⟩ := ih (by simpa [own] using found)
            exact ⟨first :: tail, by rw [if_neg own, later]; rfl⟩
    obtain ⟨after, changed⟩ := listed jobs here fun job =>
      { job with metadataRunsSinceFullRead := nextFullReadCount job true every }
    have written : (perform host (outcome id true every none none) file).1 = .holds after := by
      simp only [perform, outcome, change, show getScheduledJobs host none file = .ok jobs from read,
        here, if_neg still, changed, atomicWriteFile]
    rw [written]
    exact stored_changed host here changed (fun _ own => own)

/-! The count since the last full read. -/

theorem sinceFullRead_snoc (count : Int) (ended : List Ended) (run : Ended) :
    sinceFullRead count (ended ++ [run]) = counted (sinceFullRead count ended) run := by
  simp [sinceFullRead]

theorem counted_nonneg {count : Int} (run : Ended) (held : 0 ≤ count) : 0 ≤ counted count run := by
  unfold counted
  split
  · split
    · exact Int.le_refl 0
    · omega
  · exact held

theorem sinceFullRead_nonneg {count : Int} (ended : List Ended) (held : 0 ≤ count) :
    0 ≤ sinceFullRead count ended := by
  induction ended generalizing count with
  | nil => exact held
  | cons run rest ih => exact ih (counted_nonneg run held)

/-- Only the runs that succeeded count. -/
theorem sinceFullRead_successful (count : Int) (ended : List Ended) :
    sinceFullRead count (ended.filter (·.success)) = sinceFullRead count ended := by
  induction ended generalizing count with
  | nil => rfl
  | cons run rest ih =>
      cases succeeded : run.success with
      | true =>
          rw [List.filter_cons_of_pos succeeded]
          exact ih (counted count run)
      | false =>
          have same : counted count run = count := by simp [counted, succeeded]
          rw [List.filter_cons_of_neg (by simp [succeeded]), ih count]
          show sinceFullRead count rest = sinceFullRead (counted count run) rest
          rw [same]

/-- Runs that read some files only count one each. -/
theorem sinceFullRead_quick (count : Int) (window : List Ended)
    (succeeded : ∀ run ∈ window, run.success = true)
    (quick : ¬ ∃ run ∈ window, run.readEveryFile = true) :
    sinceFullRead count window = count + window.length := by
  induction window generalizing count with
  | nil => simp [sinceFullRead]
  | cons run rest ih =>
      have one : counted count run = count + 1 := by
        have some_ : run.readEveryFile = false := by
          cases every : run.readEveryFile with
          | false => rfl
          | true => exact (quick ⟨run, List.mem_cons_self .., every⟩).elim
        simp [counted, succeeded run (List.mem_cons_self ..), some_]
      have tail := ih (counted count run)
        (fun r listed => succeeded r (List.mem_cons_of_mem _ listed))
        (fun ⟨r, listed, every⟩ => quick ⟨r, List.mem_cons_of_mem _ listed, every⟩)
      show sinceFullRead (counted count run) rest = _
      rw [tail, one, List.length_cons]
      push_cast
      omega

/-- A run that fails changes nothing of what is promised. -/
theorem kept_failed {every : Int} {ended : List Ended} {run : Ended}
    (failed : run.success = false) (kept : FullReadKept every ended) :
    FullReadKept every (ended ++ [run]) := by
  intro before window after split_
  exact kept before window after (by simpa [List.filter_append, failed] using split_)

/-- A run that succeeds either read every file or came before the Nth since. -/
theorem kept_succeeded {every count : Int} {ended : List Ended} {run : Ended} (start : 0 ≤ count)
    (positive : 0 < every) (succeeded : run.success = true)
    (full : run.readEveryFile = true ∨ sinceFullRead count ended + 1 < every)
    (kept : FullReadKept every ended) : FullReadKept every (ended ++ [run]) := by
  intro before window after parts long
  rw [List.filter_append, List.filter_cons_of_pos succeeded] at parts
  rcases List.eq_nil_or_concat' after with rfl | ⟨after, last, rfl⟩
  · rcases List.eq_nil_or_concat' window with rfl | ⟨window, last, rfl⟩
    · simp only [List.length_nil, Int.ofNat_zero] at long
      omega
    · -- the window ends with this run
      rw [List.append_nil, ← List.append_assoc] at parts
      obtain ⟨front, back⟩ := List.append_inj' parts rfl
      cases back
      rcases full with read | below
      · exact ⟨run, List.mem_append_right _ (List.mem_singleton_self _), read⟩
      · apply Classical.byContradiction
        intro quick
        have successes : ∀ r ∈ window, r.success = true := by
          intro r listed
          have inside : r ∈ ended.filter (·.success) := by
            rw [front]
            exact List.mem_append_right _ listed
          exact (List.mem_filter.mp inside).2
        have counts := sinceFullRead_quick (sinceFullRead count before) window successes
          (fun ⟨r, listed, read⟩ => quick ⟨r, List.mem_append_left _ listed, read⟩)
        have total : sinceFullRead count ended =
            sinceFullRead (sinceFullRead count before) window := by
          rw [← sinceFullRead_successful, front, sinceFullRead, List.foldl_append]
          rfl
        have held := sinceFullRead_nonneg before start
        simp only [List.length_append, List.length_singleton] at long
        push_cast at long
        omega
  · -- the window was there before
    rw [← List.append_assoc] at parts
    obtain ⟨front, _⟩ := List.append_inj' parts rfl
    exact kept before window after front long

/-! The runs. -/

/-- What the steps keep: the counter of the set is the count since its last full
read, and a run under way that reads some files only is not the Nth since. -/
structure Counts (host : Host) (id : String) (every count : Int) (s : SetRuns Other) : Prop where
  stored : ∃ job, stored host id none s.file = some job ∧
    job.metadataRunsSinceFullRead = sinceFullRead count s.ended
  running : ∀ mode, s.running = some mode →
    mode = "data" ∨ mode = "metadata" ∧ sinceFullRead count s.ended + 1 < every
  kept : FullReadKept every s.ended

theorem readsEvery_parts {every : Int} {job : BackupSet Other} (set : readsEvery every job) :
    job.backupType ≠ "machine" ∧ job.changeDetectionMode = "metadata" ∧
      job.settings.fullReadEvery = every := by
  simpa [readsEvery, and_assoc] using set

theorem fresh_parts {copy job : BackupSet Other} (same : fresh copy job) :
    copy.backupType = job.backupType ∧ copy.changeDetectionMode = job.changeDetectionMode ∧
      copy.settings.fullReadEvery = job.settings.fullReadEvery ∧
      copy.metadataRunsSinceFullRead = job.metadataRunsSinceFullRead := by
  simpa [fresh, and_assoc] using same

/-- When the next run of the set reads every file. -/
theorem next_full (every : Int) (positive : 0 < every) (job : BackupSet Other)
    (set : readsEvery every job) :
    ((changeDetectionForRun job).1 = "data" ↔ every ≤ job.metadataRunsSinceFullRead + 1) ∧
      ((changeDetectionForRun job).1 ≠ "data" → (changeDetectionForRun job).1 = "metadata") := by
  obtain ⟨directory, metadata, same⟩ := readsEvery_parts set
  unfold changeDetectionForRun
  rw [if_neg directory, if_pos metadata, same]
  split
  · next full => exact ⟨⟨fun _ => full.2, fun _ => rfl⟩, fun other => absurd rfl other⟩
  · next quick =>
      refine ⟨⟨fun is => ?_, fun due => absurd ⟨positive, due⟩ quick⟩, fun _ => rfl⟩
      exact absurd is (by decide : ("metadata" : String) ≠ "data")

/-- A run started from the set as it is stored reads every file, or is not the Nth. -/
theorem started_mode (every : Int) (positive : 0 < every) (copy : Copy Other)
    (set : readsEvery every copy.job) (notQuick : copy.requestedRead ≠ "quick") :
    runMode copy.job copy.requestedRead = "data" ∨
      runMode copy.job copy.requestedRead = "metadata" ∧
        copy.job.metadataRunsSinceFullRead + 1 < every := by
  obtain ⟨directory, metadata, _⟩ := readsEvery_parts set
  obtain ⟨due, other⟩ := next_full every positive copy.job set
  unfold runMode applyRequestedRead
  rw [if_neg (by simp [directory, metadata]), if_neg notQuick]
  split
  · exact .inl rfl
  · by_cases full : (changeDetectionForRun copy.job).1 = "data"
    · exact .inl full
    · exact .inr ⟨other full, Int.not_le.mp fun n => full (due.mpr n)⟩

theorem counts_step {host : Host} {id : String} {every count : Int} {s after : SetRuns Other}
    {action : Action Other} (start : 0 ≤ count) (positive : 0 < every)
    (counts : Counts host id every count s) (taken : step host id s action = some after)
    (premise : asked host id every s action) (order : inOrder host id s action) :
    Counts host id every count after := by
  obtain ⟨job, found, same⟩ := counts.stored
  cases action with
  | call turn =>
      cases taken
      obtain ⟨left, still, kept⟩ := edit_keeps turn premise found
      exact ⟨⟨left, still, kept.trans same⟩, counts.running, counts.kept⟩
  | dispatch readFault requestedRead =>
      obtain ⟨copy, _, rfl⟩ := Option.map_eq_some_iff.mp taken
      exact ⟨⟨job, found, same⟩, counts.running, counts.kept⟩
  | start k =>
      obtain ⟨copy, here, rfl⟩ := Option.map_eq_some_iff.mp taken
      refine ⟨⟨job, found, same⟩, ?_, counts.kept⟩
      intro mode running
      cases before : s.running with
      | some mode' =>
          have still : started s copy = some mode' := by simp [started, before]
          rw [show started s copy = some mode from running] at still
          cases still
          exact counts.running mode before
      | none =>
          have new : started s copy = some (runMode copy.job copy.requestedRead) := by
            simp [started, before]
          rw [show started s copy = some mode from running] at new
          cases new
          simp only [asked, found, here, Option.any_some, Option.all_some, Bool.and_eq_true,
            decide_eq_true_eq] at premise
          simp only [inOrder, found, here, Option.all_some] at order
          obtain ⟨type, change, each, counter⟩ := fresh_parts order
          have set : readsEvery every copy.job := by
            obtain ⟨directory, metadata, last⟩ := readsEvery_parts premise.1
            simp [readsEvery, type, change, each, directory, metadata, last]
          rcases started_mode every positive copy set premise.2 with data | ⟨quick, below⟩
          · exact .inl data
          · exact .inr ⟨quick, by
              show sinceFullRead count s.ended + 1 < every
              omega⟩
  | finish success nonePrevious readFault writeFault =>
      obtain ⟨mode, running, rfl⟩ := Option.map_eq_some_iff.mp taken
      cases success with
      | false =>
          refine ⟨⟨job, ?_, ?_⟩, (fun _ held => by cases held), kept_failed rfl counts.kept⟩
          · show stored host id none (perform host _ s.file).1 = some job
            rw [outcome_failed, found]
          · show _ = sinceFullRead count (s.ended ++ [_])
            rw [sinceFullRead_snoc, same]
            rfl
      | true =>
          simp only [inOrder, found, running, Option.all_some, Bool.and_eq_true,
            Option.isNone_iff_eq_none] at order
          obtain ⟨⟨rfl, rfl⟩, counting⟩ := order
          simp only [countsRun, Bool.and_eq_true, Bool.or_eq_true, decide_eq_true_eq] at counting
          obtain ⟨left, still, next⟩ := outcome_counts (readEveryFile mode nonePrevious) found
          refine ⟨⟨left, still, ?_⟩, (fun _ held => by cases held), ?_⟩
          · show _ = sinceFullRead count (s.ended ++ [_])
            rw [sinceFullRead_snoc, next, ← same]
            unfold nextFullReadCount counted
            rw [if_neg (by simp [counting.1]), if_pos rfl]
            cases every : readEveryFile mode nonePrevious with
            | true => simp
            | false =>
                have metadata : job.changeDetectionMode = "metadata" := by
                  rcases counting.2 with here | read
                  · exact here
                  · rw [every] at read
                    cases read
                simp [metadata]
          · refine kept_succeeded start positive rfl ?_ counts.kept
            rcases counts.running mode running with rfl | ⟨_, below⟩
            · exact .inl rfl
            · exact .inr below
  | restart =>
      cases taken
      exact ⟨⟨job, found, same⟩, (fun _ held => by cases held), counts.kept⟩

/-- The steps the set is promised its full reads for, in the order that keeps them. -/
def kept (host : Host) (id : String) (every : Int) (s : SetRuns Other) (action : Action Other) :
    Prop :=
  asked host id every s action ∧ inOrder host id s action

instance (host : Host) (id : String) (every : Int) (s : SetRuns Other) (action : Action Other) :
    Decidable (kept host id every s action) := inferInstanceAs (Decidable (_ ∧ _))

/-- In any run of such steps there is a full read among any N successful runs in a
row, and the successful runs alone say which run is the next full read. -/
theorem full_reads_kept (host : Host) (id : String) (every : Int) (atLeast : 2 ≤ every)
    (file : File (RunSettings Other)) (job : BackupSet Other)
    (found : stored host id none file = some job) (counter : 0 ≤ job.metadataRunsSinceFullRead)
    (actions : List (Action Other)) (s : SetRuns Other)
    (run : Run ((runs host id file).restrict (kept host id every)) (SetRuns.start file) actions s) :
    FullReadKept every s.ended ∧
      ∃ now, stored host id none s.file = some now ∧
        (readsEvery every now → ((changeDetectionForRun now).1 = "data" ↔
          every ≤ sinceFullRead job.metadataRunsSinceFullRead
            (s.ended.filter (·.success)) + 1)) := by
  have initial : Counts host id every job.metadataRunsSinceFullRead (SetRuns.start file) := by
    refine ⟨⟨job, found, rfl⟩, (fun _ held => by cases held), ?_⟩
    intro before window after parts long
    have nothing := congrArg List.length parts
    simp only [SetRuns.start, List.filter_nil, List.length_nil, List.length_append] at nothing
    omega
  have counts : Counts host id every job.metadataRunsSinceFullRead s := by
    refine run_keeps _ ?_ run initial
    intro before action after held taken
    exact counts_step counter (by omega) held taken.1 taken.2.1 taken.2.2
  obtain ⟨now, still, same⟩ := counts.stored
  refine ⟨counts.kept, now, still, fun set => ?_⟩
  rw [sinceFullRead_successful, ← same]
  exact (next_full every (by omega) now set).1

/-! An edit during a run: the set is a legacy one for a moment as the run ends. -/

def documents (mode : String) : BackupSet Unit where
  id := "docs"
  name := "Documents"
  enabled := true
  backupType := "directory"
  driveLetters := []
  diskIDs := []
  pbsServerID := ""
  machineAsVM := false
  upstreamPBSID := ""
  upstreamBackupKind := ""
  changeDetectionMode := mode
  metadataRunsSinceFullRead := 0
  lastRun := none
  nextRun := none
  schedule := { scheduleMode := .manual, triggerMode := .manual }
  settings := ⟨2, ()⟩

def edit (mode : String) : Action Unit := .call { operation := .update (documents mode) }

def quickRun : List (Action Unit) := [.dispatch none "", .start 0]

def editedDuring : List (Action Unit) :=
  quickRun ++ [edit "legacy", .finish true false none none, edit "metadata"] ++ quickRun ++
    [.finish true false none none]

def atHome : SetRuns Unit := SetRuns.start (.holds [documents "metadata"])

theorem full_read_skipped :
    ∃ s, Run ((runs plainHost "docs" (.holds [documents "metadata"])).restrict
        (fun s action => asked plainHost "docs" 2 s action)) atHome editedDuring s ∧
      ¬ FullReadKept 2 s.ended := by
  have executed : (editedDuring.foldlM (checked (step plainHost "docs")
      (fun s action => asked plainHost "docs" 2 s action)) atHome).map (·.ended) =
        some [⟨true, false⟩, ⟨true, false⟩] := by decide +kernel
  obtain ⟨s, ran, ended⟩ := Option.map_eq_some_iff.mp executed
  refine ⟨s, ?_, ?_⟩
  · refine run_of_foldlM _ ?_ ran
    intro s action next taken
    unfold checked at taken
    split at taken
    · next admitted => exact ⟨taken, admitted⟩
    · cases taken
  · intro promised
    rw [ended] at promised
    obtain ⟨r, listed, read⟩ := promised [] [⟨true, false⟩, ⟨true, false⟩] [] rfl rfl
    simp only [List.mem_cons, List.not_mem_nil, or_false, or_self] at listed
    rw [listed] at read
    cases read

/-- Two runs of a set that is edited between them, the second the full read. -/
def editedBetween : List (Action Unit) :=
  quickRun ++ [.finish true false none none, edit "legacy", edit "metadata"] ++ quickRun ++
    [.finish true false none none]

theorem full_reads_kept_between :
    ∃ s, Run ((runs plainHost "docs" (.holds [documents "metadata"])).restrict
        (kept plainHost "docs" 2)) atHome editedBetween s ∧
      s.ended = [⟨true, false⟩, ⟨true, true⟩] ∧ FullReadKept 2 s.ended := by
  have executed : (editedBetween.foldlM (checked (step plainHost "docs")
      (kept plainHost "docs" 2)) atHome).map (·.ended) =
        some [⟨true, false⟩, ⟨true, true⟩] := by decide +kernel
  obtain ⟨s, ran, ended⟩ := Option.map_eq_some_iff.mp executed
  have run : Run ((runs plainHost "docs" (.holds [documents "metadata"])).restrict
      (kept plainHost "docs" 2)) atHome editedBetween s := by
    refine run_of_foldlM _ ?_ ran
    intro s action next taken
    unfold checked at taken
    split at taken
    · next admitted => exact ⟨taken, admitted⟩
    · cases taken
  refine ⟨s, run, ended, ?_⟩
  have found : ∃ job, stored plainHost "docs" none (.holds [documents "metadata"]) = some job ∧
      0 ≤ job.metadataRunsSinceFullRead := ⟨documents "metadata", by decide +kernel, by decide⟩
  obtain ⟨job, found, counter⟩ := found
  exact (full_reads_kept plainHost "docs" 2 (by decide) _ job found counter _ s run).1

end ProxmoxBackup.FullReads
