import ProxmoxBackup.TransitionSystem

/-! The attempt loop of runBackupInlineInternal (gui/backup_inline.go) and the
figures of the result it reports. One event is what the loop learns from
outside: an index created, a folder backed up, the wait over, the snapshot
finished; or an upload worker adding to a chunk counter, which the worker of an
attempt that was given up may still do during the next. Byte counts are natural
numbers. The messages, the durations and the card's live figures are left out. -/

namespace ProxmoxBackup.JobAttempts

open TransitionSystem

/-- retry.FolderRerunAttempts. -/
def maxJobAttempts : Nat := 2

inductive Outcome
  | verifiedSuccess
  | successWithExclusions
  | incomplete
  | failed
  deriving DecidableEq

structure DirResult where
  path : String
  ok : Bool
  error : String
  deriving DecidableEq

structure BackupStatus where
  outcome : Outcome
  totalBytes : Nat
  newChunks : Nat
  reusedChunks : Nat
  failedChunks : Nat
  directories : List DirResult
  excludedByPolicy : List String
  skippedReadError : List String
  deriving DecidableEq

/-- What backupDirectory returns beside its error. -/
structure DirReport where
  bytes : Nat
  skipped : List String
  excluded : List String
  readErrors : List String
  deriving DecidableEq

inductive DirError
  | cancelled
  | sessionLost (text : String)
  | ofFolder (text : String)
  deriving DecidableEq

inductive Counter
  | newchunk
  | reusechunk
  | failedchunk
  deriving DecidableEq

inductive Event
  | counted (attempt : Nat) (counter : Counter)
  | catalogIndex (attempt : Nat) (error : Option String)
  | directory (attempt : Nat) (report : DirReport) (error : Option DirError)
  | waited (attempt : Nat)
  | cancelled (attempt : Nat)
  | finished (attempt : Nat) (error : Option String)
  deriving DecidableEq

inductive Phase
  | connecting
  | folders (remaining : List String)
  | waiting
  | cancelled
  | failed (status : BackupStatus)
  | committed (status : BackupStatus)
  deriving DecidableEq

structure JobRun where
  jobAttempt : Nat
  phase : Phase
  bytesDoneBase : Nat
  newchunk : Nat
  reusechunk : Nat
  failedchunk : Nat
  dirErrors : List String
  dirResults : List DirResult
  allReadErrors : List String
  allSkipped : List String
  allExcluded : List String
  successfulDirs : Nat
  deriving DecidableEq

def JobRun.first : JobRun := ⟨1, .connecting, 0, 0, 0, 0, [], [], [], [], [], 0⟩

/-- The top of the loop: the lists start afresh, the counters do not. -/
def JobRun.nextAttempt (s : JobRun) : JobRun :=
  { s with
    jobAttempt := s.jobAttempt + 1
    phase := .connecting
    dirErrors := []
    dirResults := []
    allReadErrors := []
    allSkipped := []
    allExcluded := []
    successfulDirs := 0 }

def JobRun.status (s : JobRun) (outcome : Outcome) : BackupStatus where
  outcome := outcome
  totalBytes := s.bytesDoneBase
  newChunks := s.newchunk
  reusedChunks := s.reusechunk
  failedChunks := s.failedchunk
  directories := s.dirResults
  excludedByPolicy := s.allExcluded
  skippedReadError := s.allReadErrors

def JobRun.failRun (s : JobRun) : JobRun := { s with phase := .failed (s.status .failed) }

def JobRun.outcome (s : JobRun) : Outcome :=
  if s.failedchunk > 0 then .failed
  else if s.dirErrors.length > 0 then .incomplete
  else if s.allReadErrors.length > 0 then .incomplete
  else if s.allExcluded.length > 0 then .successWithExclusions
  else .verifiedSuccess

/-- What follows the loop's break. -/
def JobRun.complete (s : JobRun) : JobRun := { s with phase := .committed (s.status s.outcome) }

def JobRun.count (s : JobRun) : Counter → JobRun
  | .newchunk => { s with newchunk := s.newchunk + 1 }
  | .reusechunk => { s with reusechunk := s.reusechunk + 1 }
  | .failedchunk => { s with failedchunk := s.failedchunk + 1 }

def JobRun.report (s : JobRun) (report : DirReport) : JobRun :=
  { s with
    allSkipped := s.allSkipped ++ report.skipped
    allExcluded := s.allExcluded ++ report.excluded
    allReadErrors := s.allReadErrors ++ report.readErrors }

def JobRun.dirFailed (s : JobRun) (dir message text : String) (phase : Phase) : JobRun :=
  { s with
    phase := phase
    dirErrors := s.dirErrors ++ [message]
    dirResults := s.dirResults ++ [⟨dir, false, text⟩] }

def JobRun.dirDone (s : JobRun) (dir : String) (dirBytes : Nat) (rest : List String) : JobRun :=
  { s with
    phase := .folders rest
    bytesDoneBase := s.bytesDoneBase + dirBytes
    dirResults := s.dirResults ++ [⟨dir, true, ""⟩]
    successfulDirs := s.successfulDirs + 1 }

/-- A lost session ends the run only once its attempts are used up. -/
def JobRun.sessionLost (s : JobRun) : JobRun :=
  if s.jobAttempt ≥ maxJobAttempts then s.failRun else s

def JobRun.directory (s : JobRun) (dir : String) (rest : List String) (report : DirReport) :
    Option DirError → JobRun
  | none => (s.report report).dirDone dir report.bytes rest
  | some .cancelled => { s.report report with phase := .cancelled }
  | some (.sessionLost text) =>
      ((s.report report).dirFailed dir
        ("backup of " ++ dir ++ " failed: " ++ text ++ " (session lost)") text
        .waiting).sessionLost
  | some (.ofFolder text) =>
      (s.report report).dirFailed dir ("Backup failed for " ++ dir ++ ": " ++ text) text
        (.folders rest)

def Event.attempt : Event → Nat
  | .counted attempt _ => attempt
  | .catalogIndex attempt _ => attempt
  | .directory attempt _ _ => attempt
  | .waited attempt => attempt
  | .cancelled attempt => attempt
  | .finished attempt _ => attempt

/-- The loop's own events, in the attempt it is in. -/
def loopStep (objects : List String) (s : JobRun) : Phase → Event → Option JobRun
  | .connecting, .catalogIndex _ none => some { s with phase := .folders objects }
  -- no session: once more from the start, or the job has failed
  | .connecting, .catalogIndex _ (some _) =>
      if s.jobAttempt ≥ maxJobAttempts then some s.failRun else some s.nextAttempt
  | .folders (dir :: rest), .directory _ report error =>
      some (s.directory dir rest report error)
  | .folders (_ :: _), .cancelled _ => some { s with phase := .cancelled }
  | .waiting, .waited _ => some s.nextAttempt
  | .waiting, .cancelled _ => some { s with phase := .cancelled }
  | .folders [], .finished _ (some _) => some s.failRun
  -- a run in which no folder succeeded is not committed as one
  | .folders [], .finished _ none =>
      if s.successfulDirs = 0 then some s.failRun else some s.complete
  | _, _ => none

/-- Nothing the workers count after the result matters to it. -/
def Phase.over : Phase → Bool
  | .cancelled | .failed _ | .committed _ => true
  | _ => false

def step (objects : List String) (s : JobRun) (event : Event) : Option JobRun :=
  match event with
  | .counted attempt counter =>
      -- workers of an earlier attempt still count into this one
      if 1 ≤ attempt ∧ attempt ≤ s.jobAttempt ∧ s.phase.over = false then some (s.count counter)
      else none
  | event => if event.attempt = s.jobAttempt then loopStep objects s s.phase event else none

def job (objects : List String) : System JobRun Event where
  start s := s = JobRun.first
  step s event next := step objects s event = some next

/-- The bytes of the folders finished in an attempt. -/
def folderBytes (attempt : Nat) : List Event → Nat
  | [] => 0
  | .directory k report none :: rest =>
      (if k = attempt then report.bytes else 0) + folderBytes attempt rest
  | _ :: rest => folderBytes attempt rest

/-- The result tells of the folders and chunks of one attempt. -/
structure CountsAttempt (attempt : Nat) (events : List Event) (status : BackupStatus) : Prop where
  bytes : status.totalBytes = folderBytes attempt events
  failed : status.outcome = .failed ∨ status.failedChunks > 0 →
    Event.counted attempt .failedchunk ∈ events

/-- What an event adds to bytesDoneBase, in whatever attempt. -/
def Event.bytes : Event → Nat
  | .directory _ report none => report.bytes
  | _ => 0

def Event.failures : Event → Nat
  | .counted _ .failedchunk => 1
  | _ => 0

/-- One step: the counters grow by what the event brings, and a committed
result is made of them. -/
structure Tallied (s : JobRun) (event : Event) (next : JobRun) : Prop where
  bytes : next.bytesDoneBase = s.bytesDoneBase + event.bytes
  failures : next.failedchunk = s.failedchunk + event.failures
  attempt : event.attempt ≤ next.jobAttempt
  later : s.jobAttempt ≤ next.jobAttempt
  result : ∀ status, next.phase = .committed status → status = next.status next.outcome

theorem directory_tallied (s : JobRun) (attempt : Nat) (dir : String) (rest : List String)
    (report : DirReport) (error : Option DirError) (here : attempt = s.jobAttempt) :
    Tallied s (.directory attempt report error) (s.directory dir rest report error) := by
  subst here
  rcases error with _ | _ | text | text
  · exact ⟨rfl, rfl, Nat.le_refl _, Nat.le_refl _, fun _ ended => nomatch ended⟩
  · exact ⟨rfl, rfl, Nat.le_refl _, Nat.le_refl _, fun _ ended => nomatch ended⟩
  · rw [JobRun.directory, JobRun.sessionLost]
    split
    · exact ⟨rfl, rfl, Nat.le_refl _, Nat.le_refl _, fun _ ended => nomatch ended⟩
    · exact ⟨rfl, rfl, Nat.le_refl _, Nat.le_refl _, fun _ ended => nomatch ended⟩
  · exact ⟨rfl, rfl, Nat.le_refl _, Nat.le_refl _, fun _ ended => nomatch ended⟩

theorem nextAttempt_tallied (s : JobRun) (event : Event) (here : event.attempt = s.jobAttempt)
    (bytes : event.bytes = 0) (failures : event.failures = 0) :
    Tallied s event s.nextAttempt :=
  ⟨by rw [bytes]; rfl, by rw [failures]; rfl, here ▸ Nat.le_succ _, Nat.le_succ _,
    fun _ ended => nomatch ended⟩

theorem phase_tallied (s : JobRun) (event : Event) (phase : Phase)
    (here : event.attempt = s.jobAttempt) (bytes : event.bytes = 0) (failures : event.failures = 0)
    (result : ∀ status, phase = .committed status → status = s.status s.outcome) :
    Tallied s event { s with phase := phase } :=
  ⟨by rw [bytes]; rfl, by rw [failures]; rfl, here ▸ Nat.le_refl _, Nat.le_refl _, result⟩

theorem loopStep_tallied (objects : List String) (s next : JobRun) (event : Event)
    (here : event.attempt = s.jobAttempt)
    (taken : loopStep objects s s.phase event = some next) : Tallied s event next := by
  unfold loopStep at taken
  split at taken
  · cases taken
    exact phase_tallied s _ _ here rfl rfl fun _ ended => nomatch ended
  · split at taken
    · cases taken
      exact phase_tallied s _ _ here rfl rfl fun _ ended => nomatch ended
    · cases taken
      exact nextAttempt_tallied s _ here rfl rfl
  · cases taken
    exact directory_tallied s _ _ _ _ _ here
  · cases taken
    exact phase_tallied s _ _ here rfl rfl fun _ ended => nomatch ended
  · cases taken
    exact nextAttempt_tallied s _ here rfl rfl
  · cases taken
    exact phase_tallied s _ _ here rfl rfl fun _ ended => nomatch ended
  · cases taken
    exact phase_tallied s _ _ here rfl rfl fun _ ended => nomatch ended
  · split at taken
    · cases taken
      exact phase_tallied s _ _ here rfl rfl fun _ ended => nomatch ended
    · cases taken
      exact phase_tallied s _ _ here rfl rfl fun _ ended => by cases ended; rfl
  · cases taken

theorem step_tallied (objects : List String) (s next : JobRun) (event : Event)
    (taken : step objects s event = some next) : Tallied s event next := by
  unfold step at taken
  split at taken
  · next attempt counter =>
      split at taken
      · next going =>
          cases taken
          have running : ∀ status, s.phase ≠ .committed status := by
            intro status ended
            rw [ended] at going
            cases going.2.2
          cases counter with
          | newchunk => exact ⟨rfl, rfl, going.2.1, Nat.le_refl _, fun _ e => absurd e (running _)⟩
          | reusechunk => exact ⟨rfl, rfl, going.2.1, Nat.le_refl _, fun _ e => absurd e (running _)⟩
          | failedchunk => exact ⟨rfl, rfl, going.2.1, Nat.le_refl _, fun _ e => absurd e (running _)⟩
      · cases taken
  · split at taken
    · next here => exact loopStep_tallied objects s next _ here taken
    · cases taken

def allBytes : List Event → Nat
  | [] => 0
  | event :: rest => event.bytes + allBytes rest

def allFailures : List Event → Nat
  | [] => 0
  | event :: rest => event.failures + allFailures rest

/-- A whole run: the counters are those of all its attempts. -/
theorem run_tallied (objects : List String) {before after : JobRun} {events : List Event}
    (run : Run (job objects) before events after)
    (initial : ∀ status, before.phase = .committed status → status = before.status before.outcome) :
    after.bytesDoneBase = before.bytesDoneBase + allBytes events ∧
      after.failedchunk = before.failedchunk + allFailures events ∧
      before.jobAttempt ≤ after.jobAttempt ∧
      (∀ event ∈ events, event.attempt ≤ after.jobAttempt) ∧
      ∀ status, after.phase = .committed status → status = after.status after.outcome := by
  induction run with
  | stop => exact ⟨rfl, rfl, Nat.le_refl _, fun _ member => absurd member List.not_mem_nil, initial⟩
  | next taken _ ih =>
      have one := step_tallied objects _ _ _ taken
      obtain ⟨bytes, failures, later, attempts, result⟩ := ih one.result
      refine ⟨?_, ?_, Nat.le_trans one.later later, ?_, result⟩
      · rw [bytes, one.bytes, Nat.add_assoc]
        rfl
      · rw [failures, one.failures, Nat.add_assoc]
        rfl
      · intro event member
        rcases List.mem_cons.mp member with rfl | member
        · exact Nat.le_trans one.attempt later
        · exact attempts event member

/-- The bytes of the folders finished in the attempts before this one. -/
def lostBytes (attempt : Nat) : List Event → Nat
  | [] => 0
  | event :: rest => (if event.attempt < attempt then event.bytes else 0) + lostBytes attempt rest

theorem folderBytes_cons (attempt : Nat) (event : Event) (rest : List Event) :
    folderBytes attempt (event :: rest) =
      (if event.attempt = attempt then event.bytes else 0) + folderBytes attempt rest := by
  have silent (quiet : folderBytes attempt (event :: rest) = folderBytes attempt rest)
      (nothing : event.bytes = 0) : folderBytes attempt (event :: rest) =
        (if event.attempt = attempt then event.bytes else 0) + folderBytes attempt rest := by
    rw [quiet, nothing, ite_self, Nat.zero_add]
  rcases event with _ | _ | ⟨k, report, _ | error⟩ | _ | _ | _
  · exact silent rfl rfl
  · exact silent rfl rfl
  · rfl
  · exact silent rfl rfl
  · exact silent rfl rfl
  · exact silent rfl rfl
  · exact silent rfl rfl

theorem allBytes_split (attempt : Nat) (events : List Event)
    (earlier : ∀ event ∈ events, event.attempt ≤ attempt) :
    allBytes events = folderBytes attempt events + lostBytes attempt events := by
  induction events with
  | nil => rfl
  | cons event rest ih =>
      have bound := earlier event List.mem_cons_self
      have tail := ih fun e member => earlier e (List.mem_cons_of_mem event member)
      rw [allBytes, folderBytes_cons, lostBytes, tail]
      rcases Nat.lt_or_eq_of_le bound with lost | here
      · rw [if_neg (Nat.ne_of_lt lost), if_pos lost]
        omega
      · rw [if_pos here, if_neg (by omega)]
        omega

theorem lostBytes_eq_zero_iff (attempt : Nat) (events : List Event) :
    lostBytes attempt events = 0 ↔ ∀ k < attempt, folderBytes k events = 0 := by
  induction events with
  | nil => simp [lostBytes, folderBytes]
  | cons event rest ih =>
      rw [lostBytes, Nat.add_eq_zero_iff, ih]
      constructor
      · rintro ⟨here, tail⟩ k earlier
        rw [folderBytes_cons, tail k earlier, Nat.add_zero]
        split
        · next same => rwa [if_pos (same ▸ earlier)] at here
        · rfl
      · intro none
        refine ⟨?_, ?_⟩
        · split
          · next earlier =>
              have one := none event.attempt earlier
              rw [folderBytes_cons, if_pos rfl] at one
              omega
          · rfl
        · intro k earlier
          have one := none k earlier
          rw [folderBytes_cons] at one
          omega

theorem allFailures_pos_iff (events : List Event) :
    0 < allFailures events ↔ ∃ k, Event.counted k .failedchunk ∈ events := by
  induction events with
  | nil => simp [allFailures]
  | cons event rest ih =>
      rw [allFailures]
      by_cases failure : ∃ k, event = .counted k .failedchunk
      · obtain ⟨k, rfl⟩ := failure
        exact ⟨fun _ => ⟨k, List.mem_cons_self⟩, fun _ => Nat.lt_of_lt_of_le Nat.zero_lt_one (Nat.le_add_right 1 _)⟩
      · have none : event.failures = 0 := by
          unfold Event.failures
          split
          · next k => exact absurd ⟨k, rfl⟩ failure
          · rfl
        rw [none, Nat.zero_add, ih]
        constructor
        · rintro ⟨k, member⟩
          exact ⟨k, List.mem_cons_of_mem event member⟩
        · rintro ⟨k, member⟩
          rcases List.mem_cons.mp member with same | member
          · exact absurd ⟨k, same.symm⟩ failure
          · exact ⟨k, member⟩

theorem outcome_failed (s : JobRun) : s.outcome = .failed ↔ 0 < s.failedchunk := by
  unfold JobRun.outcome
  split
  · next failed => exact ⟨fun _ => failed, fun _ => rfl⟩
  · next clean =>
      constructor
      · intro failed
        split at failed
        · cases failed
        · split at failed
          · cases failed
          · split at failed <;> cases failed
      · exact fun failed => absurd failed clean

/-- In every run that commits a snapshot the result tells of the attempt that
was committed exactly if no folder with bytes was finished in an attempt that
was lost, and no chunk of a lost attempt failed unless one of the committed
attempt did. -/
theorem committed_result_iff (objects : List String) (events : List Event) (after : JobRun)
    (status : BackupStatus) (run : Run (job objects) JobRun.first events after)
    (committed : after.phase = .committed status) :
    CountsAttempt after.jobAttempt events status ↔
      (∀ k < after.jobAttempt, folderBytes k events = 0) ∧
      ((∃ k < after.jobAttempt, Event.counted k .failedchunk ∈ events) →
        Event.counted after.jobAttempt .failedchunk ∈ events) := by
  obtain ⟨bytes, failures, -, attempts, result⟩ :=
    run_tallied objects run fun _ ended => nomatch ended
  obtain rfl := result status committed
  have total : (after.status after.outcome).totalBytes =
      folderBytes after.jobAttempt events + lostBytes after.jobAttempt events := by
    rw [← allBytes_split _ _ attempts]
    exact bytes.trans (Nat.zero_add _)
  have reported : ((after.status after.outcome).outcome = .failed ∨
      (after.status after.outcome).failedChunks > 0) ↔
        ∃ k, Event.counted k .failedchunk ∈ events := by
    have count : after.failedchunk = allFailures events := failures.trans (Nat.zero_add _)
    rw [← allFailures_pos_iff, ← count]
    exact ⟨fun either => either.elim (outcome_failed after).mp id, Or.inr⟩
  rw [← lostBytes_eq_zero_iff]
  constructor
  · rintro ⟨sum, failed⟩
    refine ⟨by omega, ?_⟩
    rintro ⟨k, -, member⟩
    exact failed (reported.mpr ⟨k, member⟩)
  · rintro ⟨nothing, failed⟩
    refine ⟨by omega, ?_⟩
    intro told
    obtain ⟨k, member⟩ := reported.mp told
    rcases Nat.lt_or_eq_of_le (attempts _ member) with lost | here
    · exact failed ⟨k, lost, member⟩
    · exact here ▸ member

/-- A first attempt that archives one folder, loses a chunk and then its
session, and a second that goes through. -/
def retried : List Event :=
  [.catalogIndex 1 none, .directory 1 ⟨5, [], [], []⟩ none, .counted 1 .failedchunk,
    .directory 1 ⟨0, [], [], []⟩ (some (.sessionLost "connection lost")), .waited 1,
    .catalogIndex 2 none, .directory 2 ⟨5, [], [], []⟩ none, .directory 2 ⟨7, [], [], []⟩ none,
    .finished 2 none]

/-- 17 bytes and a failed backup are reported for a good snapshot of 12. -/
theorem retried_run_miscounts :
    ∃ after status, Run (job ["/home", "/srv"]) JobRun.first retried after ∧
      after.phase = .committed status ∧ status.outcome = .failed ∧ status.totalBytes = 17 ∧
      folderBytes after.jobAttempt retried = 12 ∧
      ¬CountsAttempt after.jobAttempt retried status := by
  have executed : (retried.foldlM (step ["/home", "/srv"]) JobRun.first).map
      (fun s => (s.jobAttempt, s.phase)) =
        some (2, .committed ⟨.failed, 17, 0, 0, 1, [⟨"/home", true, ""⟩, ⟨"/srv", true, ""⟩],
          [], []⟩) := by
    decide +kernel
  obtain ⟨after, ran, shape⟩ := Option.map_eq_some_iff.mp executed
  obtain ⟨attempt, phase⟩ := Prod.mk.inj shape
  refine ⟨after, _, run_of_foldlM (step ["/home", "/srv"]) (fun _ _ _ taken => taken) ran, phase,
    rfl, rfl, ?_, ?_⟩
  · rw [attempt]
    rfl
  · intro counts
    have sum := counts.bytes
    rw [attempt] at sum
    exact absurd sum (by decide)

/-- A session lost before anything was counted. -/
def lostEarly : List Event :=
  [.catalogIndex 1 none, .directory 1 ⟨0, [], [], []⟩ (some (.sessionLost "connection lost")),
    .waited 1, .catalogIndex 2 none, .directory 2 ⟨7, [], [], []⟩ none, .finished 2 none]

theorem lost_early_counts :
    ∃ (after : JobRun) (status : BackupStatus), after.phase = .committed status ∧
      (CountsAttempt after.jobAttempt lostEarly status ↔
        (∀ k < after.jobAttempt, folderBytes k lostEarly = 0) ∧
        ((∃ k < after.jobAttempt, Event.counted k .failedchunk ∈ lostEarly) →
          Event.counted after.jobAttempt .failedchunk ∈ lostEarly)) := by
  have executed : (lostEarly.foldlM (step ["/home"]) JobRun.first).map JobRun.phase =
      some (.committed ⟨.verifiedSuccess, 7, 0, 0, 0, [⟨"/home", true, ""⟩], [], []⟩) := by
    decide +kernel
  obtain ⟨after, ran, phase⟩ := Option.map_eq_some_iff.mp executed
  exact ⟨after, _, phase, committed_result_iff ["/home"] lostEarly after _
    (run_of_foldlM (step ["/home"]) (fun _ _ _ taken => taken) ran) phase⟩

end ProxmoxBackup.JobAttempts
