import ProxmoxBackup.UploadPoolWalk

/-! The jobs of the upload pool: a chunk cut and not yet settled is owed by
exactly one place (the walk about to send it, the channel, or a worker), and a
digest marked as known was known, is uploaded, or is being sent. -/

namespace ProxmoxBackup.UploadPoolJobs

open TransitionSystem DynamicChunks UploadPool UploadPoolWalk

variable {chunkDigest sha256 : Bytes → Digest} {known : List Digest}

/-- The backup has not failed and was not given up. -/
def Live (s : Pool chunkDigest) : Prop := s.fatalErr = none ∧ s.phase ≠ .abandoned

def digestAt (s : Pool chunkDigest) (i : Nat) : Option Digest :=
  s.walk.entries[i]?.map ChunkEntry.digest

def Holds (worker : Worker) (job : UploadJob) : Prop :=
  worker = .received job ∨ ∃ sha, worker = .hashed job sha

/-- The job still has to be hashed, or its digest looked up. -/
def Pending (s : Pool chunkDigest) (job : UploadJob) : Prop :=
  .send job ∈ s.todo ∨ job ∈ s.uploadJobs ∨ ∃ w, Holds (s.workers w) job

def Settled (s : Pool chunkDigest) (i : Nat) (chunk : Bytes) : Prop :=
  digestAt s i = some (chunkDigest chunk) ∧ chunkDigest chunk ∈ s.knownChunks

structure Jobs (s : Pool chunkDigest) : Prop where
  cuts : ∀ job, Pending s job → s.data[job.entry]? = some job.data
  hashed : ∀ w job sha, s.workers w = .hashed job sha →
    sha = chunkDigest job.data ∧ digestAt s job.entry = some sha
  accounted : Live s → ∀ i chunk, s.data[i]? = some chunk →
    Settled s i chunk ∨ ∃ job : UploadJob, job.entry = i ∧ Pending s job

theorem jobs_start : Jobs (Pool.init chunkDigest known) := by
  refine ⟨fun job pending => ?_, fun w job sha hashed => (by cases hashed), ?_⟩
  · rcases pending with queued | queued | ⟨w, held | ⟨sha, held⟩⟩
    · cases queued
    · cases queued
    · cases held
    · cases held
  · intro _ i chunk found
    simp [Pool.init] at found

/-- Chunks and entries are only ever added at the end. -/
theorem jobs_grow (s after : Pool chunkDigest) (held : Jobs s)
    (cut : s.walk.entries.length = s.data.length)
    (entries : ∃ more, after.walk.entries = s.walk.entries ++ more)
    (data : ∃ more, after.data = s.data ++ more)
    (workers : after.workers = s.workers) (knownChunks : after.knownChunks = s.knownChunks)
    (kept : ∀ job, Pending after job →
      Pending s job ∨ after.data[job.entry]? = some job.data)
    (still : Live after → Live s ∧ ∀ job, Pending s job → Pending after job)
    (fresh : ∀ i chunk, s.data.length ≤ i → after.data[i]? = some chunk →
      Settled after i chunk ∨ ∃ job : UploadJob, job.entry = i ∧ Pending after job) :
    Jobs after := by
  obtain ⟨moreEntries, entries⟩ := entries
  obtain ⟨moreData, data⟩ := data
  have digests : ∀ i, i < s.data.length → digestAt after i = digestAt s i := by
    intro i inside
    unfold digestAt
    rw [entries, List.getElem?_append_left (cut ▸ inside)]
  have chunks : ∀ i, i < s.data.length → after.data[i]? = s.data[i]? := by
    intro i inside
    rw [data, List.getElem?_append_left inside]
  refine ⟨fun job pending => ?_, fun w job sha hashed => ?_, fun live i chunk found => ?_⟩
  · rcases kept job pending with before | now
    · have there := held.cuts job before
      rw [chunks _ (List.getElem?_eq_some_iff.mp there).1]
      exact there
    · exact now
  · rw [workers] at hashed
    have there := held.cuts job (Or.inr (Or.inr ⟨w, Or.inr ⟨sha, hashed⟩⟩))
    rw [digests _ (List.getElem?_eq_some_iff.mp there).1]
    exact held.hashed w job sha hashed
  · obtain ⟨liveBefore, pendingUp⟩ := still live
    by_cases inside : i < s.data.length
    · rw [chunks i inside] at found
      rcases held.accounted liveBefore i chunk found with settled | ⟨job, place, pending⟩
      · refine Or.inl ⟨(digests i inside).trans settled.1, ?_⟩
        rw [knownChunks]
        exact settled.2
      · exact Or.inr ⟨job, place, pendingUp job pending⟩
    · exact fresh i chunk (Nat.le_of_not_lt inside) found

/-- A walk step that cuts nothing and hands on every job it had. -/
theorem jobs_carry (s after : Pool chunkDigest) (held : Jobs s) (side : WalkSide s)
    (entries : after.walk.entries = s.walk.entries) (data : after.data = s.data)
    (workers : after.workers = s.workers) (knownChunks : after.knownChunks = s.knownChunks)
    (kept : ∀ job, Pending after job → Pending s job)
    (still : Live after → Live s ∧ ∀ job, Pending s job → Pending after job) : Jobs after := by
  refine jobs_grow s after held side.cut.entries_length ⟨[], by simp [entries]⟩
    ⟨[], by simp [data]⟩ workers knownChunks (fun job pending => Or.inl (kept job pending))
    still fun i chunk past found => ?_
  rw [data] at found
  have inside := (List.getElem?_eq_some_iff.mp found).1
  omega

theorem emitOps_send (walk : ChunkState) (rest : List (WalkOp chunkDigest)) (job : UploadJob)
    (sends : .send job ∈ emitOps walk ++ rest) : .send job ∈ rest := by
  unfold emitOps at sends
  split at sends <;> simpa using sends

theorem beginCall_jobs (s : Pool chunkDigest) (c : Call chunkDigest) (side : WalkSide s)
    (held : Jobs s) (walking : s.phase = .walking) (idle : s.todo = []) :
    Jobs (beginCall s c) := by
  have quiet : ∀ job, .send job ∉ (beginCall s c).todo := by
    intro job sends
    cases c with
    | handleData b => simp [beginCall] at sends
    | suggestBoundary =>
        simp only [beginCall] at sends
        split at sends
        · simp [idle] at sends
        · have := emitOps_send _ _ _ sends
          simp at this
    | forceBoundary =>
        have := emitOps_send _ _ _ sends
        simp at this
    | injectKnownChunk chunk => simp [beginCall] at sends
    | eof =>
        have := emitOps_send s.walk [] job (by simpa [beginCall] using sends)
        simp at this
    | stopUploads => simp [beginCall, idle] at sends
  have same : (beginCall s c).walk = s.walk ∧ (beginCall s c).data = s.data ∧
      (beginCall s c).workers = s.workers ∧ (beginCall s c).knownChunks = s.knownChunks ∧
      (beginCall s c).uploadJobs = s.uploadJobs ∧ (beginCall s c).fatalErr = s.fatalErr := by
    cases c with
    | suggestBoundary =>
        simp only [beginCall]
        split <;> exact ⟨rfl, rfl, rfl, rfl, rfl, rfl⟩
    | _ => exact ⟨rfl, rfl, rfl, rfl, rfl, rfl⟩
  obtain ⟨walk, data, workers, knownChunks, uploadJobs, fatal⟩ := same
  have pending : ∀ job, Pending (beginCall s c) job ↔ Pending s job := by
    intro job
    unfold Pending
    rw [uploadJobs, workers]
    simp [quiet job, idle]
  refine jobs_carry s _ held side (by rw [walk]) data workers knownChunks
    (fun job => (pending job).mp) fun live => ⟨⟨fatal ▸ live.1, ?_⟩, fun job => (pending job).mpr⟩
  rw [walking]
  exact Phase.noConfusion

theorem jobs_walks (s after : Pool chunkDigest) (side : WalkSide s) (held : Jobs s)
    (move : WalkMove sha256 s after) : Jobs after := by
  have busy : ∀ op rest, s.todo = op :: rest → s.phase ≠ .abandoned := by
    intro op rest next abandoned
    have cutting := side.busy (by simp [next])
    rw [abandoned] at cutting
    exact cutting
  have rests : ∀ op rest, s.todo = op :: rest → (∀ job, op ≠ .send job) →
      ∀ next : Pool chunkDigest, (∀ job, .send job ∈ next.todo ↔ .send job ∈ rest) →
      next.walk.entries = s.walk.entries → next.data = s.data → next.workers = s.workers →
      next.knownChunks = s.knownChunks → next.uploadJobs = s.uploadJobs →
      next.fatalErr = s.fatalErr → Jobs next := by
    intro op rest first notSend next sends entries data workers knownChunks uploadJobs fatal
    have pending : ∀ job, Pending next job ↔ Pending s job := by
      intro job
      unfold Pending
      rw [uploadJobs, workers, first, sends]
      simp [Ne.symm (notSend job)]
    exact jobs_carry s next held side entries data workers knownChunks
      (fun job => (pending job).mp)
      fun live => ⟨⟨fatal ▸ live.1, busy op rest first⟩, fun job => (pending job).mpr⟩
  have aside : ∀ next : Pool chunkDigest, next.todo = s.todo → next.walk = s.walk →
      next.data = s.data → next.workers = s.workers → next.knownChunks = s.knownChunks →
      next.uploadJobs = s.uploadJobs → next.fatalErr = s.fatalErr → s.phase ≠ .abandoned →
      Jobs next := by
    intro next todo walk data workers knownChunks uploadJobs fatal still
    have pending : ∀ job, Pending next job ↔ Pending s job := by
      intro job
      unfold Pending
      rw [uploadJobs, workers, todo]
    exact jobs_carry s next held side (by rw [walk]) data workers knownChunks
      (fun job => (pending job).mp)
      fun live => ⟨⟨fatal ▸ live.1, still⟩, fun job => (pending job).mpr⟩
  cases move with
  | call c walking idle => exact beginCall_jobs s c side held walking idle
  | refuse rest next failed =>
      refine jobs_carry s _ held side rfl rfl rfl rfl (fun job pending => ?_)
        fun live => absurd live.1 failed
      rcases pending with sends | rest
      · cases sends
      · exact Or.inr rest
  | injectRefused chunk rest next =>
      have last := side.injectLast
      rw [next] at last
      cases (last : rest = [])
      exact rests _ _ next (fun job => by simp) _ (fun job => Iff.rfl) rfl rfl rfl rfl rfl rfl
  | pass rest next clean =>
      exact rests _ _ next (fun job => by simp) _ (fun job => Iff.rfl) rfl rfl rfl rfl rfl rfl
  | append b rest C next =>
      exact rests _ _ next (fun job => by simp) _ (fun job => Iff.rfl) rfl rfl rfl rfl rfl rfl
  | found b rest C cutAt next =>
      exact rests _ _ next (fun job => by simp) _ (fun job => by simp) rfl rfl rfl rfl rfl rfl
  | reset rest next =>
      exact rests _ _ next (fun job => by simp) _ (fun job => Iff.rfl) rfl rfl rfl rfl rfl rfl
  | enqueue rest next =>
      have length := side.cut.entries_length
      have isNew : ∀ job : UploadJob, job = s.walk.queue.2 →
          (s.data ++ [s.walk.currentChunk])[job.entry]? = some job.data := by
        intro job same
        subst same
        simp [ChunkState.queue, length]
      refine jobs_grow s _ held length ⟨_, rfl⟩ ⟨_, rfl⟩ rfl rfl (fun job pending => ?_)
        (fun live => ⟨⟨live.1, busy _ _ next⟩, fun job pending => ?_⟩) fun i chunk past found => ?_
      · rcases pending with sends | others
        · rcases List.mem_cons.mp sends with same | later
          · exact Or.inr (isNew job (WalkOp.send.inj same))
          · exact Or.inl (Or.inl (next ▸ List.mem_cons_of_mem _ later))
        · exact Or.inl (Or.inr others)
      · rcases pending with sends | others
        · rw [next] at sends
          rcases List.mem_cons.mp sends with same | later
          · cases same
          · exact Or.inl (List.mem_cons_of_mem _ later)
        · exact Or.inr others
      · have inside := (List.getElem?_eq_some_iff.mp found).1
        simp only [List.length_append, List.length_singleton] at inside
        have place : s.walk.queue.2.entry = i := by
          simp only [ChunkState.queue, length]
          omega
        exact Or.inr ⟨_, place, Or.inl (List.mem_cons_self ..)⟩
  | send job rest next =>
      have pending : ∀ other, Pending { s with
          uploadJobs := s.uploadJobs ++ [job], todo := rest } other ↔ Pending s other := by
        intro other
        unfold Pending
        simp only [next, List.mem_cons, List.mem_append, WalkOp.send.injEq, List.not_mem_nil,
          or_false]
        tauto
      exact jobs_carry s _ held side rfl rfl rfl rfl (fun other => (pending other).mp)
        fun live => ⟨⟨live.1, busy _ _ next⟩, fun other => (pending other).mpr⟩
  | injected chunk rest next nothingPending registered =>
      have length := side.cut.entries_length
      refine jobs_grow s _ held length ⟨_, rfl⟩ ⟨_, rfl⟩ rfl rfl (fun job pending => ?_)
        (fun live => ⟨⟨live.1, busy _ _ next⟩, fun job pending => ?_⟩) fun i data past found => ?_
      · rcases pending with sends | others
        · exact Or.inl (Or.inl (next ▸ List.mem_cons_of_mem _ sends))
        · exact Or.inl (Or.inr others)
      · rcases pending with sends | others
        · rw [next] at sends
          rcases List.mem_cons.mp sends with same | later
          · cases same
          · exact Or.inl later
        · exact Or.inr others
      · have inside := (List.getElem?_eq_some_iff.mp found).1
        simp only [List.length_append, List.length_singleton] at inside
        have place : i = s.data.length := by omega
        subst place
        simp only [List.getElem?_concat_length, Option.some.injEq] at found
        subst found
        refine Or.inl ⟨?_, chunk.named ▸ registered⟩
        simp [digestAt, ChunkState.appendKnown, ← length, chunk.named]
  | closeJobs idle reached =>
      exact aside _ rfl rfl rfl rfl rfl rfl rfl (by simp [reached])
  | waited reached gone => exact aside _ rfl rfl rfl rfl rfl rfl rfl (by simp [reached])
  | eofFails reached failed => exact aside _ rfl rfl rfl rfl rfl rfl rfl (by simp [reached])
  | list reached clean => exact aside _ rfl rfl rfl rfl rfl rfl rfl (by simp [reached])
  | close reached => exact aside _ rfl rfl rfl rfl rfl rfl rfl (by simp [reached])
  | assign rest reached => exact aside _ rfl rfl rfl rfl rfl rfl rfl (by simp [reached])
  | requestFails rest reached => exact aside _ rfl rfl rfl rfl rfl rfl rfl (by simp [reached])

/-- A worker step away from the index entries: every job still owed before is
owed after or is settled. -/
theorem jobs_worked (s after : Pool chunkDigest) (w : Fin chunkUploadWorkers) (held : Jobs s)
    (move : WorkerMove s w after) (entries : after.walk.entries = s.walk.entries)
    (knownChunks : ∀ digest, digest ∈ s.knownChunks → digest ∈ after.knownChunks)
    (kept : ∀ job, Pending after job → Pending s job)
    (unhashed : ∀ job sha, after.workers w ≠ .hashed job sha)
    (owed : Live after → ∀ job, Pending s job →
      Settled after job.entry job.data ∨ Pending after job) : Jobs after := by
  have frame := workerMove_frame s after w move
  have digests : ∀ i, digestAt after i = digestAt s i := by
    intro i
    rw [digestAt, entries, digestAt]
  refine ⟨fun job pending => ?_, fun other job sha hashed => ?_, fun live i chunk found => ?_⟩
  · rw [frame.data]
    exact held.cuts job (kept job pending)
  · by_cases same : other = w
    · subst same
      exact absurd hashed (unhashed job sha)
    · rw [workerMove_others s after w other move same] at hashed
      rw [digests]
      exact held.hashed other job sha hashed
  · rw [frame.data] at found
    have liveBefore : Live s := ⟨frame.fatal live.1, frame.phase ▸ live.2⟩
    rcases held.accounted liveBefore i chunk found with settled | ⟨job, place, pending⟩
    · exact Or.inl ⟨(digests i).trans settled.1, knownChunks _ settled.2⟩
    · rcases owed live job pending with settled | still
      · have there := held.cuts job pending
        rw [place, found, Option.some.injEq] at there
        rw [place, ← there] at settled
        exact Or.inl settled
      · exact Or.inr ⟨job, place, still⟩

/-- A worker that leaves a job it does not hold, or holds no more, gives no job up. -/
theorem pending_setWorker (s : Pool chunkDigest) (w : Fin chunkUploadWorkers) (next : Worker)
    (job : UploadJob) (others : Holds (s.workers w) job → Holds next job)
    (pending : Pending s job) : Pending (setWorker s w next) job := by
  rcases pending with sends | queued | ⟨other, holds⟩
  · exact Or.inl sends
  · exact Or.inr (Or.inl queued)
  · refine Or.inr (Or.inr ⟨other, ?_⟩)
    rw [setWorker_workers]
    by_cases same : other = w
    · subst same
      rw [if_pos rfl]
      exact others holds
    · rw [if_neg same]
      exact holds

theorem pending_before (s : Pool chunkDigest) (w : Fin chunkUploadWorkers) (next : Worker)
    (job : UploadJob) (none : ¬ Holds next job) (pending : Pending (setWorker s w next) job) :
    Pending s job := by
  rcases pending with sends | queued | ⟨other, holds⟩
  · exact Or.inl sends
  · exact Or.inr (Or.inl queued)
  · rw [setWorker_workers] at holds
    by_cases same : other = w
    · rw [if_pos same] at holds
      exact absurd holds none
    · rw [if_neg same] at holds
      exact Or.inr (Or.inr ⟨other, holds⟩)

theorem digestAt_setDigest (s : Pool chunkDigest) (w : Fin chunkUploadWorkers) (next : Worker)
    (entry : Nat) (digest : Digest) (i : Nat) :
    digestAt (setWorker { s with walk := setDigest s.walk entry digest } w next) i =
      if entry = i then (digestAt s i).map fun _ => digest else digestAt s i := by
  simp only [digestAt, setWorker, setDigest, List.getElem?_modify]
  by_cases same : entry = i
  · cases s.walk.entries[i]? <;> simp [same]
  · cases s.walk.entries[i]? <;> simp [same]

theorem jobs_hash (s : Pool chunkDigest) (w : Fin chunkUploadWorkers) (job : UploadJob)
    (side : WalkSide s) (held : Jobs s) (state : s.workers w = .received job) :
    Jobs (setWorker { s with walk := setDigest s.walk job.entry (chunkDigest job.data) } w
      (.hashed job (chunkDigest job.data))) := by
  have mine : Pending s job := Or.inr (Or.inr ⟨w, Or.inl state⟩)
  have there := held.cuts job mine
  have inside : job.entry < s.walk.entries.length := by
    rw [side.cut.entries_length]
    exact (List.getElem?_eq_some_iff.mp there).1
  have pending : ∀ other, Pending (setWorker
      { s with walk := setDigest s.walk job.entry (chunkDigest job.data) } w
      (.hashed job (chunkDigest job.data))) other → Pending s other := by
    rintro other (sends | queued | ⟨v, holds⟩)
    · exact Or.inl sends
    · exact Or.inr (Or.inl queued)
    · rw [setWorker_workers] at holds
      by_cases same : v = w
      · rw [if_pos same] at holds
        rcases holds with received | ⟨sha, hashed⟩
        · cases received
        · cases hashed
          exact mine
      · rw [if_neg same] at holds
        exact Or.inr (Or.inr ⟨v, holds⟩)
  -- Two jobs of one entry carry the same bytes, so a digest written twice is the same.
  have agree : ∀ (i : Nat) (chunk : Bytes), s.data[i]? = some chunk → job.entry = i →
      chunkDigest job.data = chunkDigest chunk := by
    intro i chunk found same
    rw [same, found, Option.some.injEq] at there
    rw [there]
  have mapped : ∃ old, digestAt s job.entry = some old := by
    rw [digestAt, List.getElem?_eq_getElem inside]
    exact ⟨_, rfl⟩
  obtain ⟨old, mapped⟩ := mapped
  refine ⟨fun other owed => held.cuts other (pending other owed), ?_, ?_⟩
  · intro v other sha hashed
    rw [setWorker_workers] at hashed
    rw [digestAt_setDigest]
    by_cases same : v = w
    · rw [if_pos same] at hashed
      cases hashed
      rw [if_pos rfl, mapped]
      exact ⟨rfl, rfl⟩
    · rw [if_neg same] at hashed
      obtain ⟨named, placed⟩ := held.hashed v other sha hashed
      refine ⟨named, ?_⟩
      by_cases entry : job.entry = other.entry
      · have sent := held.cuts other (Or.inr (Or.inr ⟨v, Or.inr ⟨sha, hashed⟩⟩))
        rw [if_pos entry, placed, named, agree _ _ sent entry]
        rfl
      · rw [if_neg entry]
        exact placed
  · intro live i chunk found
    rcases held.accounted live i chunk found with settled | ⟨other, place, owed⟩
    · refine Or.inl ⟨?_, settled.2⟩
      rw [digestAt_setDigest]
      by_cases entry : job.entry = i
      · rw [if_pos entry, settled.1, agree i chunk found entry]
        rfl
      · rw [if_neg entry]
        exact settled.1
    · refine Or.inr ⟨other, place, pending_setWorker _ w _ other (fun holds => ?_) owed⟩
      rcases holds with received | ⟨sha, hashed⟩
      · rw [show s.workers w = _ from state] at received
        cases received
        exact Or.inr ⟨_, rfl⟩
      · rw [show s.workers w = _ from state] at hashed
        cases hashed

/-- The states in which a worker has no job that is still to be looked up. -/
def Free : Worker → Prop
  | .received _ => False
  | .hashed _ _ => False
  | _ => True

theorem free_holds (worker : Worker) (job : UploadJob) (free : Free worker) :
    ¬ Holds worker job := by
  rintro (received | ⟨sha, hashed⟩)
  · rw [received] at free
    exact free
  · rw [hashed] at free
    exact free

/-- A worker that holds no job before or after its step. -/
theorem jobs_idle (s base : Pool chunkDigest) (w : Fin chunkUploadWorkers) (next : Worker)
    (held : Jobs s) (move : WorkerMove s w (setWorker base w next)) (walk : base.walk = s.walk)
    (knownChunks : base.knownChunks = s.knownChunks)
    (same : ∀ job, Pending base job ↔ Pending s job)
    (before : ∀ job, ¬ Holds (base.workers w) job) (none : ∀ job, ¬ Holds next job) :
    Jobs (setWorker base w next) := by
  refine jobs_worked s _ w held move (congrArg ChunkState.entries walk) ?_ ?_ ?_ ?_
  · intro digest listed
    exact knownChunks.symm ▸ listed
  · intro job pending
    exact (same job).mp (pending_before base w next job (none job) pending)
  · intro job sha hashed
    rw [setWorker_workers, if_pos rfl] at hashed
    exact none job (Or.inr ⟨sha, hashed⟩)
  · intro _ job pending
    exact Or.inr (pending_setWorker base w next job (fun holds => absurd holds (before job))
      ((same job).mpr pending))

theorem jobs_works (s after : Pool chunkDigest) (w : Fin chunkUploadWorkers)
    (side : WalkSide s) (stop : Shutdown sha256 s) (held : Jobs s)
    (move : WorkerMove s w after) : Jobs after := by
  have moved := move
  cases move with
  | hash job state running => exact jobs_hash s w job side held state
  | receive job rest state queued =>
      refine jobs_worked s _ w held moved rfl (fun _ => id) ?_ ?_ ?_
      · rintro other (sends | later | ⟨v, holds⟩)
        · exact Or.inl sends
        · exact Or.inr (Or.inl (queued ▸ List.mem_cons_of_mem _ later))
        · rw [setWorker_workers] at holds
          by_cases same : v = w
          · rw [if_pos same] at holds
            rcases holds with received | ⟨sha, hashed⟩
            · cases received
              exact Or.inr (Or.inl (queued ▸ List.mem_cons_self ..))
            · cases hashed
          · rw [if_neg same] at holds
            exact Or.inr (Or.inr ⟨v, holds⟩)
      · intro other sha
        simp [setWorker_workers]
      · rintro _ other (sends | now | ⟨v, holds⟩)
        · exact Or.inr (Or.inl sends)
        · rw [queued] at now
          rcases List.mem_cons.mp now with same | later
          · subst same
            exact Or.inr (Or.inr (Or.inr ⟨w, Or.inl (by simp [setWorker_workers])⟩))
          · exact Or.inr (Or.inr (Or.inl later))
        · refine Or.inr (Or.inr (Or.inr ⟨v, ?_⟩))
          rw [setWorker_workers]
          by_cases same : v = w
          · subst same
            rw [state] at holds
            exact absurd holds (free_holds _ other trivial)
          · rw [if_neg same]
            exact holds
  | drop job state ended =>
      refine jobs_worked s _ w held moved rfl (fun _ => id)
        (fun other => pending_before s w .idle other (free_holds _ other trivial)) ?_ fun live => ?_
      · intro other sha
        simp [setWorker_workers]
      · rcases stop.cancelled ended with failed | abandoned | all
        · exact absurd live.1 failed
        · exact absurd abandoned live.2
        · simp [all w] at state
  | reuse job sha state known =>
      refine jobs_worked s _ w held moved rfl (fun _ => id)
        (fun other => pending_before _ w .idle other (free_holds _ other trivial)) ?_ fun _ other pending => ?_
      · intro other sha
        simp [setWorker_workers]
      · by_cases mine : Holds (s.workers w) other
        · rcases mine with received | ⟨sha', hashed⟩
          · rw [state] at received
            cases received
          · rw [state] at hashed
            cases hashed
            obtain ⟨named, placed⟩ := held.hashed w job sha state
            exact Or.inl ⟨named ▸ placed, named ▸ known⟩
        · exact Or.inr (pending_setWorker _ w .idle other (fun holds => absurd holds mine) pending)
  | claim job sha state fresh =>
      refine jobs_worked s _ w held moved rfl (fun _ => List.mem_cons_of_mem _)
        (fun other => pending_before _ w _ other (free_holds _ other trivial)) ?_ fun _ other pending => ?_
      · intro other sha'
        simp [setWorker_workers]
      · by_cases mine : Holds (s.workers w) other
        · rcases mine with received | ⟨sha', hashed⟩
          · rw [state] at received
            cases received
          · rw [state] at hashed
            cases hashed
            obtain ⟨named, placed⟩ := held.hashed w job sha state
            exact Or.inl ⟨named ▸ placed, named ▸ List.mem_cons_self ..⟩
        · exact Or.inr (pending_setWorker _ w _ other (fun holds => absurd holds mine) pending)
  | exit state drained closed =>
      exact jobs_idle s s w .exited held moved rfl rfl (fun _ => Iff.rfl)
        (fun other => free_holds _ other (state ▸ trivial)) (fun other => free_holds _ other trivial)
  | sent job sha state =>
      exact jobs_idle s _ w .idle held moved rfl rfl (fun _ => Iff.rfl)
        (fun other => free_holds _ other (state ▸ trivial)) (fun other => free_holds _ other trivial)
  | unsent job sha state ended =>
      exact jobs_idle s _ w .idle held moved rfl rfl (fun _ => Iff.rfl)
        (fun other => free_holds _ other (state ▸ trivial)) (fun other => free_holds _ other trivial)
  | fails job sha state running =>
      exact jobs_idle s _ w _ held moved rfl rfl (fun _ => Iff.rfl)
        (fun other => free_holds _ other (state ▸ trivial)) (fun other => free_holds _ other trivial)
  | record sha first state =>
      exact jobs_idle s _ w .cancelling held moved rfl rfl (fun _ => Iff.rfl)
        (fun other => free_holds _ other (state ▸ trivial)) (fun other => free_holds _ other trivial)
  | cancel state =>
      exact jobs_idle s _ w .idle held moved rfl rfl (fun _ => Iff.rfl)
        (fun other => free_holds _ other (state ▸ trivial)) (fun other => free_holds _ other trivial)

theorem jobs_invariant :
    Invariant (poolSystem chunkDigest sha256 known)
      (fun s => (((True ∧ WalkSide s) ∧ Shutdown sha256 s) ∧ Flushed s) ∧ Jobs s) :=
  poolSystem_invariant flushed_invariant jobs_start
    (fun s after base _ held move => jobs_walks s after base.1.1.2 held move)
    (fun s after w base _ held move => jobs_works s after w base.1.1.2 base.1.2 held move)

/-- The worker has claimed the digest and its upload is not over. -/
def Sending (worker : Worker) (digest : Digest) : Prop :=
  (∃ job, worker = .uploading job digest) ∨ worker = .failing digest

structure Uploads (known : List Digest) (s : Pool chunkDigest) : Prop where
  claimed : Live s → ∀ digest ∈ s.knownChunks,
    digest ∈ known ∨ digest ∈ s.uploaded ∨ ∃ w, Sending (s.workers w) digest
  refused : s.refused = true →
    ¬ Live s ∨ ∃ w sha, s.workers w = .failing sha

theorem uploads_start : Uploads known (Pool.init chunkDigest known) :=
  ⟨fun _ _ listed => Or.inl listed, fun refused => by cases refused⟩

theorem walkMove_frame (s after : Pool chunkDigest) (side : WalkSide s)
    (move : WalkMove sha256 s after) : after.workers = s.workers ∧
      after.knownChunks = s.knownChunks ∧ after.uploaded = s.uploaded ∧
      after.refused = s.refused ∧ (Live after → Live s) := by
  have busy : ∀ op rest, s.todo = op :: rest → s.phase ≠ .abandoned := by
    intro op rest next abandoned
    have cutting := side.busy (by simp [next])
    rw [abandoned] at cutting
    exact cutting
  cases move with
  | call c walking idle =>
      have still : s.phase ≠ .abandoned := by simp [walking]
      cases c with
      | suggestBoundary =>
          simp only [beginCall]
          split
          · exact ⟨rfl, rfl, rfl, rfl, id⟩
          · exact ⟨rfl, rfl, rfl, rfl, fun live => ⟨live.1, still⟩⟩
      | _ => exact ⟨rfl, rfl, rfl, rfl, fun live => ⟨live.1, still⟩⟩
  | refuse rest next failed => exact ⟨rfl, rfl, rfl, rfl, fun live => ⟨live.1, busy _ _ next⟩⟩
  | injectRefused chunk rest next =>
      exact ⟨rfl, rfl, rfl, rfl, fun live => ⟨live.1, busy _ _ next⟩⟩
  | closeJobs idle reached => exact ⟨rfl, rfl, rfl, rfl, fun live => ⟨live.1, by simp [reached]⟩⟩
  | waited reached gone => exact ⟨rfl, rfl, rfl, rfl, fun live => ⟨live.1, by simp [reached]⟩⟩
  | eofFails reached failed => exact ⟨rfl, rfl, rfl, rfl, fun live => absurd live.1 failed⟩
  | list reached clean => exact ⟨rfl, rfl, rfl, rfl, fun live => ⟨live.1, by simp [reached]⟩⟩
  | close reached => exact ⟨rfl, rfl, rfl, rfl, fun live => ⟨live.1, by simp [reached]⟩⟩
  | assign rest reached => exact ⟨rfl, rfl, rfl, rfl, fun live => ⟨live.1, by simp [reached]⟩⟩
  | requestFails rest reached =>
      exact ⟨rfl, rfl, rfl, rfl, fun live => ⟨live.1, by simp [reached]⟩⟩
  | _ => exact ⟨rfl, rfl, rfl, rfl, id⟩

theorem uploads_walks (s after : Pool chunkDigest) (side : WalkSide s) (held : Uploads known s)
    (move : WalkMove sha256 s after) : Uploads known after := by
  obtain ⟨workers, knownChunks, uploaded, refused, live⟩ := walkMove_frame s after side move
  refine ⟨fun still => ?_, fun failed => ?_⟩
  · rw [knownChunks, uploaded, workers]
    exact held.claimed (live still)
  · rw [refused] at failed
    rw [workers]
    exact (held.refused failed).imp_left fun dead still => dead (live still)

theorem sending_after (s : Pool chunkDigest) (w : Fin chunkUploadWorkers) (next : Worker)
    (digest : Digest) (others : Sending (s.workers w) digest → Sending next digest)
    (sending : ∃ v, Sending (s.workers v) digest) :
    ∃ v, Sending ((setWorker s w next).workers v) digest := by
  obtain ⟨v, sending⟩ := sending
  refine ⟨v, ?_⟩
  rw [setWorker_workers]
  by_cases same : v = w
  · subst same
    rw [if_pos rfl]
    exact others sending
  · rw [if_neg same]
    exact sending

theorem uploads_works (s after : Pool chunkDigest) (w : Fin chunkUploadWorkers)
    (stop : Shutdown sha256 s) (held : Uploads known s) (move : WorkerMove s w after) :
    Uploads known after := by
  have frame := workerMove_frame s after w move
  have alive : Live after → Live s := fun live => ⟨frame.fatal live.1, frame.phase ▸ live.2⟩
  have over_dead : s.cancelled = true → ¬ Live after := by
    intro ended live
    rcases stop.cancelled ended with failed | abandoned | all
    · exact failed (alive live).1
    · exact (alive live).2 abandoned
    · exact workerMove_running s after w move (all w)
  have before := held.claimed
  have earlier : s.refused = true → (∀ sha, s.workers w ≠ .failing sha) →
      ¬ Live after ∨ ∃ v sha, after.workers v = .failing sha := by
    intro refused other
    rcases held.refused refused with dead | ⟨v, sha, failing⟩
    · exact Or.inl fun live => dead (alive live)
    · have apart : v ≠ w := fun same => other sha (same ▸ failing)
      exact Or.inr ⟨v, sha, (workerMove_others s after w v move apart).trans failing⟩
  have carry : ∀ (base : Pool chunkDigest) (next : Worker), base.workers = s.workers →
      (∀ digest, Sending (s.workers w) digest → Sending next digest ∨ digest ∈ base.uploaded) →
      (∀ digest ∈ s.uploaded, digest ∈ base.uploaded) → Live s → ∀ digest ∈ s.knownChunks,
      digest ∈ known ∨ digest ∈ base.uploaded ∨
        ∃ v, Sending ((setWorker base w next).workers v) digest := by
    intro base next workers handed more live digest listed
    rcases before live digest listed with old | sent | sending
    · exact Or.inl old
    · exact Or.inr (Or.inl (more digest sent))
    · by_cases uploaded : digest ∈ base.uploaded
      · exact Or.inr (Or.inl uploaded)
      · refine Or.inr (Or.inr (sending_after base w next digest (fun mine => ?_) ?_))
        · rw [workers] at mine
          exact (handed digest mine).resolve_right uploaded
        · rw [workers]
          exact sending
  have silent : ∀ worker next digest, s.workers w = worker → ¬ Sending worker digest →
      Sending (s.workers w) digest → Sending next digest ∨ digest ∈ s.uploaded := by
    intro worker next digest state none sending
    exact absurd (state ▸ sending) none
  cases move with
  | claim job sha state fresh =>
      refine ⟨fun live digest listed => ?_, fun refused => earlier refused (by simp [state])⟩
      rcases List.mem_cons.mp listed with same | listed
      · refine Or.inr (Or.inr ⟨w, Or.inl ⟨job, ?_⟩⟩)
        simp [setWorker_workers, same]
      · exact carry { s with knownChunks := sha :: s.knownChunks } _ rfl
          (fun digest => silent _ _ digest state (by simp [Sending])) (fun _ => id) (alive live)
          digest listed
  | sent job sha state =>
      refine ⟨fun live => ?_, fun refused => earlier refused (by simp [state])⟩
      refine carry { s with uploaded := sha :: s.uploaded, newchunk := s.newchunk + 1 } _ rfl
        (fun digest sending => ?_) (fun _ => List.mem_cons_of_mem _) (alive live)
      rw [state] at sending
      rcases sending with ⟨_, same⟩ | same
      · cases same
        exact Or.inr (List.mem_cons_self ..)
      · cases same
  | unsent job sha state ended =>
      have dead := over_dead ended
      exact ⟨fun live => absurd live dead, fun _ => Or.inl dead⟩
  | fails job sha state running =>
      refine ⟨fun live => ?_, fun _ => Or.inr ⟨w, sha, by simp [setWorker_workers]⟩⟩
      refine carry { s with refused := true } _ rfl (fun digest sending => ?_) (fun _ => id)
        (alive live)
      rw [state] at sending
      rcases sending with ⟨_, same⟩ | same
      · cases same
        exact Or.inl (Or.inr rfl)
      · cases same
  | record sha first state =>
      have dead : ¬ Live (setWorker { s with fatalErr := some first } w .cancelling) := by
        intro live
        cases live.1
      exact ⟨fun live => absurd live dead, fun _ => Or.inl dead⟩
  | receive job rest state queued =>
      exact ⟨fun live => carry { s with uploadJobs := rest } _ rfl
        (fun digest => silent _ _ digest state (by simp [Sending])) (fun _ => id) (alive live),
        fun refused => earlier refused (by simp [state])⟩
  | reuse job sha state listed =>
      exact ⟨fun live => carry { s with reusechunk := s.reusechunk + 1 } _ rfl
        (fun digest => silent _ _ digest state (by simp [Sending])) (fun _ => id) (alive live),
        fun refused => earlier refused (by simp [state])⟩
  | hash job state running =>
      exact ⟨fun live => carry { s with
          walk := setDigest s.walk job.entry (chunkDigest job.data) } _ rfl
        (fun digest => silent _ _ digest state (by simp [Sending])) (fun _ => id) (alive live),
        fun refused => earlier refused (by simp [state])⟩
  | cancel state =>
      exact ⟨fun live => carry { s with cancelled := true } _ rfl
        (fun digest => silent _ _ digest state (by simp [Sending])) (fun _ => id) (alive live),
        fun refused => earlier refused (by simp [state])⟩
  | exit state drained closed =>
      exact ⟨fun live => carry s _ rfl
        (fun digest => silent _ _ digest state (by simp [Sending])) (fun _ => id) (alive live),
        fun refused => earlier refused (by simp [state])⟩
  | drop job state ended =>
      exact ⟨fun live => carry s _ rfl
        (fun digest => silent _ _ digest state (by simp [Sending])) (fun _ => id) (alive live),
        fun refused => earlier refused (by simp [state])⟩

theorem uploads_invariant :
    Invariant (poolSystem chunkDigest sha256 known)
      (fun s => ((((True ∧ WalkSide s) ∧ Shutdown sha256 s) ∧ Flushed s) ∧ Jobs s) ∧
        Uploads known s) :=
  poolSystem_invariant jobs_invariant uploads_start
    (fun s after base _ held move => uploads_walks s after base.1.1.1.2 held move)
    (fun s after w base _ held move => uploads_works s after w base.1.1.2 held move)

end ProxmoxBackup.UploadPoolJobs
