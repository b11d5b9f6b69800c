import ProxmoxBackup.GuiUploads
import Mathlib.Algebra.BigOperators.Fin

/-! Whole runs of a stream of the GUI: the index it closes, and that no step
leaves the walk or a worker waiting for ever. The first comes from the pool of
directorybackup, which every run without an error is one of; the second from a
measure that every inner step lowers, whoever takes it. -/

namespace ProxmoxBackup.GuiUploadRun

open TransitionSystem DynamicChunks UploadPool UploadPoolWalk UploadPoolJobs DynamicIndex GuiUploads

variable {chunkDigest sha256 : Bytes → Digest} {known : List Digest}

/-- An EOF that failed, or a stream that was closed before its EOF, stays so. -/
def Over (s : GuiStream chunkDigest) : Prop :=
  s.phase = .ended ∨ s.phase = .abandoned

theorem over_giveError (s : GuiStream chunkDigest) (past : Over s) : Over (giveError s) := by
  rcases past with phase | phase
  · exact Or.inl (by simp [giveError, phase])
  · exact Or.inl (by simp [giveError, phase])

theorem over_walk (s after : GuiStream chunkDigest) (move : WalkStep sha256 s after)
    (past : Over s) : Over after := by
  have not_at : ∀ phase, s.phase = phase → phase ≠ .ended → phase ≠ .abandoned → Over after := by
    intro phase at_ one two
    rcases past with past | past
    · exact absurd (at_.symm.trans past) one
    · exact absurd (at_.symm.trans past) two
  cases move with
  | refuse op rest todo => exact over_giveError s past
  | closeJobs idle phase => exact not_at _ phase nofun nofun
  | waited idle phase gone => exact not_at _ phase nofun nofun
  | eofFails idle phase => exact not_at _ phase nofun nofun
  | list idle phase clean => exact not_at _ phase nofun nofun
  | close idle phase => exact not_at _ phase nofun nofun
  | assign first rest idle phase => exact not_at _ phase nofun nofun
  | requestFails rest phase => exact not_at _ phase nofun nofun
  | _ => exact past

theorem over_kept (s after : GuiStream chunkDigest) (action : GuiAction chunkDigest)
    (turn : Turn sha256 s action after) (past : Over s) : Over after := by
  cases turn with
  | call c phase idle here =>
      rcases past with past | past
      · rw [phase] at past
        cases past
      · rw [phase] at past
        cases past
  | stop => exact past
  | closeUploads idle rest here =>
      unfold closeUploads
      split
      · exact past
      · rcases past with past | past
        · exact Or.inl (by simp [past])
        · exact Or.inr (by simp [past])
  | leave => exact past
  | walk step _ move => exact over_walk s after move past
  | worker w uploads _ move =>
      have phase := (turn_frame s after w move).2.1
      unfold Over
      rw [phase]
      exact past

theorem going_before (s after : GuiStream chunkDigest) (action : GuiAction chunkDigest)
    (turn : Turn sha256 s action after) (going : Going after) : Going s := by
  have running : ¬ Over s := by
    intro past
    rcases over_kept s after action turn past with ended | abandoned
    · exact going.2.1 ended
    · exact going.2.2 abandoned
  exact ⟨error_latched s after action turn going.1, fun ended => running (Or.inl ended),
    fun abandoned => running (Or.inr abandoned)⟩

theorem going_close (s : GuiStream chunkDigest) (held : Settled s) (before : Going s)
    (rest : resting s.phase = true) (going : Going (closeUploads s)) :
    asPool (closeUploads s) = asPool s := by
  unfold closeUploads at going ⊢
  split
  · rfl
  · next open_ =>
      rw [if_neg open_] at going
      cases phase : s.phase with
      | walking => exact absurd (by simp [phase]) going.2.2
      | sealed index =>
          have out := held.waited (by simp [phase, waitedFor]) ⟨0, by decide⟩
          exact absurd (held.gone _ out).1 open_
      | ended => exact absurd phase before.2.1
      | abandoned => exact absurd phase before.2.2
      | emitting => simp [phase, resting] at rest
      | draining => simp [phase, resting] at rest
      | stopped => simp [phase, resting] at rest
      | assigning more => simp [phase, resting] at rest

/-- A step of a stream that is still going is one of the pool, or none. -/
theorem going_step (s after : GuiStream chunkDigest) (action : GuiAction chunkDigest)
    (held : Settled s) (reached : Reachable (poolSystem chunkDigest sha256 known) (asPool s))
    (taken : guiStep sha256 s action = some after) (going : Going after) :
    Reachable (poolSystem chunkDigest sha256 known) (asPool after) := by
  have turn : Turn sha256 s action after := guiStep_turn s after action taken
  have before := going_before s after action turn going
  cases action with
  | call c =>
      cases turn with
      | call _ phase idle here =>
          rw [startCall_asPool s c phase]
          refine step_pool reached (.call c.asCall) ?_
          have there : (asPool s).phase = .walking := phase
          have none_ : (asPool s).todo = [] := by simp [asPool, idle]
          simp [poolStep, there, none_]
  | stop =>
      cases turn
      exact reached
  | closeUploads =>
      cases turn with
      | closeUploads idle rest here =>
          rw [going_close s held before rest going]
          exact reached
  | leave =>
      cases turn
      exact reached
  | inner step =>
      cases step with
      | walk => exact going_walk reached going taken before.1
      | requestFails =>
          have taken : guiRequestFails s = some after := taken
          unfold guiRequestFails at taken
          split at taken
          · cases taken
            exact absurd rfl going.2.1
          · cases taken
      | worker w uploads => exact going_worker reached going before.1 w uploads taken

theorem going_invariant : Invariant (guiSystem chunkDigest sha256 known) (fun s => Settled s ∧
    (Going s → Reachable (poolSystem chunkDigest sha256 known) (asPool s))) := by
  refine Invariant.relative settled_invariant ?_ ?_
  · rintro s rfl _
    exact reachable_start rfl
  · intro s action after settled _ held taken going
    have turn : Turn sha256 s action after := guiStep_turn s after action taken
    exact going_step s after action settled (held (going_before s after action turn going)) taken
      going

/-- The index closed over a stream: `chunks` are what was given and injected, cut
where the entries say, and the server has every one. -/
structure SealedStream (chunkDigest sha256 : Bytes → Digest) (known : List Digest)
    (s : GuiStream chunkDigest) (index : ClosedIndex) (chunks : List Bytes) : Prop where
  whole : chunks.flatten = s.stream
  assigned : s.assigned = dynamicIndex chunkDigest 0 chunks
  size : index.size = s.stream.length
  chunkcount : index.chunkcount = s.assigned.length
  csum : index.csum = sha256 (indexBytes chunkDigest 0 chunks)
  stored : ∀ digest offset, (digest, offset) ∈ s.assigned → digest ∈ known ∨ digest ∈ s.uploaded
  clean : s.fatalErr = none

theorem stream_sealed (s : GuiStream chunkDigest) (index : ClosedIndex) (held : Settled s)
    (pool : Going s → Reachable (poolSystem chunkDigest sha256 known) (asPool s))
    (closed : s.phase = .sealed index) :
    ∃ chunks, SealedStream chunkDigest sha256 known s index chunks := by
  have clean := held.clean index closed
  have going : Going s := ⟨clean, by simp [closed], by simp [closed]⟩
  obtain ⟨chunks, past⟩ := sealed_sound (asPool s) index (pool_sound _ (pool going)) closed
  exact ⟨chunks, past.whole, past.assigned, past.size, past.chunkcount, past.csum, past.stored,
    clean⟩

/-! Every inner step lowers the work that is left. -/

/-- A chunk weighs enough for each step its job can take. -/
def opWork : GuiOp chunkDigest → Nat
  | .checkFatal | .recorded | .resetChunker => 1
  | .scan b => 20 * (b.length + 1)
  | .enqueue => 17
  | .send _ => 13
  | .inject _ => 4

def todoWork : List (GuiOp chunkDigest) → Nat
  | [] => 0
  | op :: rest => opWork op + todoWork rest

def workerWork : GuiWorker → Nat
  | .idle => 1
  | .received _ => 9
  | .unstopped _ => 8
  | .hashed _ _ => 7
  | .uploading _ _ => 6
  | .failing _ _ => 5
  | .latching _ _ => 4
  | .exited => 0

def phaseWork (s : GuiStream chunkDigest) : Nat :=
  match s.phase with
  | .emitting => s.walk.entries.length + 5
  | .draining => s.walk.entries.length + 4
  | .stopped => s.walk.entries.length + 3
  | .assigning rest => rest.length + 2
  | .sealed _ => 1
  | _ => 0

def work (s : GuiStream chunkDigest) : Nat :=
  todoWork s.todo + 11 * s.uploadJobs.length + (∑ w, workerWork (s.workers w)) + phaseWork s

theorem opWork_pos (op : GuiOp chunkDigest) : 0 < opWork op := by
  cases op <;> simp [opWork]

theorem phaseWork_giveError (s : GuiStream chunkDigest) : phaseWork (giveError s) ≤ phaseWork s := by
  unfold phaseWork giveError
  cases s.phase <;> simp

theorem phaseWork_entry (s after : GuiStream chunkDigest) (phase : after.phase = s.phase)
    (entries : after.walk.entries.length ≤ s.walk.entries.length + 1) :
    phaseWork after ≤ phaseWork s + 1 := by
  unfold phaseWork
  rw [phase]
  cases s.phase <;> simp <;> omega

theorem sum_putWorker (s : GuiStream chunkDigest) (w : Fin chunkUploadWorkers) (next : GuiWorker) :
    (∑ v, workerWork ((putWorker s w next).workers v)) + workerWork (s.workers w) =
      (∑ v, workerWork (s.workers v)) + workerWork next := by
  have after := Finset.add_sum_erase Finset.univ
    (fun v => workerWork ((putWorker s w next).workers v)) (Finset.mem_univ w)
  have before := Finset.add_sum_erase Finset.univ
    (fun v => workerWork (s.workers v)) (Finset.mem_univ w)
  have same : ∑ v ∈ Finset.univ.erase w, workerWork ((putWorker s w next).workers v) =
      ∑ v ∈ Finset.univ.erase w, workerWork (s.workers v) := by
    refine Finset.sum_congr rfl fun v member => ?_
    have other : (putWorker s w next).workers v = s.workers v :=
      Function.update_of_ne (Finset.ne_of_mem_erase member) _ _
    rw [other]
  have own : (putWorker s w next).workers w = next := Function.update_self _ _ _
  simp only [own] at after
  omega

theorem work_worker (s base : GuiStream chunkDigest) (w : Fin chunkUploadWorkers) (next : GuiWorker)
    (todo : base.todo = s.todo) (workers : base.workers = s.workers)
    (phase : phaseWork base = phaseWork s)
    (cheaper : workerWork next + 11 * base.uploadJobs.length <
      workerWork (s.workers w) + 11 * s.uploadJobs.length) : work (putWorker base w next) < work s := by
  have sum := sum_putWorker base w next
  rw [workers] at sum
  have rest : phaseWork (putWorker base w next) = phaseWork s := phase
  simp only [work, rest]
  rw [show (putWorker base w next).todo = s.todo from todo,
    show (putWorker base w next).uploadJobs = base.uploadJobs from rfl]
  omega

theorem work_turn (s after : GuiStream chunkDigest) (w : Fin chunkUploadWorkers)
    (move : WorkerTurn s w after) : work after < work s := by
  cases move with
  | receive job rest state queued =>
      refine work_worker s _ w _ rfl rfl rfl ?_
      simp only [workerWork, state, queued, List.length_cons]
      omega
  | exit state drained closed =>
      exact work_worker s _ w _ rfl rfl rfl (by simp [workerWork, state])
  | noticed job state => exact work_worker s _ w _ rfl rfl rfl (by simp [workerWork, state])
  | unstopped job state => exact work_worker s _ w _ rfl rfl rfl (by simp [workerWork, state])
  | drop job state => exact work_worker s _ w _ rfl rfl rfl (by simp [workerWork, state])
  | hash job state =>
      refine work_worker s _ w _ rfl rfl ?_ (by simp [workerWork, state])
      simp [phaseWork, setDigest]
  | reuse job sha state => exact work_worker s _ w _ rfl rfl rfl (by simp [workerWork, state])
  | claim job sha state => exact work_worker s _ w _ rfl rfl rfl (by simp [workerWork, state])
  | sent job sha state => exact work_worker s _ w _ rfl rfl rfl (by simp [workerWork, state])
  | unsent job sha state => exact work_worker s _ w _ rfl rfl rfl (by simp [workerWork, state])
  | fails job sha err state => exact work_worker s _ w _ rfl rfl rfl (by simp [workerWork, state])
  | latch holding err first state =>
      exact work_worker s _ w _ rfl rfl rfl (by simp [workerWork, state])

/-- A step that works off the call in progress. -/
theorem work_op (s after : GuiStream chunkDigest) (op : GuiOp chunkDigest)
    (rest : List (GuiOp chunkDigest)) (todo : s.todo = op :: rest)
    (workers : after.workers = s.workers) (phase : after.phase = s.phase)
    (entries : after.walk.entries.length ≤ s.walk.entries.length + 1)
    (cheaper : todoWork after.todo + 11 * after.uploadJobs.length + 1 <
      opWork op + todoWork rest + 11 * s.uploadJobs.length) : work after < work s := by
  have later := phaseWork_entry s after phase entries
  simp only [work, workers, todo, todoWork]
  omega

/-- A step of EOF after its last chunk. -/
theorem work_eof (s after : GuiStream chunkDigest) (todo : after.todo = s.todo)
    (jobs : after.uploadJobs = s.uploadJobs) (workers : after.workers = s.workers)
    (lower : phaseWork after < phaseWork s) : work after < work s := by
  simp only [work, todo, jobs, workers]
  omega

theorem work_walk (s after : GuiStream chunkDigest) (move : WalkStep sha256 s after) :
    work after < work s := by
  cases move with
  | refuse op rest todo =>
      have positive := opWork_pos op
      have lower := phaseWork_giveError s
      have empty : (giveError s).todo = [] := rfl
      have jobs : (giveError s).uploadJobs = s.uploadJobs := rfl
      have workers : (giveError s).workers = s.workers := rfl
      simp only [work, empty, jobs, workers, todo, todoWork]
      omega
  | pass op rest todo check =>
      have one : opWork op = 1 := by
        rcases check with rfl | rfl
        · rfl
        · rfl
      simp only [work, phaseWork, todo, todoWork, one]
      omega
  | append b rest C todo =>
      refine work_op s _ _ rest todo rfl rfl (Nat.le_succ _) ?_
      simp only [opWork]
      omega
  | found b rest C cutAt todo positive inside =>
      refine work_op s _ _ rest todo rfl rfl (Nat.le_succ _) ?_
      simp only [todoWork, opWork, List.length_drop]
      omega
  | enqueue rest todo =>
      refine work_op s _ _ rest todo rfl rfl (by simp [ChunkState.queue]) ?_
      simp only [todoWork, opWork]
      omega
  | send job rest todo =>
      refine work_op s _ _ rest todo rfl rfl (Nat.le_succ _) ?_
      simp only [opWork, List.length_append, List.length_singleton]
      omega
  | reset rest todo =>
      have same : phaseWork { s with walk := s.walk.resetChunker, todo := rest } = phaseWork s := rfl
      simp only [work, same, todo, todoWork, opWork]
      omega
  | injected chunk rest todo =>
      refine work_op s _ _ rest todo rfl rfl (by simp [ChunkState.appendKnown]) ?_
      simp only [todoWork, opWork]
      omega
  | closeJobs idle phase => exact work_eof s _ rfl rfl rfl (by simp [phaseWork, phase])
  | waited idle phase gone => exact work_eof s _ rfl rfl rfl (by simp [phaseWork, phase])
  | eofFails idle phase => exact work_eof s _ rfl rfl rfl (by simp [phaseWork, phase])
  | list idle phase clean =>
      exact work_eof s _ rfl rfl rfl (by simp [phaseWork, phase, indexList])
  | close idle phase => exact work_eof s _ rfl rfl rfl (by simp [phaseWork, phase])
  | assign first rest idle phase =>
      refine work_eof s _ rfl rfl rfl ?_
      simp only [phaseWork, phase, List.length_drop, List.length_cons]
      omega
  | requestFails rest phase => exact work_eof s _ rfl rfl rfl (by simp [phaseWork, phase])

theorem work_inner (s after : GuiStream chunkDigest) (step : Inner)
    (taken : innerStep sha256 s step = some after) : work after < work s := by
  have turn : Turn sha256 s (.inner step) after := guiStep_turn s after (.inner step) taken
  cases turn with
  | walk _ _ move => exact work_walk s after move
  | worker w uploads _ move => exact work_turn s after w move

theorem inner_run_bounded (s after : GuiStream chunkDigest) (steps : List Inner)
    (run : Run (innerSystem chunkDigest sha256) s steps after) : steps.length ≤ work s := by
  have nothing : Invariant (innerSystem chunkDigest sha256) (fun _ => True) :=
    ⟨fun _ _ => trivial, fun _ _ _ _ _ => trivial⟩
  have lower : Decreasing (innerSystem chunkDigest sha256) (fun _ => True) work :=
    fun before step next _ taken => work_inner before next step taken
  exact le_trans (Nat.le_add_right _ _) (run_length_le_measure nothing lower run trivial)

/-! Where no inner step is left, nobody waits for anybody: the walk is between
two calls, and a worker is gone or waits for a job that may yet be sent. -/

/-- What the walk may wait for: room in the job channel, or the last worker. -/
theorem walk_moves (s : GuiStream chunkDigest) (op : GuiOp chunkDigest)
    (rest : List (GuiOp chunkDigest)) (todo : s.todo = op :: rest)
    (room : s.uploadJobs.length < chunkUploadWorkers * 2) : ∃ after, guiWalk sha256 s = some after := by
  simp only [guiWalk, todo]
  cases op with
  | checkFatal => exact ⟨_, rfl⟩
  | recorded => exact ⟨_, rfl⟩
  | scan b =>
      simp only [guiOp]
      split
      · exact ⟨_, rfl⟩
      · exact ⟨_, rfl⟩
  | enqueue => exact ⟨_, rfl⟩
  | send job => exact ⟨_, by simp only [guiOp]; exact if_pos room⟩
  | resetChunker => exact ⟨_, rfl⟩
  | inject chunk =>
      simp only [guiOp]
      split
      · exact ⟨_, rfl⟩
      · exact ⟨_, rfl⟩

/-- A worker waits only for a job. -/
theorem worker_waits (s : GuiStream chunkDigest) (w : Fin chunkUploadWorkers)
    (still : guiWorker s w true = none) : s.workers w = .exited ∨
      (s.workers w = .idle ∧ s.uploadJobs = [] ∧ s.jobsClosed = false) := by
  unfold guiWorker at still
  split at still
  · next state =>
      split at still
      · cases still
      · next drained =>
          split at still
          · cases still
          · next open_ => exact Or.inr ⟨state, drained, by simpa using open_⟩
  · cases still
  · split at still
    · cases still
    · cases still
  · split at still
    · cases still
    · cases still
  · rw [if_pos rfl] at still
    cases still
  · cases still
  · cases still
  · next state => exact Or.inl state

structure AtRest (s : GuiStream chunkDigest) : Prop where
  walk : s.todo = [] ∧ resting s.phase = true
  workers : ∀ w, s.workers w = .exited ∨
    (s.workers w = .idle ∧ s.uploadJobs = [] ∧ s.jobsClosed = false)

theorem stuck_at_rest (s : GuiStream chunkDigest) (held : Settled s)
    (stuck : Stuck (innerSystem chunkDigest sha256) s) : AtRest s := by
  have workers : ∀ w, s.workers w = .exited ∨
      (s.workers w = .idle ∧ s.uploadJobs = [] ∧ s.jobsClosed = false) := by
    intro w
    refine worker_waits s w ?_
    by_contra moves
    obtain ⟨after, taken⟩ := Option.ne_none_iff_exists'.mp moves
    exact stuck (.worker w true) after taken
  have walk : guiWalk sha256 s = none := by
    by_contra moves
    obtain ⟨after, taken⟩ := Option.ne_none_iff_exists'.mp moves
    exact stuck .walk after taken
  have drained : s.uploadJobs = [] := by
    rcases workers ⟨0, by decide⟩ with out | ⟨_, drained, _⟩
    · exact (held.gone _ out).2
    · exact drained
  have idle : s.todo = [] := by
    cases todo : s.todo with
    | nil => rfl
    | cons op rest =>
        obtain ⟨after, taken⟩ : ∃ after, guiWalk sha256 s = some after :=
          walk_moves s op rest todo (by simp [drained, chunkUploadWorkers])
        rw [walk] at taken
        cases taken
  refine ⟨⟨idle, ?_⟩, workers⟩
  cases phase : s.phase with
  | emitting => simp [guiWalk, idle, phase] at walk
  | draining =>
      -- The job channel is closed by now, so a worker that waits for a job is gone.
      have all : ∀ w, (s.workers w).isExited = true := by
        intro w
        rcases workers w with out | ⟨_, _, open_⟩
        · rw [out]
          rfl
        · rw [held.draining phase] at open_
          cases open_
      simp [guiWalk, idle, phase, all] at walk
  | stopped =>
      simp only [guiWalk, idle, phase] at walk
      split at walk
      · cases walk
      · cases walk
  | assigning rest =>
      cases rest with
      | nil => simp [guiWalk, idle, phase] at walk
      | cons first rest => simp [guiWalk, idle, phase] at walk
  | _ => rfl

/-- A caller who is done with a stream has closed its job channel. -/
def LeavesClosed (s : GuiStream chunkDigest) : GuiAction chunkDigest → Prop
  | .leave => s.jobsClosed = true
  | _ => True

instance (s : GuiStream chunkDigest) (action : GuiAction chunkDigest) :
    Decidable (LeavesClosed s action) := by
  cases action <;> unfold LeavesClosed <;> infer_instance

/-- The job channel is still open, and nobody is left to close it. -/
structure LeftOpen (s : GuiStream chunkDigest) : Prop where
  left : s.left = true
  open_ : s.jobsClosed = false
  idle : s.todo = []
  rest : resting s.phase = true

theorem leftOpen_kept (s after : GuiStream chunkDigest) (action : GuiAction chunkDigest)
    (lost : LeftOpen s) (turn : Turn sha256 s action after) : LeftOpen after := by
  obtain ⟨left, open_, idle, rest⟩ := lost
  cases turn with
  | call c phase none_ here =>
      rw [left] at here
      cases here
  | stop => exact ⟨left, open_, idle, rest⟩
  | closeUploads _ _ here =>
      rw [left] at here
      cases here
  | leave => exact ⟨rfl, open_, idle, rest⟩
  | walk step _ move =>
      cases move with
      | closeJobs _ phase => simp [phase, resting] at rest
      | waited _ phase => simp [phase, resting] at rest
      | eofFails _ phase => simp [phase, resting] at rest
      | list _ phase => simp [phase, resting] at rest
      | close _ phase => simp [phase, resting] at rest
      | assign _ _ _ phase => simp [phase, resting] at rest
      | requestFails _ phase => simp [phase, resting] at rest
      | refuse op more todo => simp [idle] at todo
      | pass op more todo => simp [idle] at todo
      | append b more C todo => simp [idle] at todo
      | found b more C cutAt todo => simp [idle] at todo
      | enqueue more todo => simp [idle] at todo
      | send job more todo => simp [idle] at todo
      | reset more todo => simp [idle] at todo
      | injected chunk more todo => simp [idle] at todo
  | worker w uploads _ move =>
      obtain ⟨todo, phase, jobsClosed, here, _⟩ := turn_frame s after w move
      exact ⟨here.trans left, jobsClosed.trans open_, todo.trans idle, by rw [phase]; exact rest⟩

theorem leftClosed_kept (s after : GuiStream chunkDigest) (action : GuiAction chunkDigest)
    (closed : s.left = true → s.jobsClosed = true) (turn : Turn sha256 s action after)
    (allowed : LeavesClosed s action) : after.left = true → after.jobsClosed = true := by
  cases turn with
  | call c phase idle here =>
      have away : (startCall s c).left = false := by
        cases c with
        | suggestBoundary =>
            simp only [startCall]
            split
            · exact here
            · exact here
        | _ => exact here
      intro left
      rw [away] at left
      cases left
  | stop => exact closed
  | closeUploads idle rest here =>
      unfold closeUploads
      split
      · exact closed
      · exact fun _ => rfl
  | leave idle rest => exact fun _ => allowed
  | walk step _ move =>
      cases move with
      | closeJobs idle phase => exact fun _ => rfl
      | _ => exact closed
  | worker w uploads _ move =>
      obtain ⟨_, _, jobsClosed, here, _⟩ := turn_frame s after w move
      rw [jobsClosed, here]
      exact closed

/-- What every run of a stream comes to, `actions` being the calls made on it and
the steps taken, in their order. `released` says which callers get rid of the
workers. -/
structure StreamRun (chunkDigest sha256 : Bytes → Digest) (known : List Digest)
    (actions : List (GuiAction chunkDigest)) (s : GuiStream chunkDigest) : Prop where
  sealedWhole : ∀ index, s.phase = .sealed index →
    ∃ chunks, SealedStream chunkDigest sha256 known s index chunks
  finite : ∀ steps after, Run (innerSystem chunkDigest sha256) s steps after → steps.length ≤ work s
  waits : Stuck (innerSystem chunkDigest sha256) s → AtRest s
  released : s.left = true → Stuck (innerSystem chunkDigest sha256) s →
    ((∀ w, s.workers w = .exited) ↔
      Run ((guiSystem chunkDigest sha256 known).restrict LeavesClosed)
        (GuiStream.init chunkDigest known) actions s)

/-- An index is only closed over the whole stream, and the walk and the workers
never wait for each other. A caller who has left leaves no worker waiting exactly
if the job channel was closed by then, be it by EOF or by closeUploads. -/
theorem stream_run (chunkDigest sha256 : Bytes → Digest) (known : List Digest)
    (actions : List (GuiAction chunkDigest)) (s : GuiStream chunkDigest)
    (run : Run (guiSystem chunkDigest sha256 known) (GuiStream.init chunkDigest known) actions s) :
    StreamRun chunkDigest sha256 known actions s := by
  have invariant : Invariant (guiSystem chunkDigest sha256 known) (fun s => Settled s ∧
      (Going s → Reachable (poolSystem chunkDigest sha256 known) (asPool s))) := going_invariant
  obtain ⟨held, pool⟩ := invariant.run run (invariant.start _ rfl)
  have turns : ∀ before action after,
      (guiSystem chunkDigest sha256 known).step before action after →
      Turn sha256 before action after :=
    fun before action after taken => guiStep_turn before after action taken
  refine ⟨fun index => stream_sealed s index held pool,
    fun steps after => inner_run_bounded s after steps, stuck_at_rest s held, fun left stuck => ?_⟩
  have rest := stuck_at_rest s held stuck
  constructor
  · intro gone
    have outcome : Run ((guiSystem chunkDigest sha256 known).restrict LeavesClosed)
        (GuiStream.init chunkDigest known) actions s ∨ LeftOpen s := by
      refine run_restrict_or _ LeftOpen invariant.step
        (fun before action after _ lost taken =>
          leftOpen_kept before after action lost (turns before action after taken)) ?_ run
        (invariant.start _ rfl)
      intro before action after _ taken breaks
      cases turns before action after taken with
      | leave idle resting => exact ⟨rfl, by simpa [LeavesClosed] using breaks, idle, resting⟩
      | _ => exact absurd trivial breaks
    refine outcome.resolve_right fun lost => ?_
    have closed := (held.gone ⟨0, by decide⟩ (gone _)).1
    rw [lost.open_] at closed
    cases closed
  · intro restricted w
    have closed : s.left = true → s.jobsClosed = true := by
      refine run_keeps (fun s : GuiStream chunkDigest => s.left = true → s.jobsClosed = true) ?_
        restricted nofun
      intro before action after closed taken
      exact leftClosed_kept before after action closed (turns before action after taken.1) taken.2
    rcases rest.workers w with out | ⟨_, _, open_⟩
    · exact out
    · rw [closed left] at open_
      cases open_

/-- Three bytes and a known chunk, sealed with two workers taking part. -/
def sealedStream : List (GuiAction (id : Bytes → Digest)) :=
  let reused : KnownChunk (id : Bytes → Digest) := ⟨[8, 9], 2, [8, 9], rfl, rfl⟩
  let walk := GuiAction.inner .walk
  let turn := fun w => GuiAction.inner (.worker ⟨w % 8, Nat.mod_lt w (Nat.zero_lt_succ 7)⟩ true)
  [.call (.injectKnownChunk reused), walk, walk, walk, .call (.handleData [1, 2, 3]), walk, walk,
    .call .eof, walk, walk, walk, walk, walk, turn 3, turn 3, turn 3, turn 3, turn 3, turn 3, turn 0,
    turn 1, turn 2, turn 4, turn 5, turn 6, turn 7, walk, walk, walk, walk, .leave]

theorem stream_run_sealed : ∃ s, s.stream = [8, 9, 1, 2, 3] ∧ s.left = true ∧
    (∃ index, s.phase = .sealed index) ∧ StreamRun id id [[8, 9]] sealedStream s := by
  obtain ⟨s, executed⟩ :
      ∃ s, sealedStream.foldlM (guiStep id) (GuiStream.init id [[8, 9]]) = some s := ⟨_, rfl⟩
  have run : Run (guiSystem id id [[8, 9]]) (GuiStream.init id [[8, 9]]) sealedStream s :=
    run_of_foldlM (guiStep id) (fun _ _ _ taken => taken) executed
  refine ⟨s, ?_, ?_, ?_, stream_run id id [[8, 9]] sealedStream s run⟩
  · cases executed
    rfl
  · cases executed
    rfl
  · cases executed
    exact ⟨_, rfl⟩

/-! A stream that is left with its channel open keeps its idle workers. -/

theorem idle_kept (s after : GuiStream chunkDigest) (action : GuiAction chunkDigest)
    (lost : LeftOpen s) (drained : s.uploadJobs = []) (idle : ∀ w, s.workers w = .idle)
    (turn : Turn sha256 s action after) :
    after.uploadJobs = [] ∧ ∀ w, after.workers w = .idle := by
  obtain ⟨left, open_, none_, rest⟩ := lost
  cases turn with
  | call c phase _ here =>
      rw [left] at here
      cases here
  | stop => exact ⟨drained, idle⟩
  | closeUploads _ _ here =>
      rw [left] at here
      cases here
  | leave => exact ⟨drained, idle⟩
  | walk step _ move =>
      cases move with
      | enqueue more todo => simp [none_] at todo
      | send job more todo => simp [none_] at todo
      | _ => exact ⟨drained, idle⟩
  | worker w uploads _ move =>
      have here := idle w
      cases move with
      | receive job more state queued =>
          rw [drained] at queued
          cases queued
      | exit state _ closed =>
          rw [open_] at closed
          cases closed
      | noticed job state => simp [here] at state
      | unstopped job state => simp [here] at state
      | drop job state => simp [here] at state
      | hash job state => simp [here] at state
      | reuse job sha state => simp [here] at state
      | claim job sha state => simp [here] at state
      | sent job sha state => simp [here] at state
      | unsent job sha state => simp [here] at state
      | fails job sha err state => simp [here] at state
      | latch holding err first state => simp [here] at state

theorem idle_for_good (s after : GuiStream chunkDigest) (actions : List (GuiAction chunkDigest))
    (run : Run (guiSystem chunkDigest sha256 known) s actions after) (lost : LeftOpen s)
    (drained : s.uploadJobs = []) (idle : ∀ w, s.workers w = .idle) :
    ∀ w, after.workers w = .idle := by
  have kept := run_keeps (fun s : GuiStream chunkDigest =>
    LeftOpen s ∧ s.uploadJobs = [] ∧ ∀ w, s.workers w = .idle) ?_ run ⟨lost, drained, idle⟩
  · exact kept.2.2
  · intro before action next held taken
    have turn : Turn sha256 before action next := guiStep_turn before next action taken
    exact ⟨leftOpen_kept before next action held.1 turn,
      idle_kept before next action held.1 held.2.1 held.2.2 turn⟩

/-- The upload of a first chunk fails while a second one is being filled: EOF sees
the error before it has closed the job channel. -/
def failedEof : List (GuiAction (id : Bytes → Digest)) :=
  let walk := GuiAction.inner .walk
  let turn := GuiAction.inner (.worker ⟨0, by decide⟩ false)
  [.call (.handleData [1]), walk, walk, .call .forceBoundary, walk, walk, walk, walk, walk,
    .call (.handleData [2]), walk, walk, turn, turn, turn, turn, turn, turn, turn,
    .call .eof, walk, .leave]

theorem idle_of_work (worker : GuiWorker) (one : workerWork worker = 1) : worker = .idle := by
  cases worker <;> simp [workerWork] at one ⊢

theorem failed_eof_strands_workers :
    ∃ s, Run (guiSystem id id []) (GuiStream.init id []) failedEof s ∧
      ∀ further after, Run (guiSystem id id []) s further after → ∀ w, after.workers w = .idle := by
  have outcome : (failedEof.foldlM (guiStep id) (GuiStream.init id [])).map (fun s =>
      s.left && !s.jobsClosed && s.todo.isEmpty && resting s.phase && s.uploadJobs.isEmpty &&
        (List.finRange chunkUploadWorkers).all fun w => workerWork (s.workers w) == 1) =
      some true := by decide +kernel
  obtain ⟨s, executed, facts⟩ := Option.map_eq_some_iff.mp outcome
  simp only [Bool.and_eq_true, Bool.not_eq_true', List.isEmpty_iff, List.all_eq_true,
    beq_iff_eq] at facts
  obtain ⟨⟨⟨⟨⟨left, open_⟩, none_⟩, rest⟩, drained⟩, idle⟩ := facts
  have run : Run (guiSystem id id []) (GuiStream.init id []) failedEof s :=
    run_of_foldlM (guiStep id) (fun _ _ _ taken => taken) executed
  refine ⟨s, run, fun further after later => ?_⟩
  exact idle_for_good s after further later ⟨left, open_, none_, rest⟩ drained
    fun w => idle_of_work _ (idle w (List.mem_finRange w))

end ProxmoxBackup.GuiUploadRun
