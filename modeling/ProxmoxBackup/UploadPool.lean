import ProxmoxBackup.TransitionSystem
import ProxmoxBackup.DynamicChunks
import Mathlib.Logic.Function.Basic

/-! The upload pool of directorybackup/main.go: the walk's calls on ChunkState,
the job channel, the workers that hash, look up and upload, and the index
assigned and closed by Eof. A call is a list of walk operations, each taken
between two worker steps, so a run is an arbitrary interleaving at the points
where the code touches shared data. One ChunkState has its own `knownChunks`,
as backup_real gives each stream its own. Upload and request retries are one
outcome, chosen by the environment. A chunk's hex name is its digest.

`data` and `stream` record what the calls handed over; `uploaded` and `refused`
what the uploads answered. The code reads none of the four. -/

namespace ProxmoxBackup.UploadPool

open TransitionSystem DynamicChunks

def chunkUploadWorkers : Nat := 8

variable {chunkDigest : Bytes → Digest}

inductive Worker where
  | idle
  | received (job : UploadJob)
  | hashed (job : UploadJob) (sha : Digest)
  | uploading (job : UploadJob) (sha : Digest)
  | failing (sha : Digest)
  | cancelling
  | exited

inductive WalkOp (chunkDigest : Bytes → Digest) where
  | checkErr
  | scan (b : Bytes)
  | enqueue
  | send (job : UploadJob)
  | resetChunker
  | inject (chunk : KnownChunk chunkDigest)

structure ClosedIndex where
  csum : Digest
  size : Nat
  chunkcount : Nat

/-- How far Eof is. `ended` is a stream whose Eof failed, or one abandoned. -/
inductive Phase where
  | walking
  | emitting
  | draining
  | stopped
  | assigning (rest : List (Digest × Nat))
  | sealed (index : ClosedIndex)
  | ended
  | abandoned

structure Pool (chunkDigest : Bytes → Digest) where
  walk : ChunkState
  phase : Phase
  todo : List (WalkOp chunkDigest)
  uploadJobs : List UploadJob
  jobsClosed : Bool
  workers : Fin chunkUploadWorkers → Worker
  cancelled : Bool
  fatalErr : Option Digest
  knownChunks : List Digest
  newchunk : Nat
  reusechunk : Nat
  assigned : List (Digest × Nat)
  data : List Bytes
  stream : Bytes
  uploaded : List Digest
  refused : Bool

def Pool.init (chunkDigest : Bytes → Digest) (known : List Digest) : Pool chunkDigest where
  walk := ChunkState.init
  phase := .walking
  todo := []
  uploadJobs := []
  jobsClosed := false
  workers := fun _ => .idle
  cancelled := false
  fatalErr := none
  knownChunks := known
  newchunk := 0
  reusechunk := 0
  assigned := []
  data := []
  stream := []
  uploaded := []
  refused := false

inductive Call (chunkDigest : Bytes → Digest) where
  | handleData (b : Bytes)
  | suggestBoundary
  | forceBoundary
  | injectKnownChunk (chunk : KnownChunk chunkDigest)
  | eof
  | stopUploads

def emitOps (walk : ChunkState) : List (WalkOp chunkDigest) :=
  if walk.currentChunk.length = 0 then [] else [.checkErr, .enqueue]

def beginCall (s : Pool chunkDigest) : Call chunkDigest → Pool chunkDigest
  | .handleData b => { s with todo := [.checkErr, .scan b], stream := s.stream ++ b }
  | .suggestBoundary =>
      let n := s.walk.currentChunk.length
      if n < s.walk.C.chunkSizeMin ∨ n > s.walk.C.chunkSizeMax then s
      else { s with todo := emitOps s.walk ++ [.resetChunker] }
  | .forceBoundary => { s with todo := emitOps s.walk ++ [.resetChunker] }
  | .injectKnownChunk chunk => { s with todo := [.checkErr, .inject chunk] }
  | .eof => { s with todo := emitOps s.walk, phase := .emitting }
  | .stopUploads => { s with phase := .abandoned, cancelled := true, jobsClosed := true }

/-- A call returns its error: the rest of it is not run, and an Eof is over. -/
def returnError (s : Pool chunkDigest) : Pool chunkDigest :=
  { s with todo := [], phase := match s.phase with
      | .walking => .walking
      | _ => .ended }

def walkOp (s : Pool chunkDigest) (rest : List (WalkOp chunkDigest)) :
    WalkOp chunkDigest → Option (Pool chunkDigest)
  | .checkErr => some (if s.fatalErr.isSome then returnError s else { s with todo := rest })
  | .scan b =>
      let (walk, left) := s.walk.scanStep b
      match left with
      | none => some { s with walk := walk, todo := rest }
      | some more =>
          some { s with walk := walk, todo := .checkErr :: .enqueue :: .scan more :: rest }
  | .enqueue =>
      let (walk, job) := s.walk.queue
      some { s with
        walk := walk, data := s.data ++ [s.walk.currentChunk], todo := .send job :: rest }
  | .send job =>
      -- The channel holds two jobs a worker; the walk waits while it is full.
      if s.uploadJobs.length < chunkUploadWorkers * 2 then
        some { s with uploadJobs := s.uploadJobs ++ [job], todo := rest }
      else none
  | .resetChunker => some { s with walk := s.walk.resetChunker, todo := rest }
  | .inject chunk =>
      if s.walk.currentChunk.length ≠ 0 ∨ chunk.digest ∉ s.knownChunks then
        some (returnError s)
      else
        some { s with
          reusechunk := s.reusechunk + 1
          walk := s.walk.appendKnown chunk.digest chunk.size
          data := s.data ++ [chunk.data]
          stream := s.stream ++ chunk.data
          todo := rest }

/-- indexList: each chunk's digest and offset, and the bytes the checksum is over. -/
def indexList (entries : List ChunkEntry) : List (Digest × Nat) :=
  entries.map fun e => (e.digest, e.offset)

def checksumInput (entries : List ChunkEntry) : Bytes :=
  entries.flatMap fun e => LittleEndian.encode 8 (e.offset + e.size) ++ e.digest

/-- What CloseDynamicIndex is sent. -/
def closedIndex (sha256 : Bytes → Digest) (walk : ChunkState) : ClosedIndex :=
  ⟨sha256 (checksumInput walk.entries), walk.pos, walk.chunkcount⟩

def Worker.isExited : Worker → Bool
  | .exited => true
  | _ => false

/-- The walk's next step: the call in progress, then the rest of Eof. -/
def walkStep (sha256 : Bytes → Digest) (s : Pool chunkDigest) :
    Option (Pool chunkDigest) :=
  match s.todo with
  | op :: rest => walkOp s rest op
  | [] =>
      match s.phase with
      | .emitting => some { s with phase := .draining, jobsClosed := true }
      | .draining =>
          if (List.finRange chunkUploadWorkers).all fun w => (s.workers w).isExited then
            some { s with phase := .stopped, cancelled := true }
          else none
      | .stopped =>
          if s.fatalErr.isSome then some { s with phase := .ended }
          else some { s with phase := .assigning (indexList s.walk.entries) }
      | .assigning [] =>
          some { s with phase := .sealed (closedIndex sha256 s.walk) }
      | .assigning (first :: rest) =>
          some { s with
            assigned := s.assigned ++ (first :: rest).take 128
            phase := .assigning ((first :: rest).drop 128) }
      | _ => none

/-- A request of closeIndex fails for good. -/
def walkFails (s : Pool chunkDigest) : Option (Pool chunkDigest) :=
  match s.phase with
  | .assigning _ => some { s with phase := .ended }
  | _ => none

def setWorker (s : Pool chunkDigest) (w : Fin chunkUploadWorkers) (next : Worker) :
    Pool chunkDigest :=
  { s with workers := Function.update s.workers w next }

def setDigest (walk : ChunkState) (entry : Nat) (digest : Digest) : ChunkState :=
  { walk with entries := walk.entries.modify entry fun e => { e with digest := digest } }

/-- What one worker does next; `uploads` is the outcome of its upload. -/
def workerStep (s : Pool chunkDigest) (w : Fin chunkUploadWorkers)
    (uploads : Bool) : Option (Pool chunkDigest) :=
  match s.workers w with
  | .idle =>
      match s.uploadJobs with
      | job :: rest => some (setWorker { s with uploadJobs := rest } w (.received job))
      | [] => if s.jobsClosed then some (setWorker s w .exited) else none
  | .received job =>
      if s.cancelled then some (setWorker s w .idle)
      else
        let sha := chunkDigest job.data
        some (setWorker { s with walk := setDigest s.walk job.entry sha } w (.hashed job sha))
  | .hashed job sha =>
      if sha ∈ s.knownChunks then
        some (setWorker { s with reusechunk := s.reusechunk + 1 } w .idle)
      else some (setWorker { s with knownChunks := sha :: s.knownChunks } w (.uploading job sha))
  | .uploading _ sha =>
      if uploads then
        some (setWorker { s with uploaded := sha :: s.uploaded, newchunk := s.newchunk + 1 } w .idle)
      else
        let next := if s.cancelled then Worker.idle else .failing sha
        some (setWorker { s with refused := true } w next)
  | .failing sha =>
      let first := match s.fatalErr with
        | some earlier => some earlier
        | none => some sha
      some (setWorker { s with fatalErr := first } w .cancelling)
  | .cancelling => some (setWorker { s with cancelled := true } w .idle)
  | .exited => none

inductive PoolAction (chunkDigest : Bytes → Digest) where
  | call (c : Call chunkDigest)
  | walk
  | requestFails
  | worker (w : Fin chunkUploadWorkers) (uploads : Bool)

def poolStep (sha256 : Bytes → Digest) (s : Pool chunkDigest) :
    PoolAction chunkDigest → Option (Pool chunkDigest)
  | .call c =>
      match s.phase, s.todo with
      | .walking, [] => some (beginCall s c)
      | _, _ => none
  | .walk => walkStep sha256 s
  | .requestFails => walkFails s
  | .worker w uploads => workerStep s w uploads

def poolSystem (chunkDigest sha256 : Bytes → Digest) (known : List Digest) :
    System (Pool chunkDigest) (PoolAction chunkDigest) where
  start s := s = Pool.init chunkDigest known
  step before action after := poolStep sha256 before action = some after

/-- Everything the walk's side of a step can do, guards included. The invariants
below are cases on this relation and never unfold the step functions. -/
inductive WalkMove (sha256 : Bytes → Digest) (s : Pool chunkDigest) :
    Pool chunkDigest → Prop where
  | call (c : Call chunkDigest) (walking : s.phase = .walking) (idle : s.todo = []) :
      WalkMove sha256 s (beginCall s c)
  | refuse (rest) (next : s.todo = .checkErr :: rest) (failed : s.fatalErr ≠ none) :
      WalkMove sha256 s (returnError s)
  | pass (rest) (next : s.todo = .checkErr :: rest) (clean : s.fatalErr = none) :
      WalkMove sha256 s { s with todo := rest }
  | append (b rest C) (next : s.todo = .scan b :: rest) :
      WalkMove sha256 s { s with
        walk := { s.walk with C := C, currentChunk := s.walk.currentChunk ++ b }, todo := rest }
  | found (b rest C cutAt) (next : s.todo = .scan b :: rest) :
      WalkMove sha256 s { s with
        walk := { s.walk with C := C, currentChunk := s.walk.currentChunk ++ b.take cutAt }
        todo := .checkErr :: .enqueue :: .scan (b.drop cutAt) :: rest }
  | enqueue (rest) (next : s.todo = .enqueue :: rest) :
      WalkMove sha256 s { s with
        walk := s.walk.queue.1, data := s.data ++ [s.walk.currentChunk]
        todo := .send s.walk.queue.2 :: rest }
  | send (job rest) (next : s.todo = .send job :: rest) :
      WalkMove sha256 s { s with uploadJobs := s.uploadJobs ++ [job], todo := rest }
  | reset (rest) (next : s.todo = .resetChunker :: rest) :
      WalkMove sha256 s { s with walk := s.walk.resetChunker, todo := rest }
  | injectRefused (chunk rest) (next : s.todo = .inject chunk :: rest) :
      WalkMove sha256 s (returnError s)
  | injected (chunk rest) (next : s.todo = .inject chunk :: rest)
      (nothingPending : s.walk.currentChunk = []) (registered : chunk.digest ∈ s.knownChunks) :
      WalkMove sha256 s { s with
        reusechunk := s.reusechunk + 1
        walk := s.walk.appendKnown chunk.digest chunk.size
        data := s.data ++ [chunk.data], stream := s.stream ++ chunk.data, todo := rest }
  | closeJobs (idle : s.todo = []) (reached : s.phase = .emitting) :
      WalkMove sha256 s { s with phase := .draining, jobsClosed := true }
  | waited (reached : s.phase = .draining) (gone : ∀ w, s.workers w = .exited) :
      WalkMove sha256 s { s with phase := .stopped, cancelled := true }
  | eofFails (reached : s.phase = .stopped) (failed : s.fatalErr ≠ none) :
      WalkMove sha256 s { s with phase := .ended }
  | list (reached : s.phase = .stopped) (clean : s.fatalErr = none) :
      WalkMove sha256 s { s with phase := .assigning (indexList s.walk.entries) }
  | close (reached : s.phase = .assigning []) :
      WalkMove sha256 s { s with phase := .sealed (closedIndex sha256 s.walk) }
  | assign (rest) (reached : s.phase = .assigning rest) :
      WalkMove sha256 s { s with
        assigned := s.assigned ++ rest.take 128, phase := .assigning (rest.drop 128) }
  | requestFails (rest) (reached : s.phase = .assigning rest) :
      WalkMove sha256 s { s with phase := .ended }

/-- Everything one worker's step can do. -/
inductive WorkerMove (s : Pool chunkDigest) (w : Fin chunkUploadWorkers) :
    Pool chunkDigest → Prop where
  | receive (job rest) (state : s.workers w = .idle) (queued : s.uploadJobs = job :: rest) :
      WorkerMove s w (setWorker { s with uploadJobs := rest } w (.received job))
  | exit (state : s.workers w = .idle) (drained : s.uploadJobs = [])
      (closed : s.jobsClosed = true) : WorkerMove s w (setWorker s w .exited)
  | drop (job) (state : s.workers w = .received job) (ended : s.cancelled = true) :
      WorkerMove s w (setWorker s w .idle)
  | hash (job) (state : s.workers w = .received job) (running : s.cancelled = false) :
      WorkerMove s w (setWorker
        { s with walk := setDigest s.walk job.entry (chunkDigest job.data) } w
        (.hashed job (chunkDigest job.data)))
  | reuse (job sha) (state : s.workers w = .hashed job sha) (known : sha ∈ s.knownChunks) :
      WorkerMove s w (setWorker { s with reusechunk := s.reusechunk + 1 } w .idle)
  | claim (job sha) (state : s.workers w = .hashed job sha) (fresh : sha ∉ s.knownChunks) :
      WorkerMove s w (setWorker { s with knownChunks := sha :: s.knownChunks } w
        (.uploading job sha))
  | sent (job sha) (state : s.workers w = .uploading job sha) :
      WorkerMove s w (setWorker
        { s with uploaded := sha :: s.uploaded, newchunk := s.newchunk + 1 } w .idle)
  | unsent (job sha) (state : s.workers w = .uploading job sha) (ended : s.cancelled = true) :
      WorkerMove s w (setWorker { s with refused := true } w .idle)
  | fails (job sha) (state : s.workers w = .uploading job sha) (running : s.cancelled = false) :
      WorkerMove s w (setWorker { s with refused := true } w (.failing sha))
  | record (sha first) (state : s.workers w = .failing sha) :
      WorkerMove s w (setWorker { s with fatalErr := some first } w .cancelling)
  | cancel (state : s.workers w = .cancelling) :
      WorkerMove s w (setWorker { s with cancelled := true } w .idle)

theorem walkOp_move (sha256 : Bytes → Digest) (s after : Pool chunkDigest)
    (op : WalkOp chunkDigest) (rest : List (WalkOp chunkDigest)) (next : s.todo = op :: rest)
    (taken : walkOp s rest op = some after) : WalkMove sha256 s after := by
  cases op with
  | checkErr =>
      simp only [walkOp, Option.some.injEq] at taken
      subst taken
      split
      · next failed => exact .refuse rest next (by simpa [Option.isSome_iff_ne_none] using failed)
      · next clean => exact .pass rest next (by simpa using clean)
  | scan b =>
      simp only [walkOp] at taken
      rcases scanStep_cases s.walk b with ⟨C, same⟩ | ⟨C, cutAt, _, _, same⟩
      · rw [same] at taken
        cases taken
        exact .append b rest C next
      · rw [same] at taken
        cases taken
        exact .found b rest C cutAt next
  | enqueue =>
      simp only [walkOp, Option.some.injEq] at taken
      subst taken
      exact .enqueue rest next
  | send job =>
      simp only [walkOp] at taken
      split at taken
      · cases taken
        exact .send job rest next
      · cases taken
  | resetChunker =>
      simp only [walkOp, Option.some.injEq] at taken
      subst taken
      exact .reset rest next
  | inject chunk =>
      simp only [walkOp] at taken
      split at taken
      · cases taken
        exact .injectRefused chunk rest next
      · next accepted =>
          rw [not_or] at accepted
          cases taken
          exact .injected chunk rest next (by simpa using accepted.1) (by simpa using accepted.2)

theorem walkStep_move (sha256 : Bytes → Digest) (s after : Pool chunkDigest)
    (taken : walkStep sha256 s = some after) : WalkMove sha256 s after := by
  unfold walkStep at taken
  split at taken
  · next op rest next => exact walkOp_move sha256 s after op rest next taken
  · next idle =>
      split at taken
      · next reached =>
          cases taken
          exact .closeJobs idle reached
      · next reached =>
          split at taken
          · next gone =>
              cases taken
              refine .waited reached fun w => ?_
              have exited := List.all_eq_true.mp gone w (List.mem_finRange w)
              revert exited
              cases s.workers w <;> simp [Worker.isExited]
          · cases taken
      · next reached =>
          split at taken
          · next failed =>
              cases taken
              exact .eofFails reached (by simpa [Option.isSome_iff_ne_none] using failed)
          · next clean =>
              cases taken
              exact .list reached (by simpa using clean)
      · next reached =>
          cases taken
          exact .close reached
      · next first rest reached =>
          cases taken
          exact .assign (first :: rest) reached
      · cases taken

theorem workerStep_move (s after : Pool chunkDigest) (w : Fin chunkUploadWorkers)
    (uploads : Bool) (taken : workerStep s w uploads = some after) : WorkerMove s w after := by
  unfold workerStep at taken
  split at taken
  · next state =>
      split at taken
      · next job rest queued =>
          cases taken
          exact .receive job rest state queued
      · next drained =>
          split at taken
          · next closed =>
              cases taken
              exact .exit state drained closed
          · cases taken
  · next job state =>
      split at taken
      · next ended =>
          cases taken
          exact .drop job state ended
      · next running =>
          cases taken
          exact .hash job state (by simpa using running)
  · next job sha state =>
      split at taken
      · next known =>
          cases taken
          exact .reuse job sha state known
      · next fresh =>
          cases taken
          exact .claim job sha state fresh
  · next job sha state =>
      split at taken
      · cases taken
        exact .sent job sha state
      · by_cases ended : s.cancelled = true
        · rw [if_pos ended, Option.some.injEq] at taken
          subst taken
          exact .unsent job sha state ended
        · rw [if_neg ended, Option.some.injEq] at taken
          subst taken
          exact .fails job sha state (by simpa using ended)
  · next sha state =>
      split at taken
      · next earlier _ =>
          cases taken
          exact .record sha earlier state
      · cases taken
        exact .record sha sha state
  · next state =>
      cases taken
      exact .cancel state
  · cases taken

theorem poolStep_move (sha256 : Bytes → Digest) (s after : Pool chunkDigest)
    (action : PoolAction chunkDigest) (taken : poolStep sha256 s action = some after) :
    WalkMove sha256 s after ∨ ∃ w, WorkerMove s w after := by
  cases action with
  | call c =>
      simp only [poolStep] at taken
      split at taken
      · next walking idle =>
          cases taken
          exact Or.inl (.call c walking idle)
      · cases taken
  | walk => exact Or.inl (walkStep_move sha256 s after taken)
  | requestFails =>
      simp only [poolStep, walkFails] at taken
      split at taken
      · next rest reached =>
          cases taken
          exact Or.inl (.requestFails rest reached)
      · cases taken
  | worker w uploads => exact Or.inr ⟨w, workerStep_move s after w uploads taken⟩

/-- The step rule of every invariant below: the two sides apart. -/
theorem poolSystem_invariant {sha256 : Bytes → Digest} {known : List Digest}
    {base holds : Pool chunkDigest → Prop}
    (held : Invariant (poolSystem chunkDigest sha256 known) base)
    (start : holds (Pool.init chunkDigest known))
    (walks : ∀ s after, base s → base after → holds s → WalkMove sha256 s after → holds after)
    (works : ∀ s after w, base s → base after → holds s → WorkerMove s w after → holds after) :
    Invariant (poolSystem chunkDigest sha256 known) (fun s => base s ∧ holds s) := by
  refine held.relative (fun state started => started ▸ start) ?_
  intro before action after known_ known' holds_ taken
  rcases poolStep_move sha256 before after action taken with move | ⟨w, move⟩
  · exact walks before after known_ known' holds_ move
  · exact works before after w known_ known' holds_ move

end ProxmoxBackup.UploadPool
