import ProxmoxBackup.DynamicIndex

/-! ChunkState of gui/backup_inline.go with its eight upload workers. It differs
from the pool of directorybackup in what ends a stream: a worker stops at the
first fatal error, the Stop button's context is cancelled from outside at any
moment, recordChunk looks for an error once more, and a caller that gives a
stream up closes its job channel, or does not. While there is no error every
step is one of that pool, which is how an index closed here is shown whole.
Digests are filled in through the entry's place in `entries`, as there, so the
entry is put there before its job is sent; the source sends first, and nobody but
the walk reads `entries` in between. What is only counted and logged is left out. -/

namespace ProxmoxBackup.GuiUploads

open TransitionSystem DynamicChunks UploadPool UploadPoolWalk UploadPoolJobs DynamicIndex

variable {chunkDigest sha256 : Bytes → Digest} {known : List Digest}

inductive Fatal where
  | stopped
  | upload (sha : Digest)

/-- `latching` still holds what the error is about. -/
inductive GuiWorker where
  | idle
  | received (job : UploadJob)
  | unstopped (job : UploadJob)
  | hashed (job : UploadJob) (sha : Digest)
  | uploading (job : UploadJob) (sha : Digest)
  | failing (job : UploadJob) (sha : Digest)
  | latching (holding : Worker) (err : Fatal)
  | exited

inductive GuiOp (chunkDigest : Bytes → Digest) where
  | checkFatal
  | scan (b : Bytes)
  | enqueue
  | send (job : UploadJob)
  | recorded
  | resetChunker
  | inject (chunk : KnownChunk chunkDigest)

structure GuiStream (chunkDigest : Bytes → Digest) where
  walk : ChunkState
  phase : Phase
  todo : List (GuiOp chunkDigest)
  uploadJobs : List UploadJob
  jobsClosed : Bool
  workers : Fin chunkUploadWorkers → GuiWorker
  stopped : Bool
  left : Bool
  fatalErr : Option Fatal
  knownChunks : List Digest
  newchunk : Nat
  reusechunk : Nat
  assigned : List (Digest × Nat)
  data : List Bytes
  stream : Bytes
  uploaded : List Digest

def GuiStream.init (chunkDigest : Bytes → Digest) (known : List Digest) : GuiStream chunkDigest where
  walk := ChunkState.init
  phase := .walking
  todo := []
  uploadJobs := []
  jobsClosed := false
  workers := fun _ => .idle
  stopped := false
  left := false
  fatalErr := none
  knownChunks := known
  newchunk := 0
  reusechunk := 0
  assigned := []
  data := []
  stream := []
  uploaded := []

inductive GuiCall (chunkDigest : Bytes → Digest) where
  | handleData (b : Bytes)
  | suggestBoundary
  | forceBoundary
  | injectKnownChunk (chunk : KnownChunk chunkDigest)
  | eof

/-- processChunk of a chunk that is not empty. -/
def processOps (walk : ChunkState) : List (GuiOp chunkDigest) :=
  if walk.currentChunk.length = 0 then [] else [.checkFatal, .enqueue]

/-- SuggestBoundary looks at the chunk's size only, which is no less than
MinSize and so not 0. -/
def startCall (s : GuiStream chunkDigest) : GuiCall chunkDigest → GuiStream chunkDigest
  | .handleData b => { s with todo := [.checkFatal, .scan b], stream := s.stream ++ b }
  | .suggestBoundary =>
      let n := s.walk.currentChunk.length
      if n < s.walk.C.chunkSizeMin ∨ n > s.walk.C.chunkSizeMax then s
      else { s with todo := processOps s.walk ++ [.resetChunker] }
  | .forceBoundary => { s with todo := processOps s.walk ++ [.resetChunker] }
  | .injectKnownChunk chunk => { s with todo := [.checkFatal, .inject chunk] }
  | .eof => { s with todo := processOps s.walk, phase := .emitting }

def giveError (s : GuiStream chunkDigest) : GuiStream chunkDigest :=
  { s with todo := [], phase := match s.phase with
      | .walking => .walking
      | _ => .ended }

def guiOp (s : GuiStream chunkDigest) (rest : List (GuiOp chunkDigest)) :
    GuiOp chunkDigest → Option (GuiStream chunkDigest)
  | .checkFatal | .recorded =>
      some (if s.fatalErr.isSome then giveError s else { s with todo := rest })
  | .scan b =>
      let (walk, left) := s.walk.scanStep b
      match left with
      | none => some { s with walk := walk, todo := rest }
      | some more =>
          some { s with walk := walk, todo := .checkFatal :: .enqueue :: .scan more :: rest }
  | .enqueue =>
      let (walk, job) := s.walk.queue
      some { s with
        walk := walk, data := s.data ++ [s.walk.currentChunk]
        todo := .send job :: .recorded :: rest }
  | .send job =>
      -- The channel holds two jobs a worker; the walk waits while it is full.
      if s.uploadJobs.length < chunkUploadWorkers * 2 then
        some { s with uploadJobs := s.uploadJobs ++ [job], todo := rest }
      else none
  | .resetChunker => some { s with walk := s.walk.resetChunker, todo := rest }
  | .inject chunk =>
      if s.walk.currentChunk.length ≠ 0 ∨ chunk.digest ∉ s.knownChunks then some (giveError s)
      else
        some { s with
          reusechunk := s.reusechunk + 1
          walk := s.walk.appendKnown chunk.digest chunk.size
          data := s.data ++ [chunk.data]
          stream := s.stream ++ chunk.data
          todo := .recorded :: rest }

def GuiWorker.isExited : GuiWorker → Bool
  | .exited => true
  | _ => false

def guiWalk (sha256 : Bytes → Digest) (s : GuiStream chunkDigest) : Option (GuiStream chunkDigest) :=
  match s.todo with
  | op :: rest => guiOp s rest op
  | [] =>
      match s.phase with
      | .emitting => some { s with phase := .draining, jobsClosed := true }
      | .draining =>
          if (List.finRange chunkUploadWorkers).all fun w => (s.workers w).isExited then
            some { s with phase := .stopped }
          else none
      | .stopped =>
          if s.fatalErr.isSome then some { s with phase := .ended }
          else some { s with phase := .assigning (indexList s.walk.entries) }
      | .assigning [] => some { s with phase := .sealed (closedIndex sha256 s.walk) }
      | .assigning (first :: rest) =>
          some { s with
            assigned := s.assigned ++ (first :: rest).take 128
            phase := .assigning ((first :: rest).drop 128) }
      | _ => none

/-- A request of EOF fails for good. -/
def guiRequestFails (s : GuiStream chunkDigest) : Option (GuiStream chunkDigest) :=
  match s.phase with
  | .assigning _ => some { s with phase := .ended }
  | _ => none

def putWorker (s : GuiStream chunkDigest) (w : Fin chunkUploadWorkers) (next : GuiWorker) :
    GuiStream chunkDigest :=
  { s with workers := Function.update s.workers w next }

def guiWorker (s : GuiStream chunkDigest) (w : Fin chunkUploadWorkers) (uploads : Bool) :
    Option (GuiStream chunkDigest) :=
  match s.workers w with
  | .idle =>
      match s.uploadJobs with
      | job :: rest => some (putWorker { s with uploadJobs := rest } w (.received job))
      | [] => if s.jobsClosed then some (putWorker s w .exited) else none
  | .received job =>
      some (putWorker s w (if s.stopped then .latching (.received job) .stopped else .unstopped job))
  | .unstopped job =>
      if s.fatalErr.isSome then some (putWorker s w .idle)
      else
        let sha := chunkDigest job.data
        some (putWorker { s with walk := setDigest s.walk job.entry sha } w (.hashed job sha))
  | .hashed job sha =>
      if sha ∈ s.knownChunks then
        some (putWorker { s with reusechunk := s.reusechunk + 1 } w .idle)
      else some (putWorker { s with knownChunks := sha :: s.knownChunks } w (.uploading job sha))
  | .uploading job sha =>
      if uploads then
        some (putWorker { s with uploaded := sha :: s.uploaded, newchunk := s.newchunk + 1 } w .idle)
      else some (putWorker s w (.failing job sha))
  | .failing job sha =>
      some (putWorker s w (.latching (.uploading job sha) (if s.stopped then .stopped else .upload sha)))
  | .latching _ err =>
      let first := match s.fatalErr with
        | some earlier => some earlier
        | none => some err
      some (putWorker { s with fatalErr := first } w .idle)
  | .exited => none

/-- Between two calls, or after the last one. -/
def resting : Phase → Bool
  | .walking | .sealed _ | .ended | .abandoned => true
  | _ => false

/-- closeUploads by who gives the stream up: a second close does nothing. -/
def closeUploads (s : GuiStream chunkDigest) : GuiStream chunkDigest :=
  if s.jobsClosed then s
  else { s with jobsClosed := true, phase := match s.phase with
      | .walking => .abandoned
      | other => other }

/-- Steps of the walk and of the workers, which nobody outside is needed for. -/
inductive Inner where
  | walk
  | requestFails
  | worker (w : Fin chunkUploadWorkers) (uploads : Bool)

inductive GuiAction (chunkDigest : Bytes → Digest) where
  | call (c : GuiCall chunkDigest)
  | stop
  | closeUploads
  | leave
  | inner (step : Inner)

def innerStep (sha256 : Bytes → Digest) (s : GuiStream chunkDigest) :
    Inner → Option (GuiStream chunkDigest)
  | .walk => guiWalk sha256 s
  | .requestFails => guiRequestFails s
  | .worker w uploads => guiWorker s w uploads

def guiStep (sha256 : Bytes → Digest) (s : GuiStream chunkDigest) :
    GuiAction chunkDigest → Option (GuiStream chunkDigest)
  | .call c =>
      match s.phase, s.todo, s.left with
      | .walking, [], false => some (startCall s c)
      | _, _, _ => none
  | .stop => some { s with stopped := true }
  | .closeUploads =>
      if s.todo.isEmpty && resting s.phase && !s.left then some (closeUploads s) else none
  | .leave => if s.todo.isEmpty && resting s.phase then some { s with left := true } else none
  | .inner step => innerStep sha256 s step

def guiSystem (chunkDigest sha256 : Bytes → Digest) (known : List Digest) :
    System (GuiStream chunkDigest) (GuiAction chunkDigest) where
  start s := s = GuiStream.init chunkDigest known
  step before action after := guiStep sha256 before action = some after

def innerSystem (chunkDigest sha256 : Bytes → Digest) : System (GuiStream chunkDigest) Inner where
  start _ := True
  step before action after := innerStep sha256 before action = some after

/-- Everything the walk's side of a step can do, guards included. -/
inductive WalkStep (sha256 : Bytes → Digest) (s : GuiStream chunkDigest) :
    GuiStream chunkDigest → Prop where
  | refuse (op rest) (todo : s.todo = op :: rest) : WalkStep sha256 s (giveError s)
  | pass (op rest) (todo : s.todo = op :: rest) (check : op = .checkFatal ∨ op = .recorded) :
      WalkStep sha256 s { s with todo := rest }
  | append (b rest C) (todo : s.todo = .scan b :: rest) :
      WalkStep sha256 s { s with
        walk := { s.walk with C := C, currentChunk := s.walk.currentChunk ++ b }, todo := rest }
  | found (b rest C cutAt) (todo : s.todo = .scan b :: rest) (positive : 0 < cutAt)
      (inside : cutAt ≤ b.length) :
      WalkStep sha256 s { s with
        walk := { s.walk with C := C, currentChunk := s.walk.currentChunk ++ b.take cutAt }
        todo := .checkFatal :: .enqueue :: .scan (b.drop cutAt) :: rest }
  | enqueue (rest) (todo : s.todo = .enqueue :: rest) :
      WalkStep sha256 s { s with
        walk := s.walk.queue.1, data := s.data ++ [s.walk.currentChunk]
        todo := .send s.walk.queue.2 :: .recorded :: rest }
  | send (job rest) (todo : s.todo = .send job :: rest) :
      WalkStep sha256 s { s with uploadJobs := s.uploadJobs ++ [job], todo := rest }
  | reset (rest) (todo : s.todo = .resetChunker :: rest) :
      WalkStep sha256 s { s with walk := s.walk.resetChunker, todo := rest }
  | injected (chunk rest) (todo : s.todo = .inject chunk :: rest) :
      WalkStep sha256 s { s with
        reusechunk := s.reusechunk + 1
        walk := s.walk.appendKnown chunk.digest chunk.size
        data := s.data ++ [chunk.data], stream := s.stream ++ chunk.data, todo := .recorded :: rest }
  | closeJobs (idle : s.todo = []) (phase : s.phase = .emitting) :
      WalkStep sha256 s { s with phase := .draining, jobsClosed := true }
  | waited (idle : s.todo = []) (phase : s.phase = .draining) (gone : ∀ w, s.workers w = .exited) :
      WalkStep sha256 s { s with phase := .stopped }
  | eofFails (idle : s.todo = []) (phase : s.phase = .stopped) :
      WalkStep sha256 s { s with phase := .ended }
  | list (idle : s.todo = []) (phase : s.phase = .stopped) (clean : s.fatalErr = none) :
      WalkStep sha256 s { s with phase := .assigning (indexList s.walk.entries) }
  | close (idle : s.todo = []) (phase : s.phase = .assigning []) :
      WalkStep sha256 s { s with phase := .sealed (closedIndex sha256 s.walk) }
  | assign (first rest) (idle : s.todo = []) (phase : s.phase = .assigning (first :: rest)) :
      WalkStep sha256 s { s with
        assigned := s.assigned ++ (first :: rest).take 128
        phase := .assigning ((first :: rest).drop 128) }
  | requestFails (rest) (phase : s.phase = .assigning rest) :
      WalkStep sha256 s { s with phase := .ended }

/-- Everything one worker's step can do. -/
inductive WorkerTurn (s : GuiStream chunkDigest) (w : Fin chunkUploadWorkers) :
    GuiStream chunkDigest → Prop where
  | receive (job rest) (state : s.workers w = .idle) (queued : s.uploadJobs = job :: rest) :
      WorkerTurn s w (putWorker { s with uploadJobs := rest } w (.received job))
  | exit (state : s.workers w = .idle) (drained : s.uploadJobs = []) (closed : s.jobsClosed = true) :
      WorkerTurn s w (putWorker s w .exited)
  | noticed (job) (state : s.workers w = .received job) :
      WorkerTurn s w (putWorker s w (.latching (.received job) .stopped))
  | unstopped (job) (state : s.workers w = .received job) :
      WorkerTurn s w (putWorker s w (.unstopped job))
  | drop (job) (state : s.workers w = .unstopped job) : WorkerTurn s w (putWorker s w .idle)
  | hash (job) (state : s.workers w = .unstopped job) :
      WorkerTurn s w (putWorker { s with walk := setDigest s.walk job.entry (chunkDigest job.data) }
        w (.hashed job (chunkDigest job.data)))
  | reuse (job sha) (state : s.workers w = .hashed job sha) :
      WorkerTurn s w (putWorker { s with reusechunk := s.reusechunk + 1 } w .idle)
  | claim (job sha) (state : s.workers w = .hashed job sha) :
      WorkerTurn s w (putWorker { s with knownChunks := sha :: s.knownChunks } w
        (.uploading job sha))
  | sent (job sha) (state : s.workers w = .uploading job sha) :
      WorkerTurn s w (putWorker
        { s with uploaded := sha :: s.uploaded, newchunk := s.newchunk + 1 } w .idle)
  | unsent (job sha) (state : s.workers w = .uploading job sha) :
      WorkerTurn s w (putWorker s w (.failing job sha))
  | fails (job sha err) (state : s.workers w = .failing job sha) :
      WorkerTurn s w (putWorker s w (.latching (.uploading job sha) err))
  | latch (holding err first) (state : s.workers w = .latching holding err) :
      WorkerTurn s w (putWorker { s with fatalErr := some first } w .idle)

inductive Turn (sha256 : Bytes → Digest) (s : GuiStream chunkDigest) :
    GuiAction chunkDigest → GuiStream chunkDigest → Prop where
  | call (c) (phase : s.phase = .walking) (idle : s.todo = []) (here : s.left = false) :
      Turn sha256 s (.call c) (startCall s c)
  | stop : Turn sha256 s .stop { s with stopped := true }
  | closeUploads (idle : s.todo = []) (rest : resting s.phase = true) (here : s.left = false) :
      Turn sha256 s .closeUploads (closeUploads s)
  | leave (idle : s.todo = []) (rest : resting s.phase = true) :
      Turn sha256 s .leave { s with left := true }
  | walk (step after) (move : WalkStep sha256 s after) : Turn sha256 s (.inner step) after
  | worker (w uploads after) (move : WorkerTurn s w after) :
      Turn sha256 s (.inner (.worker w uploads)) after

theorem guiOp_step (s after : GuiStream chunkDigest) (op : GuiOp chunkDigest)
    (rest : List (GuiOp chunkDigest)) (todo : s.todo = op :: rest)
    (taken : guiOp s rest op = some after) : WalkStep sha256 s after := by
  cases op with
  | checkFatal =>
      simp only [guiOp, Option.some.injEq] at taken
      subst taken
      split
      · exact .refuse _ rest todo
      · exact .pass _ rest todo (Or.inl rfl)
  | recorded =>
      simp only [guiOp, Option.some.injEq] at taken
      subst taken
      split
      · exact .refuse _ rest todo
      · exact .pass _ rest todo (Or.inr rfl)
  | scan b =>
      simp only [guiOp] at taken
      rcases scanStep_cases s.walk b with ⟨C, same⟩ | ⟨C, cutAt, positive, inside, same⟩
      · rw [same] at taken
        cases taken
        exact .append b rest C todo
      · rw [same] at taken
        cases taken
        exact .found b rest C cutAt todo positive inside
  | enqueue =>
      simp only [guiOp, Option.some.injEq] at taken
      subst taken
      exact .enqueue rest todo
  | send job =>
      simp only [guiOp] at taken
      split at taken
      · cases taken
        exact .send job rest todo
      · cases taken
  | resetChunker =>
      simp only [guiOp, Option.some.injEq] at taken
      subst taken
      exact .reset rest todo
  | inject chunk =>
      simp only [guiOp] at taken
      split at taken
      · cases taken
        exact .refuse _ rest todo
      · cases taken
        exact .injected chunk rest todo

theorem guiWalk_step (s after : GuiStream chunkDigest) (taken : guiWalk sha256 s = some after) :
    WalkStep sha256 s after := by
  unfold guiWalk at taken
  split at taken
  · next op rest todo => exact guiOp_step s after op rest todo taken
  · next idle =>
      split at taken
      · next phase =>
          cases taken
          exact .closeJobs idle phase
      · next phase =>
          split at taken
          · next gone =>
              cases taken
              refine .waited idle phase fun w => ?_
              have exited := List.all_eq_true.mp gone w (List.mem_finRange w)
              revert exited
              cases s.workers w <;> simp [GuiWorker.isExited]
          · cases taken
      · next phase =>
          split at taken
          · cases taken
            exact .eofFails idle phase
          · next clean =>
              cases taken
              exact .list idle phase (by simpa using clean)
      · next phase =>
          cases taken
          exact .close idle phase
      · next first rest phase =>
          cases taken
          exact .assign first rest idle phase
      · cases taken

theorem guiWorker_turn (s after : GuiStream chunkDigest) (w : Fin chunkUploadWorkers)
    (uploads : Bool) (taken : guiWorker s w uploads = some after) : WorkerTurn s w after := by
  unfold guiWorker at taken
  split at taken
  · next state =>
      split at taken
      · next job rest queued =>
          cases taken
          exact .receive job rest state queued
      · next drained =>
          split at taken
          · next closed =>
              cases taken
              exact .exit state drained closed
          · cases taken
  · next job state =>
      cases taken
      split
      · exact .noticed job state
      · exact .unstopped job state
  · next job state =>
      split at taken
      · cases taken
        exact .drop job state
      · cases taken
        exact .hash job state
  · next job sha state =>
      split at taken
      · cases taken
        exact .reuse job sha state
      · cases taken
        exact .claim job sha state
  · next job sha state =>
      split at taken
      · cases taken
        exact .sent job sha state
      · cases taken
        exact .unsent job sha state
  · next job sha state =>
      cases taken
      exact .fails job sha _ state
  · next holding err state =>
      cases taken
      split
      · exact .latch holding err _ state
      · exact .latch holding err _ state
  · cases taken

theorem guiStep_turn (s after : GuiStream chunkDigest) (action : GuiAction chunkDigest)
    (taken : guiStep sha256 s action = some after) : Turn sha256 s action after := by
  cases action with
  | call c =>
      simp only [guiStep] at taken
      split at taken
      · next phase idle here =>
          cases taken
          exact .call c phase idle here
      · cases taken
  | stop =>
      cases taken
      exact .stop
  | closeUploads =>
      simp only [guiStep] at taken
      split at taken
      · next ready =>
          cases taken
          simp only [Bool.and_eq_true, List.isEmpty_iff, Bool.not_eq_true'] at ready
          exact .closeUploads ready.1.1 ready.1.2 ready.2
      · cases taken
  | leave =>
      simp only [guiStep] at taken
      split at taken
      · next ready =>
          cases taken
          simp only [Bool.and_eq_true, List.isEmpty_iff] at ready
          exact .leave ready.1 ready.2
      · cases taken
  | inner step =>
      cases step with
      | walk => exact .walk _ _ (guiWalk_step s after taken)
      | requestFails =>
          have taken : guiRequestFails s = some after := taken
          unfold guiRequestFails at taken
          split at taken
          · next rest phase =>
              cases taken
              exact .walk _ _ (.requestFails rest phase)
          · cases taken
      | worker w uploads => exact .worker w uploads after (guiWorker_turn s after w uploads taken)

/-! Without an error it is the pool of directorybackup. -/

def GuiOp.asWalk : GuiOp chunkDigest → Option (WalkOp chunkDigest)
  | .checkFatal => some .checkErr
  | .scan b => some (.scan b)
  | .enqueue => some .enqueue
  | .send job => some (.send job)
  | .recorded => none
  | .resetChunker => some .resetChunker
  | .inject chunk => some (.inject chunk)

/-- The pool's worker stays one step behind where this one asks for Stop. -/
def GuiWorker.asWorker : GuiWorker → Worker
  | .idle => .idle
  | .received job | .unstopped job => .received job
  | .hashed job sha => .hashed job sha
  | .uploading job sha | .failing job sha => .uploading job sha
  | .latching holding _ => holding
  | .exited => .exited

def waitedFor : Phase → Bool
  | .stopped | .assigning _ | .sealed _ => true
  | _ => false

def asPool (s : GuiStream chunkDigest) : Pool chunkDigest where
  walk := s.walk
  phase := s.phase
  todo := s.todo.filterMap GuiOp.asWalk
  uploadJobs := s.uploadJobs
  jobsClosed := s.jobsClosed
  workers := fun w => (s.workers w).asWorker
  cancelled := waitedFor s.phase
  fatalErr := none
  knownChunks := s.knownChunks
  newchunk := s.newchunk
  reusechunk := s.reusechunk
  assigned := s.assigned
  data := s.data
  stream := s.stream
  uploaded := s.uploaded
  refused := false

def GuiCall.asCall : GuiCall chunkDigest → Call chunkDigest
  | .handleData b => .handleData b
  | .suggestBoundary => .suggestBoundary
  | .forceBoundary => .forceBoundary
  | .injectKnownChunk chunk => .injectKnownChunk chunk
  | .eof => .eof

/-- On the way to an index that is closed. -/
def Going (s : GuiStream chunkDigest) : Prop :=
  s.fatalErr = none ∧ s.phase ≠ .ended ∧ s.phase ≠ .abandoned

theorem processOps_asWalk (walk : ChunkState) :
    (processOps walk : List (GuiOp chunkDigest)).filterMap GuiOp.asWalk = emitOps walk := by
  unfold processOps emitOps
  split
  · rfl
  · rfl

theorem startCall_asPool (s : GuiStream chunkDigest) (c : GuiCall chunkDigest)
    (walking : s.phase = .walking) :
    asPool (startCall s c) = beginCall (asPool s) c.asCall := by
  cases c with
  | handleData b => simp [startCall, asPool, beginCall, GuiCall.asCall, GuiOp.asWalk]
  | suggestBoundary =>
      simp only [startCall, GuiCall.asCall, beginCall]
      split
      · next small => rw [if_pos (by exact small)]
      · next large =>
          rw [if_neg (by exact large)]
          simp [asPool, processOps_asWalk, GuiOp.asWalk]
  | forceBoundary =>
      simp [startCall, asPool, beginCall, GuiCall.asCall, processOps_asWalk, GuiOp.asWalk]
  | injectKnownChunk chunk => simp [startCall, asPool, beginCall, GuiCall.asCall, GuiOp.asWalk]
  | eof =>
      simp [startCall, asPool, beginCall, GuiCall.asCall, processOps_asWalk, walking, waitedFor]

theorem putWorker_asPool (s : GuiStream chunkDigest) (w : Fin chunkUploadWorkers) (next : GuiWorker) :
    asPool (putWorker s w next) = setWorker (asPool s) w next.asWorker := by
  simp only [asPool, putWorker, setWorker, Pool.mk.injEq, true_and, and_true]
  funext other
  by_cases same : other = w
  · subst same
    simp
  · simp [same]

/-- A worker that the pool does not see move. -/
theorem putWorker_aside (s : GuiStream chunkDigest) (w : Fin chunkUploadWorkers) (next : GuiWorker)
    (same : next.asWorker = (s.workers w).asWorker) : asPool (putWorker s w next) = asPool s := by
  rw [putWorker_asPool, same]
  show { asPool s with workers := Function.update (asPool s).workers w ((asPool s).workers w) } = asPool s
  rw [Function.update_eq_self]

/-! The pool's worker steps that these are. -/

section pool

variable (p : Pool chunkDigest) (w : Fin chunkUploadWorkers) {job : UploadJob} {sha : Digest}

theorem pool_receive {rest : List UploadJob} (state : p.workers w = .idle)
    (queued : p.uploadJobs = job :: rest) : poolStep sha256 p (.worker w false) =
      some (setWorker { p with uploadJobs := rest } w (.received job)) := by
  simp [poolStep, workerStep, state, queued]

theorem pool_exit (state : p.workers w = .idle) (drained : p.uploadJobs = [])
    (closed : p.jobsClosed = true) :
    poolStep sha256 p (.worker w false) = some (setWorker p w .exited) := by
  simp [poolStep, workerStep, state, drained, closed]

theorem pool_hash (state : p.workers w = .received job) (running : p.cancelled = false) :
    poolStep sha256 p (.worker w false) =
      some (setWorker { p with walk := setDigest p.walk job.entry (chunkDigest job.data) } w
        (.hashed job (chunkDigest job.data))) := by
  simp [poolStep, workerStep, state, running]

theorem pool_reuse (state : p.workers w = .hashed job sha) (member : sha ∈ p.knownChunks) :
    poolStep sha256 p (.worker w false) =
      some (setWorker { p with reusechunk := p.reusechunk + 1 } w .idle) := by
  simp [poolStep, workerStep, state, member]

theorem pool_claim (state : p.workers w = .hashed job sha) (fresh : sha ∉ p.knownChunks) :
    poolStep sha256 p (.worker w false) =
      some (setWorker { p with knownChunks := sha :: p.knownChunks } w (.uploading job sha)) := by
  simp [poolStep, workerStep, state, fresh]

theorem pool_sent (state : p.workers w = .uploading job sha) :
    poolStep sha256 p (.worker w true) =
      some (setWorker { p with uploaded := sha :: p.uploaded, newchunk := p.newchunk + 1 } w .idle) := by
  simp [poolStep, workerStep, state]

end pool

section steps

variable {s after : GuiStream chunkDigest}
  (reached : Reachable (poolSystem chunkDigest sha256 known) (asPool s))

include reached

theorem step_pool {p : Pool chunkDigest} (action : PoolAction chunkDigest)
    (taken : poolStep sha256 (asPool s) action = some p) :
    Reachable (poolSystem chunkDigest sha256 known) p :=
  reachable_step reached (show (poolSystem chunkDigest sha256 known).step (asPool s) action p from taken)

theorem going_op (clean : s.fatalErr = none) (op : GuiOp chunkDigest) (rest : List (GuiOp chunkDigest))
    (todo : s.todo = op :: rest) (going : Going after) (taken : guiOp s rest op = some after) :
    Reachable (poolSystem chunkDigest sha256 known) (asPool after) := by
  have next : ∀ poolOp, op.asWalk = some poolOp → poolStep sha256 (asPool s) .walk =
      walkOp (asPool s) (rest.filterMap GuiOp.asWalk) poolOp := by
    intro poolOp same
    have shape : (asPool s).todo = poolOp :: rest.filterMap GuiOp.asWalk := by
      simp [asPool, todo, same]
    simp [poolStep, walkStep, shape]
  cases op with
  | checkFatal =>
      simp only [guiOp, clean, Option.isSome_none, Bool.false_eq_true, if_false] at taken
      cases taken
      exact step_pool reached .walk (next _ rfl)
  | recorded =>
      simp only [guiOp] at taken
      rw [if_neg (by simp [clean])] at taken
      cases taken
      have fewer : s.todo.filterMap GuiOp.asWalk = rest.filterMap GuiOp.asWalk := by
        rw [todo]
        rfl
      have same : asPool { s with todo := rest } = asPool s := by
        simp only [asPool, fewer]
      rw [same]
      exact reached
  | scan b =>
      have move := next _ rfl
      simp only [guiOp] at taken
      simp only [walkOp] at move
      rcases scanStep_cases s.walk b with ⟨C, same⟩ | ⟨C, cutAt, _, _, same⟩
      · rw [same] at taken
        have pool : (asPool s).walk.scanStep b = _ := same
        rw [pool] at move
        cases taken
        exact step_pool reached .walk move
      · rw [same] at taken
        have pool : (asPool s).walk.scanStep b = _ := same
        rw [pool] at move
        cases taken
        exact step_pool reached .walk move
  | enqueue =>
      simp only [guiOp, Option.some.injEq] at taken
      subst taken
      exact step_pool reached .walk (next _ rfl)
  | send job =>
      have move := next _ rfl
      simp only [guiOp] at taken
      simp only [walkOp] at move
      split at taken
      · next room =>
          rw [if_pos (by exact room)] at move
          cases taken
          exact step_pool reached .walk move
      · cases taken
  | resetChunker =>
      simp only [guiOp, Option.some.injEq] at taken
      subst taken
      exact step_pool reached .walk (next _ rfl)
  | inject chunk =>
      have move := next _ rfl
      simp only [guiOp] at taken
      simp only [walkOp] at move
      split at taken
      · next refused =>
          rw [if_pos (by exact refused)] at move
          cases taken
          have same : asPool (giveError s) = returnError (asPool s) := by
            have walking : s.phase = .walking := by
              by_contra other
              apply going.2.1
              cases phase : s.phase with
              | walking => exact absurd phase other
              | _ => simp [giveError, phase]
            simp [asPool, giveError, returnError, walking, waitedFor]
          rw [same]
          exact step_pool reached .walk move
      · next accepted =>
          rw [if_neg (by exact accepted)] at move
          cases taken
          exact step_pool reached .walk move

theorem going_walk (going : Going after) (taken : guiWalk sha256 s = some after)
    (clean : s.fatalErr = none) :
    Reachable (poolSystem chunkDigest sha256 known) (asPool after) := by
  unfold guiWalk at taken
  split at taken
  · next op rest todo => exact going_op reached clean op rest todo going taken
  · next todo =>
      have idle : (asPool s).todo = [] := by simp [asPool, todo]
      split at taken
      · next phase =>
          cases taken
          refine step_pool reached .walk ?_
          have there : (asPool s).phase = .emitting := phase
          simp [poolStep, walkStep, idle, there]
          simp [asPool, todo, phase, waitedFor]
      · next phase =>
          split at taken
          · next gone =>
              cases taken
              refine step_pool reached .walk ?_
              have there : (asPool s).phase = .draining := phase
              have exited : ∀ w, ((asPool s).workers w).isExited = true := by
                intro w
                have out := List.all_eq_true.mp gone w (List.mem_finRange w)
                revert out
                show (s.workers w).isExited = true → ((s.workers w).asWorker).isExited = true
                cases s.workers w <;> simp [GuiWorker.isExited, GuiWorker.asWorker, Worker.isExited]
              simp [poolStep, walkStep, idle, there, exited]
              simp [asPool, todo, waitedFor]
          · cases taken
      · next phase =>
          rw [if_neg (by simp [clean])] at taken
          cases taken
          refine step_pool reached .walk ?_
          have there : (asPool s).phase = .stopped := phase
          have none_ : (asPool s).fatalErr = none := rfl
          simp [poolStep, walkStep, idle, there, none_]
          simp [asPool, todo, phase, waitedFor]
      · next phase =>
          cases taken
          refine step_pool reached .walk ?_
          have there : (asPool s).phase = .assigning [] := phase
          simp [poolStep, walkStep, idle, there]
          simp [asPool, todo, phase, waitedFor]
      · next first rest phase =>
          cases taken
          refine step_pool reached .walk ?_
          have there : (asPool s).phase = .assigning (first :: rest) := phase
          simp [poolStep, walkStep, idle, there]
          simp [asPool, todo, phase, waitedFor]
      · cases taken

/-- Once EOF has waited, the workers are gone; so one that moves is not waited for. -/
theorem moving_not_waited (w : Fin chunkUploadWorkers)
    (alive : (s.workers w).asWorker ≠ .exited) : waitedFor s.phase = false := by
  have stop : Shutdown sha256 (asPool s) := (pool_sound _ reached).2.1
  by_contra waited
  apply alive
  refine stop.waited ?_ w
  show AllGone s.phase
  cases phase : s.phase with
  | stopped => trivial
  | assigning rest => trivial
  | sealed index => trivial
  | _ => simp [phase, waitedFor] at waited

theorem going_worker (going : Going after) (clean : s.fatalErr = none)
    (w : Fin chunkUploadWorkers) (uploads : Bool) (taken : guiWorker s w uploads = some after) :
    Reachable (poolSystem chunkDigest sha256 known) (asPool after) := by
  have seen : ∀ worker, s.workers w = worker → (asPool s).workers w = worker.asWorker := by
    rintro worker rfl
    rfl
  unfold guiWorker at taken
  split at taken
  · next state =>
      split at taken
      · next job rest queued =>
          cases taken
          rw [putWorker_asPool]
          exact step_pool reached (.worker w false) (pool_receive (asPool s) w (seen _ state) queued)
      · next drained =>
          split at taken
          · next closed =>
              cases taken
              rw [putWorker_asPool]
              exact step_pool reached (.worker w false)
                (pool_exit (asPool s) w (seen _ state) drained closed)
          · cases taken
  · next job state =>
      cases taken
      rw [putWorker_aside s w _ (by
        rw [state]
        split
        · rfl
        · rfl)]
      exact reached
  · next job state =>
      rw [if_neg (by simp [clean])] at taken
      cases taken
      rw [putWorker_asPool]
      have running : (asPool s).cancelled = false :=
        moving_not_waited reached w (by rw [state]; nofun)
      exact step_pool reached (.worker w false) (pool_hash (asPool s) w (seen _ state) running)
  · next job sha state =>
      split at taken
      · next member =>
          cases taken
          rw [putWorker_asPool]
          exact step_pool reached (.worker w false) (pool_reuse (asPool s) w (seen _ state) member)
      · next fresh =>
          cases taken
          rw [putWorker_asPool]
          exact step_pool reached (.worker w false) (pool_claim (asPool s) w (seen _ state) fresh)
  · next job sha state =>
      split at taken
      · cases taken
        rw [putWorker_asPool]
        exact step_pool reached (.worker w true) (pool_sent (asPool s) w (seen _ state))
      · cases taken
        rw [putWorker_aside s w _ (by rw [state]; rfl)]
        exact reached
  · next job sha state =>
      cases taken
      rw [putWorker_aside s w _ (by rw [state]; rfl)]
      exact reached
  · next holding err state =>
      cases taken
      have dead := going.1
      simp [putWorker, clean] at dead
  · cases taken

end steps

/-- The first error is never forgotten. -/
theorem error_latched (s after : GuiStream chunkDigest) (action : GuiAction chunkDigest)
    (turn : Turn sha256 s action after) (clean : after.fatalErr = none) : s.fatalErr = none := by
  cases turn with
  | call c =>
      cases c with
      | suggestBoundary =>
          simp only [startCall] at clean
          split at clean
          · exact clean
          · exact clean
      | _ => exact clean
  | stop => exact clean
  | closeUploads =>
      unfold closeUploads at clean
      split at clean
      · exact clean
      · exact clean
  | leave => exact clean
  | walk step _ move =>
      cases move with
      | _ => exact clean
  | worker w uploads _ move =>
      cases move with
      | latch holding err first state => cases clean
      | _ => exact clean

/-! When a stream rests, and what its end leaves behind. -/

structure Settled (s : GuiStream chunkDigest) : Prop where
  busy : s.todo ≠ [] → s.phase = .walking ∨ s.phase = .emitting
  closed : s.jobsClosed = true → s.todo = [] ∧ s.phase ≠ .walking ∧ s.phase ≠ .emitting
  draining : s.phase = .draining → s.jobsClosed = true
  gone : ∀ w, s.workers w = .exited → s.jobsClosed = true ∧ s.uploadJobs = []
  waited : waitedFor s.phase = true → ∀ w, s.workers w = .exited
  clean : ∀ index, s.phase = .sealed index → s.fatalErr = none
  listed : ∀ rest, s.phase = .assigning rest → s.fatalErr = none

theorem settled_start : Settled (GuiStream.init chunkDigest known) :=
  ⟨fun busy => absurd rfl busy, nofun, nofun, fun _ out => (by cases out), nofun, nofun, nofun⟩

theorem settled_call (s : GuiStream chunkDigest) (c : GuiCall chunkDigest) (held : Settled s)
    (phase : s.phase = .walking) : Settled (startCall s c) := by
  have running : s.jobsClosed = false := by
    by_contra closed
    exact (held.closed (by simpa using closed)).2.1 phase
  have alive : ∀ w, s.workers w ≠ .exited := by
    intro w out
    rw [(held.gone w out).1] at running
    cases running
  cases c with
  | handleData b =>
      exact ⟨fun _ => Or.inl phase, fun closed => (by simp [startCall, running] at closed),
        fun draining => (by simp [startCall, phase] at draining),
        fun w out => absurd out (alive w), fun waited => (by simp [startCall, phase, waitedFor] at waited),
        fun index closed => (by simp [startCall, phase] at closed),
        fun rest listed => (by simp [startCall, phase] at listed)⟩
  | suggestBoundary =>
      simp only [startCall]
      split
      · exact held
      · exact ⟨fun _ => Or.inl phase, fun closed => (by simp [running] at closed),
          fun draining => (by simp [phase] at draining),
          fun w out => absurd out (alive w), fun waited => (by simp [phase, waitedFor] at waited),
          fun index closed => (by simp [phase] at closed),
          fun rest listed => (by simp [phase] at listed)⟩
  | forceBoundary =>
      exact ⟨fun _ => Or.inl phase, fun closed => (by simp [startCall, running] at closed),
        fun draining => (by simp [startCall, phase] at draining),
        fun w out => absurd out (alive w), fun waited => (by simp [startCall, phase, waitedFor] at waited),
        fun index closed => (by simp [startCall, phase] at closed),
        fun rest listed => (by simp [startCall, phase] at listed)⟩
  | injectKnownChunk chunk =>
      exact ⟨fun _ => Or.inl phase, fun closed => (by simp [startCall, running] at closed),
        fun draining => (by simp [startCall, phase] at draining),
        fun w out => absurd out (alive w), fun waited => (by simp [startCall, phase, waitedFor] at waited),
        fun index closed => (by simp [startCall, phase] at closed),
        fun rest listed => (by simp [startCall, phase] at listed)⟩
  | eof =>
      exact ⟨fun _ => Or.inr rfl, fun closed => (by simp [startCall, running] at closed),
        nofun, fun w out => absurd out (alive w), nofun, nofun, nofun⟩

/-- A step in the middle of a call. -/
theorem settled_busy (s after : GuiStream chunkDigest) (held : Settled s) (busy : s.todo ≠ [])
    (phase : after.phase = s.phase) (jobsClosed : after.jobsClosed = s.jobsClosed)
    (workers : after.workers = s.workers) : Settled after := by
  have cutting := held.busy busy
  have running : s.jobsClosed = false := by
    by_contra closed
    exact busy (held.closed (by simpa using closed)).1
  refine ⟨fun _ => by rw [phase]; exact cutting, ?_, ?_, ?_, ?_, ?_, ?_⟩
  · intro closed
    rw [jobsClosed, running] at closed
    cases closed
  · intro draining
    rw [phase] at draining
    rcases cutting with cutting | cutting
    · simp [cutting] at draining
    · simp [cutting] at draining
  · intro w out
    rw [workers] at out
    rw [(held.gone w out).1] at running
    cases running
  · intro waited
    rw [phase] at waited
    rcases cutting with cutting | cutting
    · simp [cutting, waitedFor] at waited
    · simp [cutting, waitedFor] at waited
  · intro index closed
    rw [phase] at closed
    rcases cutting with cutting | cutting
    · simp [cutting] at closed
    · simp [cutting] at closed
  · intro rest listed
    rw [phase] at listed
    rcases cutting with cutting | cutting
    · simp [cutting] at listed
    · simp [cutting] at listed

theorem settled_error (s : GuiStream chunkDigest) (held : Settled s) (busy : s.todo ≠ []) :
    Settled (giveError s) := by
  have running : s.jobsClosed = false := by
    by_contra closed
    exact busy (held.closed (by simpa using closed)).1
  have alive : ∀ w, s.workers w ≠ .exited := by
    intro w out
    rw [(held.gone w out).1] at running
    cases running
  have shut : (giveError s).jobsClosed ≠ true := by simp [giveError, running]
  rcases held.busy busy with phase | phase
  · have same : (giveError s).phase = .walking := by simp [giveError, phase]
    exact ⟨fun more => absurd rfl more, fun closed => absurd closed shut,
      fun draining => (by simp [same] at draining), fun w out => absurd out (alive w),
      fun waited => (by simp [same, waitedFor] at waited),
      fun index closed => (by simp [same] at closed), fun rest listed => (by simp [same] at listed)⟩
  · have same : (giveError s).phase = .ended := by simp [giveError, phase]
    exact ⟨fun more => absurd rfl more, fun closed => absurd closed shut,
      fun draining => (by simp [same] at draining), fun w out => absurd out (alive w),
      fun waited => (by simp [same, waitedFor] at waited),
      fun index closed => (by simp [same] at closed), fun rest listed => (by simp [same] at listed)⟩

theorem settled_walk (s after : GuiStream chunkDigest) (held : Settled s)
    (move : WalkStep sha256 s after) : Settled after := by
  cases move with
  | refuse op rest todo => exact settled_error s held (by simp [todo])
  | pass op rest todo check => exact settled_busy s _ held (by simp [todo]) rfl rfl rfl
  | append b rest C todo => exact settled_busy s _ held (by simp [todo]) rfl rfl rfl
  | found b rest C cutAt todo positive inside =>
      exact settled_busy s _ held (by simp [todo]) rfl rfl rfl
  | enqueue rest todo => exact settled_busy s _ held (by simp [todo]) rfl rfl rfl
  | send job rest todo => exact settled_busy s _ held (by simp [todo]) rfl rfl rfl
  | reset rest todo => exact settled_busy s _ held (by simp [todo]) rfl rfl rfl
  | injected chunk rest todo => exact settled_busy s _ held (by simp [todo]) rfl rfl rfl
  | closeJobs idle phase =>
      refine ⟨fun more => absurd idle more, fun _ => ⟨idle, nofun, nofun⟩, fun _ => rfl, ?_, nofun,
        nofun, nofun⟩
      intro w out
      exact ⟨rfl, (held.gone w out).2⟩
  | waited idle phase gone =>
      exact ⟨fun more => absurd idle more, fun _ => ⟨idle, nofun, nofun⟩, nofun, held.gone,
        fun _ => gone, nofun, nofun⟩
  | eofFails idle phase =>
      exact ⟨fun more => absurd idle more, fun _ => ⟨idle, nofun, nofun⟩, nofun, held.gone, nofun,
        nofun, nofun⟩
  | list idle phase clean =>
      exact ⟨fun more => absurd idle more, fun _ => ⟨idle, nofun, nofun⟩, nofun, held.gone,
        fun _ => held.waited (by simp [phase, waitedFor]), nofun, fun _ _ => clean⟩
  | close idle phase =>
      exact ⟨fun more => absurd idle more, fun _ => ⟨idle, nofun, nofun⟩, nofun, held.gone,
        fun _ => held.waited (by simp [phase, waitedFor]), fun _ _ => held.listed _ phase, nofun⟩
  | assign first rest idle phase =>
      exact ⟨fun more => absurd idle more, fun _ => ⟨idle, nofun, nofun⟩, nofun, held.gone,
        fun _ => held.waited (by simp [phase, waitedFor]), nofun, fun _ _ => held.listed _ phase⟩
  | requestFails rest phase =>
      have idle : s.todo = [] := by
        by_contra busy
        rcases held.busy busy with other | other
        · rw [phase] at other
          cases other
        · rw [phase] at other
          cases other
      exact ⟨fun more => absurd idle more, fun _ => ⟨idle, nofun, nofun⟩, nofun, held.gone, nofun,
        nofun, nofun⟩

/-- What a worker's step leaves as it is. -/
theorem turn_frame (s after : GuiStream chunkDigest) (w : Fin chunkUploadWorkers)
    (move : WorkerTurn s w after) :
    after.todo = s.todo ∧ after.phase = s.phase ∧ after.jobsClosed = s.jobsClosed ∧
      after.left = s.left ∧ s.workers w ≠ .exited ∧
      (∀ other, other ≠ w → after.workers other = s.workers other) ∧
      (after.workers w = .exited → s.jobsClosed = true ∧ s.uploadJobs = []) ∧
      (s.uploadJobs = [] → after.uploadJobs = []) := by
  have others : ∀ (base : GuiStream chunkDigest) next, base.workers = s.workers →
      ∀ other, other ≠ w → (putWorker base w next).workers other = s.workers other := by
    intro base next same other apart
    rw [← same]
    exact Function.update_of_ne apart _ _
  have own : ∀ (base : GuiStream chunkDigest) next, (putWorker base w next).workers w = next :=
    fun base next => Function.update_self _ _ _
  cases move with
  | receive job rest state queued =>
      exact ⟨rfl, rfl, rfl, rfl, by simp [state], others _ _ rfl,
        fun out => (by rw [own] at out; cases out), fun none_ => (by rw [queued] at none_; cases none_)⟩
  | exit state drained closed =>
      exact ⟨rfl, rfl, rfl, rfl, by simp [state], others _ _ rfl, fun _ => ⟨closed, drained⟩, id⟩
  | noticed job state =>
      exact ⟨rfl, rfl, rfl, rfl, by simp [state], others _ _ rfl,
        fun out => (by rw [own] at out; cases out), id⟩
  | unstopped job state =>
      exact ⟨rfl, rfl, rfl, rfl, by simp [state], others _ _ rfl,
        fun out => (by rw [own] at out; cases out), id⟩
  | drop job state =>
      exact ⟨rfl, rfl, rfl, rfl, by simp [state], others _ _ rfl,
        fun out => (by rw [own] at out; cases out), id⟩
  | hash job state =>
      exact ⟨rfl, rfl, rfl, rfl, by simp [state], others _ _ rfl,
        fun out => (by rw [own] at out; cases out), id⟩
  | reuse job sha state =>
      exact ⟨rfl, rfl, rfl, rfl, by simp [state], others _ _ rfl,
        fun out => (by rw [own] at out; cases out), id⟩
  | claim job sha state =>
      exact ⟨rfl, rfl, rfl, rfl, by simp [state], others _ _ rfl,
        fun out => (by rw [own] at out; cases out), id⟩
  | sent job sha state =>
      exact ⟨rfl, rfl, rfl, rfl, by simp [state], others _ _ rfl,
        fun out => (by rw [own] at out; cases out), id⟩
  | unsent job sha state =>
      exact ⟨rfl, rfl, rfl, rfl, by simp [state], others _ _ rfl,
        fun out => (by rw [own] at out; cases out), id⟩
  | fails job sha err state =>
      exact ⟨rfl, rfl, rfl, rfl, by simp [state], others _ _ rfl,
        fun out => (by rw [own] at out; cases out), id⟩
  | latch holding err first state =>
      exact ⟨rfl, rfl, rfl, rfl, by simp [state], others _ _ rfl,
        fun out => (by rw [own] at out; cases out), id⟩

theorem settled_worker (s after : GuiStream chunkDigest) (w : Fin chunkUploadWorkers)
    (held : Settled s) (move : WorkerTurn s w after) : Settled after := by
  obtain ⟨todo, phase, jobsClosed, _, alive, others, exits, drained⟩ := turn_frame s after w move
  have notWaited : waitedFor s.phase = false := by
    by_contra waited
    exact alive (held.waited (by simpa using waited) w)
  refine ⟨?_, ?_, ?_, ?_, ?_, ?_, ?_⟩
  · rw [todo, phase]
    exact held.busy
  · rw [todo, phase, jobsClosed]
    exact held.closed
  · rw [phase, jobsClosed]
    exact held.draining
  · intro other out
    rw [jobsClosed]
    by_cases same : other = w
    · subst same
      obtain ⟨closed, none_⟩ := exits out
      exact ⟨closed, drained none_⟩
    · rw [others other same] at out
      obtain ⟨closed, none_⟩ := held.gone other out
      exact ⟨closed, drained none_⟩
  · intro waited
    rw [phase, notWaited] at waited
    cases waited
  · intro index closed
    rw [phase] at closed
    rw [closed] at notWaited
    cases notWaited
  · intro rest listed
    rw [phase] at listed
    rw [listed] at notWaited
    cases notWaited

theorem settled_turn (s after : GuiStream chunkDigest) (action : GuiAction chunkDigest)
    (held : Settled s) (turn : Turn sha256 s action after) : Settled after := by
  cases turn with
  | call c phase idle here => exact settled_call s c held phase
  | stop => exact ⟨held.busy, held.closed, held.draining, held.gone, held.waited, held.clean, held.listed⟩
  | leave => exact ⟨held.busy, held.closed, held.draining, held.gone, held.waited, held.clean, held.listed⟩
  | closeUploads idle rest here =>
      unfold closeUploads
      split
      · exact held
      · next open_ =>
          have alive : ∀ w, s.workers w ≠ .exited := fun w out => open_ (held.gone w out).1
          have early : waitedFor s.phase = false := by
            by_contra waited
            exact alive ⟨0, by decide⟩ (held.waited (by simpa using waited) _)
          cases phase : s.phase with
          | walking =>
              exact ⟨fun more => absurd idle more, fun _ => ⟨idle, nofun, nofun⟩, nofun,
                fun w out => absurd out (alive w), nofun, nofun, nofun⟩
          | ended =>
              exact ⟨fun more => absurd idle more, fun _ => ⟨idle, nofun, nofun⟩, nofun,
                fun w out => absurd out (alive w), nofun, nofun, nofun⟩
          | abandoned =>
              exact ⟨fun more => absurd idle more, fun _ => ⟨idle, nofun, nofun⟩, nofun,
                fun w out => absurd out (alive w), nofun, nofun, nofun⟩
          | sealed index =>
              rw [phase] at early
              cases early
          | emitting =>
              rw [phase] at rest
              cases rest
          | draining =>
              rw [phase] at rest
              cases rest
          | stopped =>
              rw [phase] at rest
              cases rest
          | assigning more =>
              rw [phase] at rest
              cases rest
  | walk step _ move => exact settled_walk s after held move
  | worker w uploads _ move => exact settled_worker s after w held move

theorem settled_invariant : Invariant (guiSystem chunkDigest sha256 known) Settled where
  start := by
    rintro s rfl
    exact settled_start
  step := fun s action after held taken =>
    settled_turn s after action held (guiStep_turn s after action taken)

end ProxmoxBackup.GuiUploads
