import ProxmoxBackup.UploadPool

/-! The walk's side of the upload pool and its shutdown: where the chunks are
cut, what of a call is still to be scanned, when the workers may be gone and
what closeIndex has sent. Each group is an invariant proved relative to the one
before it; the cases are those of `WalkMove` and `WorkerMove`. -/

namespace ProxmoxBackup.UploadPoolWalk

open TransitionSystem DynamicChunks UploadPool

variable {chunkDigest sha256 : Bytes → Digest} {known : List Digest}

/-- The bytes a call was given and its loop has not scanned yet. -/
def unscanned : List (WalkOp chunkDigest) → Bytes
  | [] => []
  | .scan b :: rest => b ++ unscanned rest
  | _ :: rest => unscanned rest

/-- An injected chunk ends its call, so nothing is scanned after it. -/
def InjectLast : List (WalkOp chunkDigest) → Prop
  | [] => True
  | .inject _ :: rest => rest = []
  | _ :: rest => InjectLast rest

/-- The walk may still queue chunks. -/
def Cutting : Phase → Prop
  | .walking => True
  | .emitting => True
  | _ => False

structure WalkSide (s : Pool chunkDigest) : Prop where
  cut : Cut s.walk s.data
  injectLast : InjectLast s.todo
  whole : s.fatalErr = none →
    s.data.flatten ++ s.walk.currentChunk ++ unscanned s.todo = s.stream
  busy : s.todo ≠ [] → Cutting s.phase
  shut : s.jobsClosed = true → ¬ Cutting s.phase

/-- Eof has seen every worker finish. -/
def AllGone : Phase → Prop
  | .stopped => True
  | .assigning _ => True
  | .sealed _ => True
  | _ => False

theorem WalkSide.idle {s : Pool chunkDigest} (side : WalkSide s) (gone : AllGone s.phase) :
    s.todo = [] := by
  by_contra busy
  have cutting := side.busy busy
  revert gone cutting
  cases s.phase <;> simp [AllGone, Cutting]

theorem emitOps_unscanned (walk : ChunkState) (rest : List (WalkOp chunkDigest)) :
    unscanned (emitOps walk ++ rest) = unscanned rest := by
  unfold emitOps
  split <;> rfl

theorem emitOps_injectLast (walk : ChunkState) (rest : List (WalkOp chunkDigest))
    (last : InjectLast rest) : InjectLast (emitOps walk ++ rest) := by
  unfold emitOps
  split
  · exact last
  · exact last

theorem setDigest_places (walk : ChunkState) (entry : Nat) (digest : Digest) :
    (setDigest walk entry digest).entries.map ChunkEntry.place =
      walk.entries.map ChunkEntry.place := by
  apply List.ext_getElem?
  intro i
  simp only [setDigest, List.getElem?_map, List.getElem?_modify]
  cases walk.entries[i]? with
  | none => rfl
  | some e =>
      by_cases same : entry = i
      · simp [same, ChunkEntry.place]
      · simp [same]

/-- What no worker touches. -/
structure WorkerFrame (before after : Pool chunkDigest) : Prop where
  todo : after.todo = before.todo
  phase : after.phase = before.phase
  jobsClosed : after.jobsClosed = before.jobsClosed
  assigned : after.assigned = before.assigned
  data : after.data = before.data
  stream : after.stream = before.stream
  currentChunk : after.walk.currentChunk = before.walk.currentChunk
  pos : after.walk.pos = before.walk.pos
  chunkcount : after.walk.chunkcount = before.walk.chunkcount
  places : after.walk.entries.map ChunkEntry.place = before.walk.entries.map ChunkEntry.place
  fatal : after.fatalErr = none → before.fatalErr = none

theorem workerMove_frame (s after : Pool chunkDigest) (w : Fin chunkUploadWorkers)
    (move : WorkerMove s w after) : WorkerFrame s after := by
  cases move with
  | hash job => exact ⟨rfl, rfl, rfl, rfl, rfl, rfl, rfl, rfl, rfl, setDigest_places _ _ _, id⟩
  | record sha first => exact ⟨rfl, rfl, rfl, rfl, rfl, rfl, rfl, rfl, rfl, rfl, by simp [setWorker]⟩
  | _ => exact ⟨rfl, rfl, rfl, rfl, rfl, rfl, rfl, rfl, rfl, rfl, id⟩

theorem walkSide_start : WalkSide (Pool.init chunkDigest known) :=
  ⟨init_cut, trivial, fun _ => rfl, fun busy => absurd rfl busy, fun shut => by cases shut⟩

theorem walkSide_works (s after : Pool chunkDigest) (w : Fin chunkUploadWorkers)
    (held : WalkSide s) (move : WorkerMove s w after) : WalkSide after := by
  have frame := workerMove_frame s after w move
  refine ⟨?_, ?_, ?_, ?_, ?_⟩
  · rw [frame.data]
    exact held.cut.of_frame frame.places frame.pos frame.chunkcount
  · rw [frame.todo]
    exact held.injectLast
  · intro clean
    rw [frame.data, frame.currentChunk, frame.todo, frame.stream]
    exact held.whole (frame.fatal clean)
  · rw [frame.todo, frame.phase]
    exact held.busy
  · rw [frame.jobsClosed, frame.phase]
    exact held.shut

theorem beginCall_walkSide (s : Pool chunkDigest) (c : Call chunkDigest) (held : WalkSide s)
    (walking : s.phase = .walking) (idle : s.todo = []) : WalkSide (beginCall s c) := by
  have open_ : s.jobsClosed = false := by
    by_contra closed
    exact held.shut (by simpa using closed) (walking ▸ trivial)
  have whole := held.whole
  rw [idle] at whole
  cases c with
  | handleData b =>
      refine ⟨held.cut, trivial, fun clean => ?_, fun _ => ?_, held.shut⟩
      · simpa [beginCall, unscanned] using congrArg (· ++ b) (whole clean)
      · simp only [beginCall, walking]
        trivial
  | suggestBoundary =>
      simp only [beginCall]
      split
      · exact held
      · refine ⟨held.cut, emitOps_injectLast _ _ trivial, fun clean => ?_, fun _ => ?_, held.shut⟩
        · rw [emitOps_unscanned]
          exact whole clean
        · simp only [walking]
          trivial
  | forceBoundary =>
      refine ⟨held.cut, emitOps_injectLast _ _ trivial, fun clean => ?_, fun _ => ?_, held.shut⟩
      · simp only [beginCall]
        rw [emitOps_unscanned]
        exact whole clean
      · simp only [beginCall, walking]
        trivial
  | injectKnownChunk chunk =>
      refine ⟨held.cut, rfl, whole, fun _ => ?_, held.shut⟩
      simp only [beginCall, walking]
      trivial
  | eof =>
      refine ⟨held.cut, ?_, fun clean => ?_, fun _ => trivial, fun closed => ?_⟩
      · have last : InjectLast ((emitOps s.walk : List (WalkOp chunkDigest)) ++ []) :=
          emitOps_injectLast s.walk [] trivial
        rwa [List.append_nil] at last
      · have none : unscanned ((emitOps s.walk : List (WalkOp chunkDigest)) ++ []) = [] :=
          emitOps_unscanned s.walk []
        rw [List.append_nil] at none
        simp only [beginCall]
        rw [none]
        exact whole clean
      · simp only [beginCall, open_, Bool.false_eq_true] at closed
  | stopUploads =>
      refine ⟨held.cut, held.injectLast, held.whole, fun busy => absurd idle busy, fun _ => id⟩

theorem returnError_walkSide (s : Pool chunkDigest) (op : WalkOp chunkDigest)
    (rest : List (WalkOp chunkDigest)) (next : s.todo = op :: rest) (held : WalkSide s)
    (whole : s.fatalErr = none → s.data.flatten ++ s.walk.currentChunk = s.stream) :
    WalkSide (returnError s) := by
  refine ⟨held.cut, trivial, fun clean => ?_, fun busy => absurd rfl busy, fun closed => ?_⟩
  · simpa [returnError, unscanned] using whole clean
  · have cutting := held.busy (by rw [next]; exact List.cons_ne_nil op rest)
    exact absurd cutting (held.shut closed)

theorem walkSide_walks (s after : Pool chunkDigest) (held : WalkSide s)
    (move : WalkMove sha256 s after) : WalkSide after := by
  have whole := held.whole
  have last := held.injectLast
  cases move with
  | call c walking idle => exact beginCall_walkSide s c held walking idle
  | refuse rest next failed =>
      exact returnError_walkSide s _ rest next held fun clean => absurd clean failed
  | pass rest next clean =>
      rw [next] at whole last
      have cutting := held.busy (by simp [next])
      exact ⟨held.cut, last, whole, fun _ => cutting, held.shut⟩
  | append b rest C next =>
      rw [next] at whole last
      have cutting := held.busy (by simp [next])
      refine ⟨held.cut.of_frame rfl rfl rfl, last, fun clean => ?_, fun _ => cutting, held.shut⟩
      simpa [unscanned] using whole clean
  | found b rest C cutAt next =>
      rw [next] at whole last
      have cutting := held.busy (by simp [next])
      refine ⟨held.cut.of_frame rfl rfl rfl, last, fun clean => ?_, fun _ => cutting, held.shut⟩
      have parts := whole clean
      simp only [unscanned, List.append_assoc] at parts ⊢
      rw [← List.append_assoc (b.take cutAt), List.take_append_drop]
      exact parts
  | enqueue rest next =>
      rw [next] at whole last
      have cutting := held.busy (by simp [next])
      refine ⟨queue_cut _ _ held.cut, last, fun clean => ?_, fun _ => cutting, held.shut⟩
      simpa [unscanned, ChunkState.queue] using whole clean
  | send job rest next =>
      rw [next] at whole last
      have cutting := held.busy (by simp [next])
      exact ⟨held.cut, last, whole, fun _ => cutting, held.shut⟩
  | reset rest next =>
      rw [next] at whole last
      have cutting := held.busy (by simp [next])
      exact ⟨held.cut.of_frame rfl rfl rfl, last, whole, fun _ => cutting, held.shut⟩
  | injectRefused chunk rest next =>
      rw [next] at whole last
      cases (last : rest = [])
      exact returnError_walkSide s _ [] next held fun clean => by simpa [unscanned] using whole clean
  | injected chunk rest next nothingPending registered =>
      rw [next] at whole last
      cases (last : rest = [])
      have cut := appendKnown_cut s.walk s.data chunk.digest chunk.data held.cut
      rw [← chunk.sized] at cut
      refine ⟨cut, trivial, fun clean => ?_, fun busy => absurd rfl busy, held.shut⟩
      have parts := whole clean
      rw [nothingPending] at parts
      simp only [unscanned, List.append_nil] at parts
      simp [unscanned, ChunkState.appendKnown, nothingPending, parts]
  | closeJobs idle reached =>
      exact ⟨held.cut, last, whole, fun busy => absurd idle busy, fun _ => id⟩
  | waited reached gone =>
      exact ⟨held.cut, last, whole, fun busy => by simpa [reached, Cutting] using held.busy busy,
        fun _ => id⟩
  | eofFails reached failed =>
      exact ⟨held.cut, last, whole, fun busy => by simpa [reached, Cutting] using held.busy busy,
        fun _ => id⟩
  | list reached clean =>
      exact ⟨held.cut, last, whole, fun busy => by simpa [reached, Cutting] using held.busy busy,
        fun _ => id⟩
  | close reached =>
      exact ⟨held.cut, last, whole, fun busy => by simpa [reached, Cutting] using held.busy busy,
        fun _ => id⟩
  | assign rest reached =>
      exact ⟨held.cut, last, whole, fun busy => by simpa [reached, Cutting] using held.busy busy,
        fun _ => id⟩
  | requestFails rest reached =>
      exact ⟨held.cut, last, whole, fun busy => by simpa [reached, Cutting] using held.busy busy,
        fun _ => id⟩

theorem walkSide_invariant :
    Invariant (poolSystem chunkDigest sha256 known) (fun s => True ∧ WalkSide s) :=
  poolSystem_invariant ⟨fun _ _ => trivial, fun _ _ _ _ _ => trivial⟩ walkSide_start
    (fun s after _ _ held move => walkSide_walks s after held move)
    (fun s after w _ _ held move => walkSide_works s after w held move)

/-- closeIndex is under way or done. -/
def Closing : Phase → Prop
  | .assigning _ => True
  | .sealed _ => True
  | _ => False

def Listed (sha256 : Bytes → Digest) (s : Pool chunkDigest) : Prop :=
  match s.phase with
  | .assigning rest => s.assigned ++ rest = indexList s.walk.entries
  | .sealed index => s.assigned = indexList s.walk.entries ∧ index = closedIndex sha256 s.walk
  | .ended => True
  | .abandoned => True
  | _ => s.assigned = []

structure Shutdown (sha256 : Bytes → Digest) (s : Pool chunkDigest) : Prop where
  gone : ∀ w, s.workers w = .exited → s.jobsClosed = true ∧ s.uploadJobs = []
  waited : AllGone s.phase → ∀ w, s.workers w = .exited
  cancelled : s.cancelled = true →
    s.fatalErr ≠ none ∨ s.phase = .abandoned ∨ ∀ w, s.workers w = .exited
  cancelling : ∀ w, s.workers w = .cancelling → s.fatalErr ≠ none
  clean : Closing s.phase → s.fatalErr = none
  listed : Listed sha256 s

theorem setWorker_workers (s : Pool chunkDigest) (w other : Fin chunkUploadWorkers)
    (next : Worker) :
    (setWorker s w next).workers other = if other = w then next else s.workers other :=
  Function.update_apply s.workers w next other

/-- Every worker but the one that moved is where it was. -/
theorem workerMove_others (s after : Pool chunkDigest) (w other : Fin chunkUploadWorkers)
    (move : WorkerMove s w after) (apart : other ≠ w) :
    after.workers other = s.workers other := by
  cases move <;> exact Function.update_of_ne apart _ _

theorem workerMove_running (s after : Pool chunkDigest) (w : Fin chunkUploadWorkers)
    (move : WorkerMove s w after) : s.workers w ≠ .exited := by
  intro exited
  cases move <;> simp_all

theorem Closing.allGone {phase : Phase} (closing : Closing phase) : AllGone phase := by
  cases phase <;> first | exact closing | trivial

theorem shutdown_start : Shutdown sha256 (Pool.init chunkDigest known) :=
  ⟨fun _ exited => (by cases exited), fun gone => gone.elim, fun ended => (by cases ended),
    fun _ cancelling => (by cases cancelling), fun closing => closing.elim, rfl⟩

theorem shutdown_works (s after : Pool chunkDigest) (w : Fin chunkUploadWorkers)
    (held : Shutdown sha256 s) (move : WorkerMove s w after) : Shutdown sha256 after := by
  have frame := workerMove_frame s after w move
  have running := workerMove_running s after w move
  have others := workerMove_others s after w
  have early : ¬ AllGone after.phase := fun gone =>
    running (held.waited (frame.phase ▸ gone) w)
  refine ⟨?_, fun gone => absurd gone early, ?_, ?_, fun closing => absurd closing.allGone early, ?_⟩
  · intro other exited
    by_cases same : other = w
    · subst same
      cases move with
      | exit state drained closed => exact ⟨closed, drained⟩
      | _ => simp [setWorker_workers] at exited
    · rw [others other move same] at exited
      have shut := held.gone other exited
      cases move with
      | receive job rest state queued => simp [queued] at shut
      | _ => exact shut
  · intro ended
    have notAll : ¬ ∀ other, s.workers other = .exited := fun all => running (all w)
    have before : s.cancelled = true → after.fatalErr ≠ none ∨ after.phase = .abandoned := by
      intro ended
      rcases held.cancelled ended with failed | abandoned | all
      · exact Or.inl fun clean => failed (frame.fatal clean)
      · exact Or.inr (frame.phase.trans abandoned)
      · exact absurd all notAll
    have now : after.fatalErr ≠ none ∨ after.phase = .abandoned := by
      cases move with
      | cancel state => exact Or.inl (held.cancelling w state)
      | _ => exact before ended
    rcases now with failed | abandoned
    · exact Or.inl failed
    · exact Or.inr (Or.inl abandoned)
  · intro other cancelling
    by_cases same : other = w
    · subst same
      cases move with
      | record sha first state => simp [setWorker]
      | _ => simp [setWorker_workers] at cancelling
    · rw [others other move same] at cancelling
      exact fun clean => held.cancelling other cancelling (frame.fatal clean)
  · have listed := held.listed
    unfold Listed at listed ⊢
    rw [frame.phase] at early ⊢
    rw [frame.assigned]
    revert early listed
    cases s.phase <;> intro early listed <;> first | exact listed | exact absurd trivial early

theorem not_exited (s : Pool chunkDigest) (side : WalkSide s) (held : Shutdown sha256 s)
    (cutting : Cutting s.phase) (w : Fin chunkUploadWorkers) : s.workers w ≠ .exited :=
  fun exited => side.shut (held.gone w exited).1 cutting

/-- While chunks are still cut no worker is gone, so a step that touches neither
the workers nor what they reported keeps the shutdown in order. -/
theorem shutdown_cutting (s after : Pool chunkDigest) (side : WalkSide s)
    (held : Shutdown sha256 s) (cutting : Cutting s.phase)
    (workers : after.workers = s.workers) (fatal : after.fatalErr = s.fatalErr)
    (assigned : after.assigned = s.assigned) (early : ¬ AllGone after.phase)
    (cancelled : after.cancelled = true → s.cancelled = true ∨ after.phase = .abandoned) :
    Shutdown sha256 after := by
  have running := not_exited s side held cutting
  refine ⟨?_, fun gone => absurd gone early, ?_, ?_, fun closing => absurd closing.allGone early, ?_⟩
  · intro w exited
    rw [workers] at exited
    exact absurd exited (running w)
  · intro ended
    rcases cancelled ended with ended | abandoned
    · rcases held.cancelled ended with failed | abandoned | all
      · exact Or.inl (fatal ▸ failed)
      · rw [abandoned] at cutting
        exact cutting.elim
      · exact absurd (all ⟨0, by decide⟩) (running _)
    · exact Or.inr (Or.inl abandoned)
  · rw [workers, fatal]
    exact held.cancelling
  · have none : s.assigned = [] := by
      have listed := held.listed
      unfold Listed at listed
      revert cutting listed
      cases s.phase <;> intro cutting listed <;> first | exact listed | exact cutting.elim
    rw [none] at assigned
    unfold Listed
    revert early
    cases after.phase <;> intro early <;>
      first | exact assigned | trivial | exact absurd trivial early

theorem beginCall_shutdown (s : Pool chunkDigest) (c : Call chunkDigest) (side : WalkSide s)
    (held : Shutdown sha256 s) (walking : s.phase = .walking) :
    Shutdown sha256 (beginCall s c) := by
  have cutting : Cutting s.phase := walking ▸ trivial
  cases c with
  | eof => exact shutdown_cutting s _ side held cutting rfl rfl rfl id Or.inl
  | stopUploads => exact shutdown_cutting s _ side held cutting rfl rfl rfl id fun _ => Or.inr rfl
  | suggestBoundary =>
      simp only [beginCall]
      split
      · exact held
      · exact shutdown_cutting s _ side held cutting rfl rfl rfl (by simp [walking, AllGone]) Or.inl
  | _ => exact shutdown_cutting s _ side held cutting rfl rfl rfl
          (by simp [beginCall, walking, AllGone]) Or.inl

theorem returnError_early (s : Pool chunkDigest) : ¬ AllGone (returnError s).phase := by
  unfold returnError
  cases s.phase <;> exact id

theorem shutdown_walks (s after : Pool chunkDigest) (side : WalkSide s)
    (held : Shutdown sha256 s) (move : WalkMove sha256 s after) : Shutdown sha256 after := by
  have early : s.todo ≠ [] → ¬ AllGone s.phase := fun busy gone => busy (side.idle gone)
  have within : s.todo ≠ [] → ∀ next : Pool chunkDigest, next.workers = s.workers →
      next.fatalErr = s.fatalErr → next.assigned = s.assigned → next.phase = s.phase →
      next.cancelled = s.cancelled → Shutdown sha256 next := by
    intro busy next workers fatal assigned phase cancelled
    exact shutdown_cutting s next side held (side.busy busy) workers fatal assigned
      (phase ▸ early busy) fun ended => Or.inl (cancelled ▸ ended)
  cases move with
  | call c walking idle => exact beginCall_shutdown s c side held walking
  | refuse rest next failed =>
      exact shutdown_cutting s _ side held (side.busy (by simp [next])) rfl rfl rfl
        (returnError_early s) Or.inl
  | injectRefused chunk rest next =>
      exact shutdown_cutting s _ side held (side.busy (by simp [next])) rfl rfl rfl
        (returnError_early s) Or.inl
  | pass rest next clean => exact within (by simp [next]) _ rfl rfl rfl rfl rfl
  | append b rest C next => exact within (by simp [next]) _ rfl rfl rfl rfl rfl
  | found b rest C cutAt next => exact within (by simp [next]) _ rfl rfl rfl rfl rfl
  | enqueue rest next => exact within (by simp [next]) _ rfl rfl rfl rfl rfl
  | send job rest next => exact within (by simp [next]) _ rfl rfl rfl rfl rfl
  | reset rest next => exact within (by simp [next]) _ rfl rfl rfl rfl rfl
  | injected chunk rest next nothingPending registered =>
      exact within (by simp [next]) _ rfl rfl rfl rfl rfl
  | closeJobs idle reached =>
      exact shutdown_cutting s _ side held (reached ▸ trivial) rfl rfl rfl id Or.inl
  | waited reached gone =>
      have listed := held.listed
      simp only [Listed, reached] at listed
      exact ⟨held.gone, fun _ => gone, fun _ => Or.inr (Or.inr gone), held.cancelling,
        fun closing => closing.elim, listed⟩
  | eofFails reached failed =>
      exact ⟨held.gone, fun gone => gone.elim, fun _ => Or.inl failed, held.cancelling,
        fun closing => closing.elim, trivial⟩
  | list reached clean =>
      have none := held.listed
      simp only [Listed, reached] at none
      have all := held.waited (reached ▸ trivial)
      exact ⟨held.gone, fun _ => all, fun _ => Or.inr (Or.inr all), held.cancelling,
        fun _ => clean, by simp [Listed, none]⟩
  | close reached =>
      have listed := held.listed
      simp only [Listed, reached, List.append_nil] at listed
      have all := held.waited (reached ▸ trivial)
      exact ⟨held.gone, fun _ => all, fun _ => Or.inr (Or.inr all), held.cancelling,
        fun _ => held.clean (reached ▸ trivial), ⟨listed, rfl⟩⟩
  | assign rest reached =>
      have listed := held.listed
      simp only [Listed, reached] at listed
      have all := held.waited (reached ▸ trivial)
      exact ⟨held.gone, fun _ => all, fun _ => Or.inr (Or.inr all), held.cancelling,
        fun _ => held.clean (reached ▸ trivial),
        by simpa [Listed, List.append_assoc] using listed⟩
  | requestFails rest reached =>
      have all := held.waited (reached ▸ trivial)
      exact ⟨held.gone, fun gone => gone.elim, fun _ => Or.inr (Or.inr all), held.cancelling,
        fun closing => closing.elim, trivial⟩

theorem shutdown_invariant :
    Invariant (poolSystem chunkDigest sha256 known)
      (fun s => (True ∧ WalkSide s) ∧ Shutdown sha256 s) :=
  poolSystem_invariant walkSide_invariant shutdown_start
    (fun s after base _ held move => shutdown_walks s after base.2 held move)
    (fun s after w _ _ held move => shutdown_works s after w held move)

/-- Eof has been called. -/
def Ending : Phase → Prop
  | .emitting => True
  | .draining => True
  | phase => AllGone phase

/-- Eof queues the pending chunk before anything else. -/
def Flushed (s : Pool chunkDigest) : Prop :=
  Ending s.phase → s.todo = [.checkErr, .enqueue] ∨ s.todo = [.enqueue] ∨
    (s.walk.currentChunk = [] ∧ (s.todo = [] ∨ ∃ job, s.todo = [.send job]))

theorem flushed_works (s after : Pool chunkDigest) (w : Fin chunkUploadWorkers)
    (held : Flushed s) (move : WorkerMove s w after) : Flushed after := by
  have frame := workerMove_frame s after w move
  unfold Flushed
  rw [frame.phase, frame.todo, frame.currentChunk]
  exact held

theorem flushed_walks (s after : Pool chunkDigest) (held : Flushed s)
    (move : WalkMove sha256 s after) : Flushed after := by
  intro ending
  cases move with
  | call c walking idle =>
      cases c with
      | eof =>
          simp only [beginCall, emitOps]
          split
          · next nothing => exact Or.inr (Or.inr ⟨List.eq_nil_of_length_eq_zero nothing, Or.inl rfl⟩)
          · exact Or.inl rfl
      | stopUploads => exact ending.elim
      | suggestBoundary =>
          simp only [beginCall] at ending
          split at ending <;> (simp only [walking] at ending; exact ending.elim)
      | _ =>
          simp only [beginCall, walking] at ending
          exact ending.elim
  | refuse rest next failed =>
      simp only [returnError] at ending
      split at ending <;> exact ending.elim
  | injectRefused chunk rest next =>
      simp only [returnError] at ending
      split at ending <;> exact ending.elim
  | pass rest next clean =>
      have shape := held ending
      rw [next] at shape
      rcases shape with same | same | ⟨_, same | ⟨_, same⟩⟩ <;> cases same
      exact Or.inr (Or.inl rfl)
  | enqueue rest next =>
      have shape := held ending
      rw [next] at shape
      rcases shape with same | same | ⟨_, same | ⟨_, same⟩⟩ <;> cases same
      exact Or.inr (Or.inr ⟨rfl, Or.inr ⟨_, rfl⟩⟩)
  | send job rest next =>
      have shape := held ending
      rw [next] at shape
      rcases shape with same | same | ⟨nothing, same | ⟨_, same⟩⟩ <;> cases same
      exact Or.inr (Or.inr ⟨nothing, Or.inl rfl⟩)
  | append b rest C next =>
      have shape := held ending
      rw [next] at shape
      rcases shape with same | same | ⟨_, same | ⟨_, same⟩⟩ <;> cases same
  | found b rest C cutAt next =>
      have shape := held ending
      rw [next] at shape
      rcases shape with same | same | ⟨_, same | ⟨_, same⟩⟩ <;> cases same
  | reset rest next =>
      have shape := held ending
      rw [next] at shape
      rcases shape with same | same | ⟨_, same | ⟨_, same⟩⟩ <;> cases same
  | injected chunk rest next nothingPending registered =>
      have shape := held ending
      rw [next] at shape
      rcases shape with same | same | ⟨_, same | ⟨_, same⟩⟩ <;> cases same
  | closeJobs idle reached => exact held (reached ▸ trivial)
  | waited reached gone => exact held (reached ▸ trivial)
  | list reached clean => exact held (reached ▸ trivial)
  | close reached => exact held (reached ▸ trivial)
  | assign rest reached => exact held (reached ▸ trivial)
  | eofFails reached failed => exact ending.elim
  | requestFails rest reached => exact ending.elim

theorem flushed_invariant :
    Invariant (poolSystem chunkDigest sha256 known)
      (fun s => ((True ∧ WalkSide s) ∧ Shutdown sha256 s) ∧ Flushed s) :=
  poolSystem_invariant shutdown_invariant (fun ending => ending.elim)
    (fun s after _ _ held move => flushed_walks s after held move)
    (fun s after w _ _ held move => flushed_works s after w held move)

end ProxmoxBackup.UploadPoolWalk
