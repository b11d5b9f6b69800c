import ProxmoxBackup.ImageUpload
import Mathlib.Data.Fintype.Card

/-! How blocks and results flow through the image upload: every block is handed
to one worker, in order and at its own position; a worker that ends without an
error has seen ch2 closed; and uploadWorker goes on to the index only once all
eight have reported so and the reader has not failed. -/

namespace ProxmoxBackup.ImageUploadFlow

open TransitionSystem DynamicChunks ImageUpload

variable {chunkDigest sha256 : Bytes → Digest} {total_size : Nat} {known : List Digest}

def unsent : Reader → List Block
  | .reading rest => rest
  | _ => []

/-- The blocks with the positions they belong at. -/
def placed : Nat → List Block → List PosSeg
  | _, [] => []
  | pos, block :: rest => ⟨pos, block⟩ :: placed (pos + block.data.length) rest

/-- What no worker has been handed yet. -/
def pending (s : Image) : List PosSeg :=
  match s.posfn with
  | .notStarted => placed 0 (unsent s.reader)
  | .waiting pos => placed pos (unsent s.reader)
  | .holding seg => seg :: placed (seg.Pos + seg.Data.data.length) (unsent s.reader)
  | .closed => []

/-- uploadWorker has taken the reader's result. -/
def Past : Main → Prop
  | .creating => False
  | .collecting => False
  | _ => True

def Sealing : Main → Prop
  | .assigning _ => True
  | .closing _ => True
  | .closed _ => True
  | _ => False

structure Flow (s : Image) : Prop where
  ordered : placed 0 s.source = s.handed ++ pending s
  posClosed : s.posfn = .closed → s.reader = .closed
  unstarted : s.posfn = .notStarted → ∀ w, s.workers w = .notStarted
  begun : s.posfn ≠ .notStarted → ∀ w, s.workers w ≠ .notStarted
  creating : s.main = .creating → s.posfn = .notStarted
  running : s.posfn = .notStarted → s.main = .creating ∨ s.main = .returned
  reported : (∃ rest, s.reader = .reading rest) ∨ s.errCh = some s.readFails ∨ Past s.main
  drained : ∀ w, s.workers w = .reporting true ∨ s.workers w = .finished true →
    s.posfn = .closed

theorem setWorker_workers (s : Image) (w other : Workers) (next : Worker) :
    (setWorker s w next).workers other = if other = w then next else s.workers other :=
  Function.update_apply s.workers w next other

theorem flow_start (source : List Block) (readFails : Bool) :
    Flow (Image.init source readFails known) :=
  ⟨rfl, fun closed => (by cases closed), fun _ _ => rfl, fun begun => absurd rfl begun,
    fun _ => rfl, fun _ => Or.inl rfl, Or.inl ⟨source, rfl⟩, fun w state => by
      rcases state with state | state <;> cases state⟩

/-- A worker's step that hands on no block and ends without an error only behind ch2. -/
theorem flow_worker (s base : Image) (w : Workers) (next : Worker) (held : Flow s)
    (state : s.workers w ≠ .notStarted) (started : next ≠ .notStarted)
    (source : base.source = s.source) (handed : base.handed = s.handed)
    (reader : base.reader = s.reader) (posfn : base.posfn = s.posfn)
    (main : base.main = s.main) (errCh : base.errCh = s.errCh)
    (readFails : base.readFails = s.readFails) (workers : base.workers = s.workers)
    (drained : next = .reporting true ∨ next = .finished true → s.posfn = .closed) :
    Flow (setWorker base w next) := by
  have begun : s.posfn ≠ .notStarted := fun idle => state (held.unstarted idle w)
  have same : pending (setWorker base w next) = pending s := by
    simp only [pending, setWorker, posfn, reader]
  refine ⟨?_, ?_, ?_, ?_, ?_, ?_, ?_, ?_⟩
  · rw [same]
    simpa only [setWorker, source, handed] using held.ordered
  · simpa only [setWorker, posfn, reader] using held.posClosed
  · intro idle
    exact absurd (posfn ▸ idle) begun
  · intro _ other
    rw [setWorker_workers, workers]
    split
    · exact started
    · exact held.begun begun other
  · simpa only [setWorker, posfn, main] using held.creating
  · simpa only [setWorker, posfn, main] using held.running
  · simpa only [setWorker, reader, errCh, readFails, main] using held.reported
  · intro other
    rw [setWorker_workers, workers]
    simp only [setWorker, posfn]
    split
    · exact drained
    · exact held.drained other

/-- A step of uploadWorker or of the reader that leaves the blocks alone. -/
theorem flow_aside (s after : Image) (held : Flow s) (source : after.source = s.source)
    (handed : after.handed = s.handed) (same : pending after = pending s)
    (posfn : after.posfn = s.posfn) (workers : after.workers = s.workers)
    (closed : s.reader = .closed → after.reader = .closed)
    (creating : after.main = .creating → s.main = .creating)
    (running : s.main = .creating ∨ s.main = .returned →
      after.main = .creating ∨ after.main = .returned)
    (reported : (∃ rest, after.reader = .reading rest) ∨ after.errCh = some after.readFails ∨
      Past after.main) : Flow after := by
  refine ⟨?_, ?_, ?_, ?_, ?_, ?_, reported, ?_⟩
  · rw [source, handed, same]
    exact held.ordered
  · rw [posfn]
    exact fun ended => closed (held.posClosed ended)
  · rw [posfn, workers]
    exact held.unstarted
  · rw [posfn, workers]
    exact held.begun
  · rw [posfn]
    exact fun now => held.creating (creating now)
  · rw [posfn]
    exact fun idle => running (held.running idle)
  · rw [workers, posfn]
    exact held.drained

theorem flow_step (s after : Image) (turn : Turn) (held : Flow s)
    (move : Move chunkDigest sha256 total_size s turn after) : Flow after := by
  cases move with
  | report at_ =>
      exact flow_aside s _ held rfl rfl (by simp [pending, unsent, at_]) rfl rfl
        (by simp [at_]) id id (Or.inr (Or.inl rfl))
  | closeCh at_ =>
      have reported := held.reported
      simp only [at_, reduceCtorEq, exists_false, false_or] at reported
      exact flow_aside s _ held rfl rfl (by simp [pending, unsent, at_]) rfl rfl (fun _ => rfl)
        id id (Or.inr reported)
  | pass block rest pos sends waits =>
      refine ⟨?_, fun closed => (by cases closed), fun idle => (by cases idle), fun _ => ?_,
        fun now => ?_, fun idle => (by cases idle), Or.inl ⟨rest, rfl⟩, fun w state => ?_⟩
      · have ordered := held.ordered
        simpa [pending, sends, waits, unsent, placed] using ordered
      · exact held.begun (by simp [waits])
      · have idle := held.creating now
        simp [waits] at idle
      · have closed := held.drained w state
        simp [waits] at closed
  | closeCh2 pos waits ended =>
      have reported := held.reported
      refine ⟨?_, fun _ => ended, fun idle => (by cases idle), fun _ => ?_, fun now => ?_,
        fun idle => (by cases idle), reported, fun _ _ => rfl⟩
      · simpa [pending, waits, ended, unsent, placed] using held.ordered
      · exact held.begun (by simp [waits])
      · have idle := held.creating now
        simp [waits] at idle
  | hand w fails seg idle holds =>
      have begun : ∀ other, s.workers other ≠ .notStarted := held.begun (by simp [holds])
      refine ⟨?_, fun closed => (by cases closed), fun none => (by cases none), fun _ other => ?_,
        fun now => ?_, fun none => (by cases none), held.reported, fun other state => ?_⟩
      · simpa [pending, setWorker, holds] using held.ordered
      · rw [setWorker_workers]
        split
        · simp
        · exact begun other
      · have none := held.creating now
        simp [holds] at none
      · rw [setWorker_workers] at state
        split at state
        · rcases state with state | state <;> cases state
        · have closed := held.drained other state
          simp [holds] at closed
  | drained w fails idle ended =>
      exact flow_worker s s w _ held (by simp [idle]) (by simp) rfl rfl rfl rfl rfl rfl rfl rfl
        fun _ => ended
  | record w fails seg state =>
      exact flow_worker s _ w _ held (by simp [state]) (by simp) rfl rfl rfl rfl rfl rfl rfl rfl
        (by simp)
  | reuse w fails seg shahash state =>
      exact flow_worker s _ w _ held (by simp [state]) (by simp) rfl rfl rfl rfl rfl rfl rfl rfl
        (by simp)
  | uploadFails w seg shahash state =>
      exact flow_worker s _ w _ held (by simp [state]) (by simp) rfl rfl rfl rfl rfl rfl rfl rfl
        (by simp)
  | upload w seg shahash state =>
      exact flow_worker s _ w _ held (by simp [state]) (by simp) rfl rfl rfl rfl rfl rfl rfl rfl
        (by simp)
  | count w fails seg shahash state fits =>
      exact flow_worker s _ w _ held (by simp [state]) (by simp) rfl rfl rfl rfl rfl rfl rfl rfl
        (by simp)
  | tooMuch w fails seg shahash state ended =>
      exact flow_worker s _ w _ held (by simp [state]) (by simp) rfl rfl rfl rfl rfl rfl rfl rfl
        (by simp)
  | result w fails ok state =>
      refine flow_worker s _ w _ held (by simp [state]) (by simp) rfl rfl rfl rfl rfl rfl rfl rfl
        fun done => held.drained w (Or.inl ?_)
      rcases done with done | done
      · cases done
      · cases done
        exact state
  | createFails at_ =>
      exact flow_aside s _ held rfl rfl rfl rfl rfl id (fun now => (by cases now))
        (fun _ => Or.inr rfl) (Or.inr (Or.inr trivial))
  | start at_ =>
      have idle := held.creating at_
      have reported := held.reported
      simp only [at_, Past, or_false] at reported
      refine ⟨?_, fun closed => (by cases closed), fun none => (by cases none),
        fun _ _ => Worker.noConfusion, fun now => (by cases now), fun none => (by cases none),
        reported.imp_right Or.inl, fun _ state => ?_⟩
      · simpa [pending, idle] using held.ordered
      · rcases state with state | state <;> cases state
  | readFailed fails at_ all failed =>
      exact flow_aside s _ held rfl rfl rfl rfl rfl id (fun now => (by cases now))
        (fun _ => Or.inr rfl) (Or.inr (Or.inr trivial))
  | complete fails at_ all clean =>
      exact flow_aside s _ held rfl rfl rfl rfl rfl id (fun now => (by cases now))
        (by simp [at_]) (Or.inr (Or.inr trivial))
  | collect fails w rest at_ more first =>
      exact flow_aside s _ held rfl rfl rfl rfl rfl id id id held.reported
  | workerFailed fails w rest at_ first =>
      exact flow_aside s _ held rfl rfl rfl rfl rfl id (fun now => (by cases now))
        (fun _ => Or.inr rfl) (Or.inr (Or.inr trivial))
  | assign k at_ more =>
      exact flow_aside s _ held rfl rfl rfl rfl rfl id (fun now => (by cases now))
        (by simp [at_]) (Or.inr (Or.inr trivial))
  | assignFails k at_ =>
      exact flow_aside s _ held rfl rfl rfl rfl rfl id (fun now => (by cases now))
        (fun _ => Or.inr rfl) (Or.inr (Or.inr trivial))
  | close fails k at_ all =>
      exact flow_aside s _ held rfl rfl rfl rfl rfl id (fun now => (by cases now))
        (by simp [at_]) (Or.inr (Or.inr trivial))
  | closeFails index at_ =>
      exact flow_aside s _ held rfl rfl rfl rfl rfl id (fun now => (by cases now))
        (fun _ => Or.inr rfl) (Or.inr (Or.inr trivial))
  | closed index at_ =>
      exact flow_aside s _ held rfl rfl rfl rfl rfl id (fun now => (by cases now))
        (by simp [at_]) (Or.inr (Or.inr trivial))

structure Results (s : Image) : Prop where
  distinct : (s.errch.map Prod.fst ++ s.collected).Nodup
  queued : ∀ w ok, (w, ok) ∈ s.errch → s.workers w = .finished ok
  collected : ∀ w, w ∈ s.collected → s.workers w = .finished true
  owed : ∀ w ok, s.workers w = .finished ok →
    (w, ok) ∈ s.errch ∨ w ∈ s.collected ∨ s.main = .returned
  sealing : Sealing s.main → (∀ w, s.workers w = .finished true) ∧ s.readFails = false

theorem results_start (source : List Block) (readFails : Bool) :
    Results (Image.init source readFails known) :=
  ⟨List.nodup_nil, fun _ _ listed => (by cases listed), fun _ listed => (by cases listed),
    fun _ _ done => (by cases done), fun sealing => sealing.elim⟩

/-- A worker that has not finished is in nobody's results. -/
theorem Results.absent {s : Image} (held : Results s) (w : Workers)
    (working : ∀ ok, s.workers w ≠ .finished ok) :
    w ∉ s.errch.map Prod.fst ∧ w ∉ s.collected := by
  refine ⟨fun listed => ?_, fun listed => working true (held.collected w listed)⟩
  obtain ⟨⟨v, ok⟩, member, same⟩ := List.mem_map.mp listed
  exact working ok (same ▸ held.queued v ok member)

/-- All eight results are in and none is an error. -/
theorem Results.all {s : Image} (held : Results s) (all : s.collected.length = 8)
    (w : Workers) : s.workers w = .finished true := by
  have distinct : s.collected.Nodup := (List.nodup_append.mp held.distinct).2.1
  by_contra unfinished
  have missing : w ∉ s.collected := fun listed => unfinished (held.collected w listed)
  have bound := (List.nodup_cons.mpr ⟨missing, distinct⟩).length_le_card
  simp [all] at bound

theorem results_worker (s base : Image) (w : Workers) (next : Worker) (held : Results s)
    (working : ∀ ok, s.workers w ≠ .finished ok) (unfinished : ∀ ok, next ≠ .finished ok)
    (errch : base.errch = s.errch) (collected : base.collected = s.collected)
    (main : base.main = s.main) (workers : base.workers = s.workers) :
    Results (setWorker base w next) := by
  obtain ⟨notQueued, notCollected⟩ := held.absent w working
  refine ⟨?_, ?_, ?_, ?_, ?_⟩
  · simpa only [setWorker, errch, collected] using held.distinct
  · intro v ok listed
    simp only [setWorker, errch] at listed
    have apart : v ≠ w := by
      rintro rfl
      exact notQueued (List.mem_map.mpr ⟨_, listed, rfl⟩)
    rw [setWorker_workers, if_neg apart, workers]
    exact held.queued v ok listed
  · intro v listed
    simp only [setWorker, collected] at listed
    have apart : v ≠ w := by
      rintro rfl
      exact notCollected listed
    rw [setWorker_workers, if_neg apart, workers]
    exact held.collected v listed
  · intro v ok done
    rw [setWorker_workers, workers] at done
    split at done
    · exact absurd done (unfinished ok)
    · simpa only [setWorker, errch, collected, main] using held.owed v ok done
  · intro sealing
    simp only [setWorker, main] at sealing
    exact absurd ((held.sealing sealing).1 w) (working true)

theorem results_step (s after : Image) (turn : Turn) (flow : Flow s) (held : Results s)
    (move : Move chunkDigest sha256 total_size s turn after) : Results after := by
  cases move with
  | report at_ => exact ⟨held.distinct, held.queued, held.collected, held.owed, held.sealing⟩
  | pass block rest pos sends waits =>
      exact ⟨held.distinct, held.queued, held.collected, held.owed, held.sealing⟩
  | closeCh at_ => exact ⟨held.distinct, held.queued, held.collected, held.owed, held.sealing⟩
  | closeCh2 pos waits ended =>
      exact ⟨held.distinct, held.queued, held.collected, held.owed, held.sealing⟩
  | hand w fails seg idle holds =>
      exact results_worker s _ w _ held (by simp [idle]) (by simp) rfl rfl rfl rfl
  | drained w fails idle ended =>
      exact results_worker s _ w _ held (by simp [idle]) (by simp) rfl rfl rfl rfl
  | record w fails seg state =>
      exact results_worker s _ w _ held (by simp [state]) (by simp) rfl rfl rfl rfl
  | reuse w fails seg shahash state =>
      exact results_worker s _ w _ held (by simp [state]) (by simp) rfl rfl rfl rfl
  | uploadFails w seg shahash state =>
      exact results_worker s _ w _ held (by simp [state]) (by simp) rfl rfl rfl rfl
  | upload w seg shahash state =>
      exact results_worker s _ w _ held (by simp [state]) (by simp) rfl rfl rfl rfl
  | count w fails seg shahash state fits =>
      exact results_worker s _ w _ held (by simp [state]) (by simp) rfl rfl rfl rfl
  | tooMuch w fails seg shahash state ended =>
      exact results_worker s _ w _ held (by simp [state]) (by simp) rfl rfl rfl rfl
  | result w fails ok state =>
      obtain ⟨notQueued, notCollected⟩ := held.absent w (by simp [state])
      refine ⟨?_, ?_, ?_, ?_, ?_⟩
      · have distinct := held.distinct
        simp only [setWorker, List.map_append, List.map_cons, List.map_nil, List.append_assoc,
          List.singleton_append, List.nodup_middle, List.nodup_cons, List.mem_append, not_or]
        exact ⟨⟨notQueued, notCollected⟩, distinct⟩
      · intro v ok' listed
        rw [setWorker_workers]
        rcases List.mem_append.mp listed with old | new
        · have apart : v ≠ w := by
            rintro rfl
            exact notQueued (List.mem_map.mpr ⟨_, old, rfl⟩)
          rw [if_neg apart]
          exact held.queued v ok' old
        · cases List.mem_singleton.mp new
          rw [if_pos rfl]
      · intro v listed
        have apart : v ≠ w := by
          rintro rfl
          exact notCollected listed
        rw [setWorker_workers, if_neg apart]
        exact held.collected v listed
      · intro v ok' done
        rw [setWorker_workers] at done
        split at done
        · next same =>
            cases done
            exact Or.inl (List.mem_append_right _ (same ▸ List.mem_singleton_self _))
        · exact (held.owed v ok' done).imp_left (List.mem_append_left _)
      · intro sealing
        have finished := (held.sealing sealing).1 w
        simp [state] at finished
  | createFails at_ =>
      exact ⟨held.distinct, held.queued, held.collected, fun w ok _ => Or.inr (Or.inr rfl),
        fun sealing => sealing.elim⟩
  | start at_ =>
      have unstarted := flow.unstarted (flow.creating at_)
      have none : s.errch = [] := by
        rw [List.eq_nil_iff_forall_not_mem]
        rintro ⟨w, ok⟩ listed
        have finished := held.queued w ok listed
        simp [unstarted w] at finished
      have nobody : s.collected = [] := by
        rw [List.eq_nil_iff_forall_not_mem]
        intro w listed
        have finished := held.collected w listed
        simp [unstarted w] at finished
      refine ⟨held.distinct, fun w ok listed => ?_, fun w listed => ?_,
        fun w ok done => (by cases done), fun sealing => sealing.elim⟩
      · simp [none] at listed
      · simp [nobody] at listed
  | readFailed fails at_ all failed =>
      exact ⟨held.distinct, held.queued, held.collected, fun w ok _ => Or.inr (Or.inr rfl),
        fun sealing => sealing.elim⟩
  | complete fails at_ all clean =>
      have finished := held.all all
      have ended : s.posfn = .closed := flow.drained ⟨0, by decide⟩ (Or.inr (finished _))
      have reported := flow.reported
      simp only [flow.posClosed ended, at_, Past, reduceCtorEq, exists_false, false_or,
        or_false] at reported
      refine ⟨held.distinct, held.queued, held.collected, fun w ok done => ?_,
        fun _ => ⟨finished, ?_⟩⟩
      · rcases held.owed w ok done with queued | collected | returned
        · exact Or.inl queued
        · exact Or.inr (Or.inl collected)
        · simp [at_] at returned
      · rw [reported] at clean
        simpa using clean
  | collect fails w rest at_ more first =>
      have distinct := held.distinct
      rw [first] at distinct
      have finished := held.queued w true (first ▸ List.mem_cons_self ..)
      refine ⟨?_, fun v ok listed => ?_, fun v listed => ?_, fun v ok done => ?_, ?_⟩
      · simp only [List.map_cons, List.cons_append, List.nodup_cons, List.mem_append,
          not_or] at distinct
        rw [← List.append_assoc, List.nodup_append_comm, List.singleton_append, List.nodup_cons,
          List.mem_append, not_or]
        exact distinct
      · exact held.queued v ok (first ▸ List.mem_cons_of_mem _ listed)
      · rcases List.mem_append.mp listed with old | new
        · exact held.collected v old
        · cases List.mem_singleton.mp new
          exact finished
      · rcases held.owed v ok done with queued | collected | returned
        · rw [first] at queued
          rcases List.mem_cons.mp queued with same | later
          · cases same
            exact Or.inr (Or.inl (List.mem_append_right _ (List.mem_singleton_self _)))
          · exact Or.inl later
        · exact Or.inr (Or.inl (List.mem_append_left _ collected))
        · exact Or.inr (Or.inr returned)
      · exact held.sealing
  | workerFailed fails w rest at_ first =>
      have distinct := held.distinct
      rw [first] at distinct
      refine ⟨(List.nodup_cons.mp distinct).2, fun v ok listed => ?_, held.collected,
        fun w ok _ => Or.inr (Or.inr rfl), fun sealing => sealing.elim⟩
      exact held.queued v ok (first ▸ List.mem_cons_of_mem _ listed)
  | assign k at_ more =>
      have sealing := held.sealing (at_ ▸ trivial)
      exact ⟨held.distinct, held.queued, held.collected,
        fun w ok done => (held.owed w ok done).imp_right (Or.imp_right (by simp [at_])),
        fun _ => sealing⟩
  | close fails k at_ all =>
      have sealing := held.sealing (at_ ▸ trivial)
      exact ⟨held.distinct, held.queued, held.collected,
        fun w ok done => (held.owed w ok done).imp_right (Or.imp_right (by simp [at_])),
        fun _ => sealing⟩
  | closed index at_ =>
      have sealing := held.sealing (at_ ▸ trivial)
      exact ⟨held.distinct, held.queued, held.collected,
        fun w ok done => (held.owed w ok done).imp_right (Or.imp_right (by simp [at_])),
        fun _ => sealing⟩
  | assignFails k at_ =>
      exact ⟨held.distinct, held.queued, held.collected, fun w ok _ => Or.inr (Or.inr rfl),
        fun sealing => sealing.elim⟩
  | closeFails index at_ =>
      exact ⟨held.distinct, held.queued, held.collected, fun w ok _ => Or.inr (Or.inr rfl),
        fun sealing => sealing.elim⟩

/-- The segment a worker is busy with. -/
def busyWith : Worker → Option PosSeg
  | .received seg => some seg
  | .recorded seg _ _ => some seg
  | .stored seg _ => some seg
  | _ => none

/-- A worker has given up, which uploadWorker will hear of. -/
def Failed (s : Image) : Prop :=
  ∃ w, s.workers w = .reporting false ∨ s.workers w = .finished false

/-- The segment's digest is in index_hash_data under its position. -/
def Hashed (s : Image) (chunkDigest : Bytes → Digest) (seg : PosSeg) : Prop :=
  (seg.Pos, chunkDigest seg.Data.data) ∈ s.index_hash_data

structure Segments (chunkDigest : Bytes → Digest) (s : Image) : Prop where
  busyHanded : ∀ w seg, busyWith (s.workers w) = some seg → seg ∈ s.handed ∧ seg ∉ s.completed
  busyApart : ∀ v w seg, busyWith (s.workers v) = some seg → busyWith (s.workers w) = some seg →
    v = w
  doneHanded : ∀ seg ∈ s.completed, seg ∈ s.handed
  doneDistinct : s.completed.Nodup
  accounted : ¬ Failed s → ∀ seg ∈ s.handed,
    seg ∈ s.completed ∨ ∃ w, busyWith (s.workers w) = some seg
  digests : ∀ w seg shahash, ((∃ known, s.workers w = .recorded seg shahash known) ∨
    s.workers w = .stored seg shahash) → shahash = chunkDigest seg.Data.data ∧
      Hashed s chunkDigest seg
  doneHashed : ∀ seg ∈ s.completed, Hashed s chunkDigest seg
  hashes : ∀ entry ∈ s.index_hash_data,
    ∃ seg ∈ s.handed, entry = (seg.Pos, chunkDigest seg.Data.data)
  keys : (s.index_hash_data.map Prod.fst).Nodup
  assignments : s.assignments =
    s.completed.map fun seg => (chunkDigest seg.Data.data, seg.Pos)
  processed : s.processed_size = (s.completed.map fun seg => seg.Data.data.length).sum
  counted : s.chunkcount = s.completed.length

theorem placed_pos (pos : Nat) (blocks : List Block) (seg : PosSeg)
    (member : seg ∈ placed pos blocks) : pos ≤ seg.Pos := by
  induction blocks generalizing pos with
  | nil => cases member
  | cons block rest ih =>
      rcases List.mem_cons.mp member with same | later
      · rw [same]
      · exact le_trans (Nat.le_add_right _ _) (ih _ later)

/-- No block is empty, so no two share a position. -/
theorem placed_sorted (pos : Nat) (blocks : List Block) :
    (placed pos blocks).Pairwise fun a b => a.Pos < b.Pos := by
  induction blocks generalizing pos with
  | nil => exact List.Pairwise.nil
  | cons block rest ih =>
      refine List.pairwise_cons.mpr ⟨fun seg member => ?_, ih _⟩
      have after := placed_pos _ rest seg member
      have filled := List.length_pos_of_ne_nil block.filled
      exact lt_of_lt_of_le (Nat.lt_add_of_pos_right filled) after

theorem Flow.handed_sorted {s : Image} (flow : Flow s) :
    s.handed.Pairwise fun a b => a.Pos < b.Pos := by
  have sorted := placed_sorted 0 s.source
  rw [flow.ordered] at sorted
  exact (List.pairwise_append.mp sorted).1

theorem Flow.handed_pos {s : Image} (flow : Flow s) (a b : PosSeg) (first : a ∈ s.handed)
    (second : b ∈ s.handed) (same : a.Pos = b.Pos) : a = b := by
  have positions : (s.handed.map PosSeg.Pos).Nodup :=
    List.pairwise_map.mpr (flow.handed_sorted.imp fun ordered => Nat.ne_of_lt ordered)
  exact List.inj_on_of_nodup_map positions first second same

theorem setHash_mem (hashes : List (Nat × Digest)) (pos : Nat) (digest : Digest)
    (entry : Nat × Digest) (member : entry ∈ setHash hashes pos digest) :
    entry = (pos, digest) ∨ entry ∈ hashes := by
  rcases List.mem_cons.mp member with same | kept
  · exact Or.inl same
  · exact Or.inr (List.mem_filter.mp kept).1

theorem setHash_keys (hashes : List (Nat × Digest)) (pos : Nat) (digest : Digest)
    (keys : (hashes.map Prod.fst).Nodup) : ((setHash hashes pos digest).map Prod.fst).Nodup := by
  rw [setHash, List.map_cons, List.nodup_cons]
  refine ⟨fun listed => ?_, ?_⟩
  · obtain ⟨entry, member, same⟩ := List.mem_map.mp listed
    have other := (List.mem_filter.mp member).2
    simp [same] at other
  · exact keys.sublist (List.Sublist.map _ List.filter_sublist)

/-- Recording a segment keeps what other segments have recorded: a digest lost
would be one at the same position, which is the same segment's. -/
theorem setHash_keeps (s : Image) (flow : Flow s) (seg other : PosSeg)
    (held : seg ∈ s.handed) (member : other ∈ s.handed) (hashed : Hashed s chunkDigest other) :
    (other.Pos, chunkDigest other.Data.data) ∈
      setHash s.index_hash_data seg.Pos (chunkDigest seg.Data.data) := by
  by_cases same : other.Pos = seg.Pos
  · rw [flow.handed_pos other seg member held same]
    exact List.mem_cons_self ..
  · exact List.mem_cons_of_mem _ (List.mem_filter.mpr ⟨hashed, by simpa using same⟩)

theorem segments_start (source : List Block) (readFails : Bool) :
    Segments chunkDigest (Image.init source readFails known) where
  busyHanded _ _ busy := by cases busy
  busyApart _ _ _ busy := by cases busy
  doneHanded _ member := by cases member
  doneDistinct := List.nodup_nil
  accounted _ _ member := by cases member
  digests _ _ _ state := by rcases state with ⟨_, state⟩ | state <;> cases state
  doneHashed _ member := by cases member
  hashes _ member := by cases member
  keys := List.nodup_nil
  assignments := rfl
  processed := rfl
  counted := rfl

/-- Steps that touch no worker and none of the index data. -/
theorem segments_aside (s after : Image) (held : Segments chunkDigest s)
    (workers : after.workers = s.workers) (handed : after.handed = s.handed)
    (completed : after.completed = s.completed)
    (hashes : after.index_hash_data = s.index_hash_data)
    (assignments : after.assignments = s.assignments)
    (processed : after.processed_size = s.processed_size)
    (counted : after.chunkcount = s.chunkcount) : Segments chunkDigest after where
  busyHanded := by rw [workers, handed, completed]; exact held.busyHanded
  busyApart := by rw [workers]; exact held.busyApart
  doneHanded := by rw [handed, completed]; exact held.doneHanded
  doneDistinct := by rw [completed]; exact held.doneDistinct
  accounted := by
    simp only [Failed, workers, handed, completed]
    exact held.accounted
  digests := by
    simp only [Hashed, workers, hashes]
    exact held.digests
  doneHashed := by
    simp only [Hashed, completed, hashes]
    exact held.doneHashed
  hashes := by rw [hashes, handed]; exact held.hashes
  keys := by rw [hashes]; exact held.keys
  assignments := by rw [assignments, completed]; exact held.assignments
  processed := by rw [processed, completed]; exact held.processed
  counted := by rw [counted, completed]; exact held.counted

/-- A worker's step that counts nothing: it keeps its segment, or gives it up and fails. -/
theorem segments_worker (s base : Image) (w : Workers) (next : Worker)
    (held : Segments chunkDigest s) (workers : base.workers = s.workers)
    (handed : base.handed = s.handed) (completed : base.completed = s.completed)
    (hashes : base.index_hash_data = s.index_hash_data)
    (assignments : base.assignments = s.assignments)
    (processed : base.processed_size = s.processed_size)
    (counted : base.chunkcount = s.chunkcount)
    (keeps : busyWith next = busyWith (s.workers w) ∨ next = .reporting false)
    (digests : ∀ seg shahash, ((∃ known, next = .recorded seg shahash known) ∨
      next = .stored seg shahash) → ∃ known, s.workers w = .recorded seg shahash known)
    (failing : s.workers w = .reporting false ∨ s.workers w = .finished false →
      next = .reporting false ∨ next = .finished false) :
    Segments chunkDigest (setWorker base w next) := by
  have busy : ∀ v seg, busyWith ((setWorker base w next).workers v) = some seg →
      busyWith (s.workers v) = some seg := by
    intro v seg some_
    rw [setWorker_workers, workers] at some_
    split at some_
    · next same =>
        rcases keeps with kept | gone
        · rw [same, ← kept]
          exact some_
        · rw [gone] at some_
          cases some_
    · exact some_
  have failed : Failed s → Failed (setWorker base w next) := by
    rintro ⟨v, state⟩
    refine ⟨v, ?_⟩
    rw [setWorker_workers, workers]
    split
    · next same => exact failing (same ▸ state)
    · exact state
  refine ⟨fun v seg some_ => ?_, fun v u seg first second => ?_, ?_, ?_, fun sound seg member => ?_,
    fun v seg shahash state => ?_, ?_, ?_, ?_, ?_, ?_, ?_⟩
  · simpa only [setWorker, handed, completed] using held.busyHanded v seg (busy v seg some_)
  · exact held.busyApart v u seg (busy v seg first) (busy u seg second)
  · simpa only [setWorker, handed, completed] using held.doneHanded
  · simpa only [setWorker, completed] using held.doneDistinct
  · have kept : busyWith next = busyWith (s.workers w) := by
      refine keeps.resolve_right fun gone => sound ⟨w, Or.inl ?_⟩
      rw [setWorker_workers, if_pos rfl, gone]
    simp only [setWorker, handed] at member
    rcases held.accounted (fun fails => sound (failed fails)) seg member with done | ⟨v, busy⟩
    · exact Or.inl (completed.symm ▸ done)
    · refine Or.inr ⟨v, ?_⟩
      rw [setWorker_workers, workers]
      split
      · next same => rw [kept, ← same]; exact busy
      · exact busy
  · have before : (∃ known, s.workers v = .recorded seg shahash known) ∨
        s.workers v = .stored seg shahash := by
      rw [setWorker_workers, workers] at state
      split at state
      · next same => exact Or.inl (same ▸ digests seg shahash state)
      · exact state
    simpa only [Hashed, setWorker, hashes] using held.digests v seg shahash before
  · simpa only [Hashed, setWorker, hashes, completed] using held.doneHashed
  · simpa only [setWorker, hashes, handed] using held.hashes
  · simpa only [setWorker, hashes] using held.keys
  · simpa only [setWorker, assignments, completed] using held.assignments
  · simpa only [setWorker, processed, completed] using held.processed
  · simpa only [setWorker, counted, completed] using held.counted

/-- A worker counts its segment and is free, or fails on it. -/
theorem segments_count (s : Image) (w : Workers) (seg : PosSeg) (shahash : Digest)
    (next : Worker) (held : Segments chunkDigest s) (state : s.workers w = .stored seg shahash)
    (free : next = .idle ∨ next = .reporting false) :
    Segments chunkDigest (setWorker (countChunk s seg shahash) w next) := by
  have none : busyWith next = none := by
    rcases free with same | same <;> rw [same] <;> rfl
  have mine : busyWith (s.workers w) = some seg := by rw [state]; rfl
  obtain ⟨handed, fresh⟩ := held.busyHanded w seg mine
  obtain ⟨named, hashed⟩ := held.digests w seg shahash (Or.inr state)
  have busy : ∀ v other, busyWith ((setWorker (countChunk s seg shahash) w next).workers v) =
      some other → v ≠ w ∧ busyWith (s.workers v) = some other := by
    intro v other some_
    rw [setWorker_workers] at some_
    split at some_
    · rw [none] at some_
      cases some_
    · next apart => exact ⟨apart, some_⟩
  refine ⟨fun v other some_ => ?_, fun v u other first second => ?_, fun other member => ?_, ?_,
    fun sound other member => ?_, fun v other digest now => ?_, fun other member => ?_,
    held.hashes, held.keys, ?_, ?_, ?_⟩
  · obtain ⟨apart, before⟩ := busy v other some_
    obtain ⟨listed, open_⟩ := held.busyHanded v other before
    refine ⟨listed, fun member => ?_⟩
    rcases List.mem_append.mp member with old | new
    · exact open_ old
    · cases List.mem_singleton.mp new
      exact apart (held.busyApart v w seg before mine)
  · exact held.busyApart v u other (busy v other first).2 (busy u other second).2
  · rcases List.mem_append.mp member with old | new
    · exact held.doneHanded other old
    · exact List.mem_singleton.mp new ▸ handed
  · exact List.nodup_append.mpr ⟨held.doneDistinct, List.nodup_singleton seg,
      fun a first b second same => by
        cases List.mem_singleton.mp second
        exact fresh (same ▸ first)⟩
  · have before : ¬ Failed s := by
      rintro ⟨v, fails⟩
      refine sound ⟨v, ?_⟩
      rw [setWorker_workers]
      split
      · next same =>
          rw [same, state] at fails
          rcases fails with fails | fails <;> cases fails
      · exact fails
    rcases held.accounted before other member with done | ⟨v, some_⟩
    · exact Or.inl (List.mem_append_left _ done)
    · by_cases same : v = w
      · rw [same, mine] at some_
        cases some_
        exact Or.inl (List.mem_append_right _ (List.mem_singleton_self _))
      · refine Or.inr ⟨v, ?_⟩
        rw [setWorker_workers, if_neg same]
        exact some_
  · rw [setWorker_workers] at now
    split at now
    · rcases free with same | same <;> rw [same] at now <;>
        rcases now with ⟨_, now⟩ | now <;> cases now
    · exact held.digests v other digest now
  · rcases List.mem_append.mp member with old | new
    · exact held.doneHashed other old
    · exact List.mem_singleton.mp new ▸ hashed
  · simp [setWorker, countChunk, held.assignments, named]
  · simp [setWorker, countChunk, held.processed]
  · simp [setWorker, countChunk, held.counted]

theorem segments_hand (s : Image) (w : Workers) (seg : PosSeg) (flow : Flow s)
    (held : Segments chunkDigest s) (idle : s.workers w = .idle) (holds : s.posfn = .holding seg) :
    Segments chunkDigest (setWorker { s with
      posfn := .waiting (seg.Pos + seg.Data.data.length), handed := s.handed ++ [seg] } w
      (.received seg)) := by
  have fresh : seg ∉ s.handed := by
    intro listed
    have sorted := placed_sorted 0 s.source
    rw [flow.ordered] at sorted
    have before := (List.pairwise_append.mp sorted).2.2 seg listed seg (by simp [pending, holds])
    exact Nat.lt_irrefl _ before
  have busy : ∀ v other, v ≠ w → busyWith (s.workers v) = some other → other ≠ seg := by
    rintro v other _ some_ rfl
    exact fresh (held.busyHanded v other some_).1
  refine ⟨fun v other some_ => ?_, fun v u other first second => ?_,
    fun other member => List.mem_append_left _ (held.doneHanded other member), held.doneDistinct,
    fun sound other member => ?_, fun v other digest now => ?_, held.doneHashed,
    fun entry member => ?_, held.keys, held.assignments, held.processed, held.counted⟩
  · rw [setWorker_workers] at some_
    split at some_
    · cases some_
      exact ⟨List.mem_append_right _ (List.mem_singleton_self _),
        fun done => fresh (held.doneHanded seg done)⟩
    · obtain ⟨listed, open_⟩ := held.busyHanded v other some_
      exact ⟨List.mem_append_left _ listed, open_⟩
  · rw [setWorker_workers] at first second
    split at first
    · next sameV =>
        cases first
        split at second
        · next sameU => rw [sameV, sameU]
        · next apart => exact absurd rfl (busy u _ apart second)
    · next apart =>
        split at second
        · cases second
          exact absurd rfl (busy v _ apart first)
        · exact held.busyApart v u other first second
  · have before : ¬ Failed s := by
      rintro ⟨v, fails⟩
      refine sound ⟨v, ?_⟩
      rw [setWorker_workers]
      split
      · next same =>
          rw [same, idle] at fails
          rcases fails with fails | fails <;> cases fails
      · exact fails
    rcases List.mem_append.mp member with old | new
    · rcases held.accounted before other old with done | ⟨v, some_⟩
      · exact Or.inl done
      · refine Or.inr ⟨v, ?_⟩
        rw [setWorker_workers]
        split
        · next same =>
            rw [same, idle] at some_
            cases some_
        · exact some_
    · refine Or.inr ⟨w, ?_⟩
      rw [setWorker_workers, if_pos rfl, List.mem_singleton.mp new]
      rfl
  · rw [setWorker_workers] at now
    split at now
    · rcases now with ⟨_, now⟩ | now <;> cases now
    · exact held.digests v other digest now
  · obtain ⟨other, listed, same⟩ := held.hashes entry member
    exact ⟨other, List.mem_append_left _ listed, same⟩

theorem segments_record (s : Image) (w : Workers) (seg : PosSeg) (exists_ : Bool)
    (flow : Flow s) (held : Segments chunkDigest s) (state : s.workers w = .received seg) :
    Segments chunkDigest (setWorker (recordHash s seg (chunkDigest seg.Data.data)) w
      (.recorded seg (chunkDigest seg.Data.data) exists_)) := by
  have mine : busyWith (s.workers w) = some seg := by rw [state]; rfl
  have handed := (held.busyHanded w seg mine).1
  have same : ∀ v, busyWith ((setWorker (recordHash s seg (chunkDigest seg.Data.data)) w
      (.recorded seg (chunkDigest seg.Data.data) exists_)).workers v) =
        busyWith (s.workers v) := by
    intro v
    rw [setWorker_workers]
    split
    · next same => rw [same, mine]; rfl
    · rfl
  have keeps : ∀ other ∈ s.handed, Hashed s chunkDigest other →
      Hashed (recordHash s seg (chunkDigest seg.Data.data)) chunkDigest other :=
    fun other member hashed => setHash_keeps s flow seg other handed member hashed
  refine ⟨fun v other some_ => held.busyHanded v other (same v ▸ some_),
    fun v u other first second => held.busyApart v u other (same v ▸ first) (same u ▸ second),
    held.doneHanded, held.doneDistinct, fun sound other member => ?_,
    fun v other digest now => ?_, fun other member => ?_, fun entry member => ?_,
    setHash_keys _ _ _ held.keys, held.assignments, held.processed, held.counted⟩
  · have before : ¬ Failed s := by
      rintro ⟨v, fails⟩
      refine sound ⟨v, ?_⟩
      rw [setWorker_workers]
      split
      · next same =>
          rw [same, state] at fails
          rcases fails with fails | fails <;> cases fails
      · exact fails
    rcases held.accounted before other member with done | ⟨v, some_⟩
    · exact Or.inl done
    · exact Or.inr ⟨v, (same v).trans some_⟩
  · rw [setWorker_workers] at now
    split at now
    · rcases now with ⟨_, now⟩ | now
      · cases now
        exact ⟨rfl, List.mem_cons_self ..⟩
      · cases now
    · obtain ⟨named, hashed⟩ := held.digests v other digest now
      have busy : busyWith (s.workers v) = some other := by
        rcases now with ⟨_, now⟩ | now
        · rw [show s.workers v = _ from now]
          rfl
        · rw [show s.workers v = _ from now]
          rfl
      exact ⟨named, keeps other (held.busyHanded v other busy).1 hashed⟩
  · exact keeps other (held.doneHanded other member) (held.doneHashed other member)
  · rcases setHash_mem _ _ _ entry member with now | old
    · exact ⟨seg, handed, now⟩
    · exact held.hashes entry old

theorem segments_step (s after : Image) (turn : Turn) (flow : Flow s)
    (held : Segments chunkDigest s) (move : Move chunkDigest sha256 total_size s turn after) :
    Segments chunkDigest after := by
  cases move with
  | hand w fails seg idle holds => exact segments_hand s w seg flow held idle holds
  | record w fails seg state => exact segments_record s w seg _ flow held state
  | count w fails seg shahash state fits =>
      exact segments_count s w seg shahash .idle held state (Or.inl rfl)
  | tooMuch w fails seg shahash state ended =>
      exact segments_count s w seg shahash _ held state (Or.inr rfl)
  | drained w fails idle ended =>
      exact segments_worker s s w _ held rfl rfl rfl rfl rfl rfl rfl (Or.inl (by rw [idle]; rfl))
        (by simp) (by simp [idle])
  | reuse w fails seg shahash state =>
      exact segments_worker s _ w _ held rfl rfl rfl rfl rfl rfl rfl (Or.inl (by rw [state]; rfl))
        (by simp [state]) (by simp [state])
  | upload w seg shahash state =>
      exact segments_worker s _ w _ held rfl rfl rfl rfl rfl rfl rfl (Or.inl (by rw [state]; rfl))
        (by simp [state]) (by simp [state])
  | uploadFails w seg shahash state =>
      exact segments_worker s s w _ held rfl rfl rfl rfl rfl rfl rfl (Or.inr rfl)
        (by simp) (by simp)
  | result w fails ok state =>
      exact segments_worker s _ w _ held rfl rfl rfl rfl rfl rfl rfl (Or.inl (by rw [state]; rfl))
        (by simp) (by simp [state])
  | start at_ =>
      have idle := flow.unstarted (flow.creating at_)
      have busy : ∀ w seg, busyWith (s.workers w) = some seg → False := by
        intro w seg some_
        rw [idle w] at some_
        cases some_
      have sound : ¬ Failed s := by
        rintro ⟨w, fails⟩
        rw [idle w] at fails
        rcases fails with fails | fails <;> cases fails
      refine ⟨fun w seg some_ => (by cases some_), fun v w seg some_ => (by cases some_),
        held.doneHanded, held.doneDistinct, fun _ seg member => ?_, fun w seg digest now => ?_,
        held.doneHashed, held.hashes, held.keys, held.assignments, held.processed, held.counted⟩
      · exact (held.accounted sound seg member).imp_right fun ⟨w, some_⟩ => (busy w seg some_).elim
      · rcases now with ⟨_, now⟩ | now <;> cases now
  | _ => exact segments_aside s _ held rfl rfl rfl rfl rfl rfl rfl

/-- The chunk is on the server or on its way there: the previous image's, sent,
in a worker's hands, or lost with a worker that failed. -/
def Stored (known : List Digest) (s : Image) (digest : Digest) : Prop :=
  digest ∈ known ∨ digest ∈ s.uploaded ∨
    (∃ w seg, s.workers w = .recorded seg digest false) ∨ Failed s

structure Server (known : List Digest) (s : Image) : Prop where
  stored : ∀ digest ∈ s.knownChunks, Stored known s digest
  registered : ∀ w seg shahash, ((∃ exists_, s.workers w = .recorded seg shahash exists_) ∨
    s.workers w = .stored seg shahash) → shahash ∈ s.knownChunks
  assigned : ∀ entry ∈ s.assignments, entry.1 ∈ s.knownChunks

theorem server_start (source : List Block) (readFails : Bool) :
    Server known (Image.init source readFails known) :=
  ⟨fun _ listed => Or.inl listed,
    fun _ _ _ state => (by rcases state with ⟨_, state⟩ | state <;> cases state),
    fun _ listed => (by cases listed)⟩

/-- A worker's step that marks no chunk as known: what it sends is sent or lost. -/
theorem server_worker (s base : Image) (w : Workers) (next : Worker) (held : Server known s)
    (workers : base.workers = s.workers) (knownChunks : base.knownChunks = s.knownChunks)
    (assignments : ∀ entry ∈ base.assignments, entry ∈ s.assignments ∨
      ∃ seg, s.workers w = .stored seg entry.1)
    (uploaded : ∀ digest ∈ s.uploaded, digest ∈ base.uploaded)
    (settles : ∀ seg digest, s.workers w = .recorded seg digest false →
      digest ∈ base.uploaded ∨ next = .reporting false)
    (registers : ∀ seg shahash, ((∃ exists_, next = .recorded seg shahash exists_) ∨
      next = .stored seg shahash) → shahash ∈ s.knownChunks)
    (failing : s.workers w = .reporting false ∨ s.workers w = .finished false →
      next = .reporting false ∨ next = .finished false) :
    Server known (setWorker base w next) := by
  have failed : Failed s → Failed (setWorker base w next) := by
    rintro ⟨v, state⟩
    refine ⟨v, ?_⟩
    rw [setWorker_workers, workers]
    split
    · next same => exact failing (same ▸ state)
    · exact state
  refine ⟨fun digest listed => ?_, fun v seg shahash state => ?_, fun entry listed => ?_⟩
  · simp only [setWorker, knownChunks] at listed
    rcases held.stored digest listed with old | sent | ⟨v, seg, sending⟩ | lost
    · exact Or.inl old
    · exact Or.inr (Or.inl (uploaded digest sent))
    · by_cases same : v = w
      · rw [same] at sending
        rcases settles seg digest sending with sent | gone
        · exact Or.inr (Or.inl sent)
        · refine Or.inr (Or.inr (Or.inr ⟨w, Or.inl ?_⟩))
          rw [setWorker_workers, if_pos rfl, gone]
      · refine Or.inr (Or.inr (Or.inl ⟨v, seg, ?_⟩))
        rw [setWorker_workers, if_neg same, workers]
        exact sending
    · exact Or.inr (Or.inr (Or.inr (failed lost)))
  · rw [setWorker_workers, workers] at state
    simp only [setWorker, knownChunks]
    split at state
    · exact registers seg shahash state
    · exact held.registered v seg shahash state
  · simp only [setWorker, knownChunks]
    rcases assignments entry listed with old | ⟨seg, stored⟩
    · exact held.assigned entry old
    · exact held.registered w seg entry.1 (Or.inr stored)

theorem server_record (s : Image) (w : Workers) (seg : PosSeg) (shahash : Digest)
    (held : Server known s) (state : s.workers w = .received seg) :
    Server known (setWorker (recordHash s seg shahash) w
      (.recorded seg shahash (decide (shahash ∈ s.knownChunks)))) := by
  have grown : ∀ digest ∈ s.knownChunks, digest ∈ (recordHash s seg shahash).knownChunks := by
    intro digest listed
    simp only [recordHash]
    split
    · exact listed
    · exact List.mem_cons_of_mem _ listed
  have own : shahash ∈ (recordHash s seg shahash).knownChunks := by
    simp only [recordHash]
    split
    · next listed => simpa using listed
    · exact List.mem_cons_self ..
  refine ⟨fun digest listed => ?_, fun v other digest now => ?_,
    fun entry listed => grown entry.1 (held.assigned entry listed)⟩
  · have before : digest ∈ s.knownChunks ∨ (digest = shahash ∧ shahash ∉ s.knownChunks) := by
      simp only [setWorker, recordHash] at listed
      split at listed
      · exact Or.inl listed
      · next fresh =>
          rcases List.mem_cons.mp listed with same | old
          · exact Or.inr ⟨same, by simpa using fresh⟩
          · exact Or.inl old
    rcases before with old | ⟨same, fresh⟩
    · rcases held.stored digest old with known_ | sent | ⟨v, other, sending⟩ | ⟨v, fails⟩
      · exact Or.inl known_
      · exact Or.inr (Or.inl sent)
      · refine Or.inr (Or.inr (Or.inl ⟨v, other, ?_⟩))
        rw [setWorker_workers, if_neg]
        · exact sending
        · rintro rfl
          simp [state] at sending
      · refine Or.inr (Or.inr (Or.inr ⟨v, ?_⟩))
        rw [setWorker_workers, if_neg]
        · exact fails
        · rintro rfl
          simp [state] at fails
    · refine Or.inr (Or.inr (Or.inl ⟨w, seg, ?_⟩))
      rw [setWorker_workers, if_pos rfl, same]
      simp [fresh]
  · rw [setWorker_workers] at now
    split at now
    · rcases now with ⟨_, now⟩ | now
      · cases now
        exact own
      · cases now
    · exact grown digest (held.registered v other digest now)

/-- Steps that touch no worker and none of the server's data. -/
theorem server_aside (s after : Image) (held : Server known s)
    (workers : after.workers = s.workers) (knownChunks : after.knownChunks = s.knownChunks)
    (uploaded : after.uploaded = s.uploaded) (assignments : after.assignments = s.assignments) :
    Server known after where
  stored := by
    simp only [Stored, Failed, knownChunks, uploaded, workers]
    exact held.stored
  registered := by rw [workers, knownChunks]; exact held.registered
  assigned := by rw [assignments, knownChunks]; exact held.assigned

theorem server_step (s after : Image) (turn : Turn) (flow : Flow s) (held : Server known s)
    (move : Move chunkDigest sha256 total_size s turn after) : Server known after := by
  cases move with
  | record w fails seg state => exact server_record s w seg _ held state
  | hand w fails seg idle holds =>
      exact server_worker s _ w _ held rfl rfl (fun _ => Or.inl) (fun _ => id) (by simp [idle])
        (by simp) (by simp [idle])
  | drained w fails idle ended =>
      exact server_worker s s w _ held rfl rfl (fun _ => Or.inl) (fun _ => id) (by simp [idle])
        (by simp) (by simp [idle])
  | reuse w fails seg shahash state =>
      refine server_worker s _ w _ held rfl rfl (fun _ => Or.inl) (fun _ => id) (by simp [state])
        (fun other digest now => ?_) (by simp [state])
      rcases now with ⟨_, now⟩ | now <;> cases now
      exact held.registered w seg shahash (Or.inl ⟨true, state⟩)
  | upload w seg shahash state =>
      refine server_worker s _ w _ held rfl rfl (fun _ => Or.inl)
        (fun _ => List.mem_cons_of_mem _) (fun other digest sending => ?_)
        (fun other digest now => ?_) (by simp [state])
      · rw [state] at sending
        cases sending
        exact Or.inl (List.mem_cons_self ..)
      · rcases now with ⟨_, now⟩ | now <;> cases now
        exact held.registered w seg shahash (Or.inl ⟨false, state⟩)
  | uploadFails w seg shahash state =>
      exact server_worker s s w _ held rfl rfl (fun _ => Or.inl) (fun _ => id)
        (fun _ _ _ => Or.inr rfl) (by simp) (by simp)
  | count w fails seg shahash state fits =>
      refine server_worker s _ w _ held rfl rfl (fun entry listed => ?_) (fun _ => id)
        (by simp [state]) (by simp) (by simp [state])
      rcases List.mem_append.mp listed with old | new
      · exact Or.inl old
      · rw [List.mem_singleton.mp new]
        exact Or.inr ⟨seg, state⟩
  | tooMuch w fails seg shahash state ended =>
      refine server_worker s _ w _ held rfl rfl (fun entry listed => ?_) (fun _ => id)
        (by simp [state]) (by simp) (by simp [state])
      rcases List.mem_append.mp listed with old | new
      · exact Or.inl old
      · rw [List.mem_singleton.mp new]
        exact Or.inr ⟨seg, state⟩
  | result w fails ok state =>
      exact server_worker s _ w _ held rfl rfl (fun _ => Or.inl) (fun _ => id) (by simp [state])
        (by simp) (by simp [state])
  | start at_ =>
      have idle := flow.unstarted (flow.creating at_)
      refine ⟨fun digest listed => ?_, fun _ _ _ now => ?_, held.assigned⟩
      · rcases held.stored digest listed with old | sent | ⟨w, seg, sending⟩ | ⟨w, fails⟩
        · exact Or.inl old
        · exact Or.inr (Or.inl sent)
        · simp [idle w] at sending
        · simp [idle w] at fails
      · rcases now with ⟨_, now⟩ | now <;> cases now
  | _ => exact server_aside s _ held rfl rfl rfl rfl

/-- What uploadWorker has sent of the index. -/
def Assigned (sha256 : Bytes → Digest) (s : Image) : Prop :=
  match s.main with
  | .assigning k => s.assigned = s.assignments.take k
  | .closing index => s.assigned = s.assignments ∧ index = closingIndex sha256 s
  | .closed index => s.assigned = s.assignments ∧ index = closingIndex sha256 s
  | .returned => True
  | _ => s.assigned = []

theorem assigned_aside (s after : Image) (held : Assigned sha256 s) (main : after.main = s.main)
    (assigned : after.assigned = s.assigned)
    (index : Sealing s.main → after.assignments = s.assignments ∧
      closingIndex sha256 after = closingIndex sha256 s) : Assigned sha256 after := by
  unfold Assigned at held ⊢
  rw [main, assigned]
  revert held index
  cases s.main <;> intro held index
  · exact held
  · exact held
  · rw [(index trivial).1]
    exact held
  · rw [(index trivial).1, (index trivial).2]
    exact held
  · rw [(index trivial).1, (index trivial).2]
    exact held
  · trivial

theorem assigned_step (s after : Image) (turn : Turn) (results : Results s)
    (held : Assigned sha256 s) (move : Move chunkDigest sha256 total_size s turn after) :
    Assigned sha256 after := by
  -- Once the index is being sent no worker moves, so its data stands still.
  have still : ∀ w, (∃ ok, s.workers w = .finished ok) ∨ ¬ Sealing s.main := by
    intro w
    by_cases sealing : Sealing s.main
    · exact Or.inl ⟨true, (results.sealing sealing).1 w⟩
    · exact Or.inr sealing
  have working : ∀ w, (∀ ok, s.workers w ≠ .finished ok) → ¬ Sealing s.main := by
    intro w busy
    rcases still w with ⟨ok, finished⟩ | open_
    · exact absurd finished (busy ok)
    · exact open_
  cases move with
  | report at_ => exact assigned_aside s _ held rfl rfl fun _ => ⟨rfl, rfl⟩
  | pass block rest pos sends waits => exact assigned_aside s _ held rfl rfl fun _ => ⟨rfl, rfl⟩
  | closeCh at_ => exact assigned_aside s _ held rfl rfl fun _ => ⟨rfl, rfl⟩
  | closeCh2 pos waits ended => exact assigned_aside s _ held rfl rfl fun _ => ⟨rfl, rfl⟩
  | hand w fails seg idle holds =>
      exact assigned_aside s _ held rfl rfl fun sealing =>
        absurd sealing (working w (by simp [idle]))
  | drained w fails idle ended =>
      exact assigned_aside s _ held rfl rfl fun sealing =>
        absurd sealing (working w (by simp [idle]))
  | record w fails seg state =>
      exact assigned_aside s _ held rfl rfl fun sealing =>
        absurd sealing (working w (by simp [state]))
  | reuse w fails seg shahash state =>
      exact assigned_aside s _ held rfl rfl fun sealing =>
        absurd sealing (working w (by simp [state]))
  | upload w seg shahash state =>
      exact assigned_aside s _ held rfl rfl fun sealing =>
        absurd sealing (working w (by simp [state]))
  | uploadFails w seg shahash state =>
      exact assigned_aside s _ held rfl rfl fun sealing =>
        absurd sealing (working w (by simp [state]))
  | count w fails seg shahash state fits =>
      exact assigned_aside s _ held rfl rfl fun sealing =>
        absurd sealing (working w (by simp [state]))
  | tooMuch w fails seg shahash state ended =>
      exact assigned_aside s _ held rfl rfl fun sealing =>
        absurd sealing (working w (by simp [state]))
  | result w fails ok state =>
      exact assigned_aside s _ held rfl rfl fun sealing =>
        absurd sealing (working w (by simp [state]))
  | createFails at_ => trivial
  | start at_ =>
      simp only [Assigned, at_] at held
      exact held
  | readFailed fails at_ all failed => trivial
  | complete fails at_ all clean =>
      simp only [Assigned, at_] at held
      simp only [Assigned, List.take_zero]
      exact held
  | collect fails w rest at_ more first =>
      exact assigned_aside s _ held rfl rfl fun sealing => by simp [at_, Sealing] at sealing
  | workerFailed fails w rest at_ first => trivial
  | assign k at_ more =>
      simp only [Assigned, at_] at held
      simp only [Assigned]
      rw [held, ← List.take_add]
  | assignFails k at_ => trivial
  | close fails k at_ all =>
      simp only [Assigned, at_, List.take_of_length_le all] at held
      exact ⟨held, rfl⟩
  | closeFails index at_ => trivial
  | closed index at_ =>
      simp only [Assigned, at_] at held
      exact held

structure Sound (chunkDigest sha256 : Bytes → Digest) (known : List Digest) (s : Image) :
    Prop where
  flow : Flow s
  results : Results s
  segments : Segments chunkDigest s
  server : Server known s
  assigned : Assigned sha256 s

theorem sound_invariant :
    Invariant (imageSystem chunkDigest sha256 total_size known)
      (Sound chunkDigest sha256 known) where
  start := by
    rintro s ⟨source, readFails, rfl⟩
    exact ⟨flow_start source readFails, results_start source readFails,
      segments_start source readFails, server_start source readFails, rfl⟩
  step s turn after held taken := by
    have move : Move chunkDigest sha256 total_size s turn after :=
      imageStep_move s after turn taken
    exact ⟨flow_step s after turn held.flow move,
      results_step s after turn held.flow held.results move,
      segments_step s after turn held.flow held.segments move,
      server_step s after turn held.flow held.server move,
      assigned_step s after turn held.results held.assigned move⟩

end ProxmoxBackup.ImageUploadFlow
