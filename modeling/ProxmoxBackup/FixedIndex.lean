import ProxmoxBackup.ImageUploadFlow
import Mathlib.Algebra.BigOperators.Fin

/-! What a closed fixed index says about the image, and when every goroutine of
the upload stops. -/

namespace ProxmoxBackup.FixedIndex

open TransitionSystem DynamicChunks ImageUpload ImageUploadFlow

variable {chunkDigest sha256 : Bytes → Digest} {total_size : Nat} {known : List Digest}

/-- CloseFixedIndex has been called with `index`. -/
def Closes (s : Image) (index : ImageUpload.FixedIndex) : Prop :=
  s.main = .closing index ∨ s.main = .closed index

/-- The index closed over an image: the reader came to the end of it, every
block's digest stands at the block's position, and the server has every chunk. -/
structure SealedImage (chunkDigest sha256 : Bytes → Digest) (known : List Digest) (s : Image)
    (index : ImageUpload.FixedIndex) : Prop where
  readWhole : s.reader = .closed ∧ s.readFails = false
  assigned : s.assigned.Perm
    ((placed 0 s.source).map fun seg => (chunkDigest seg.Data.data, seg.Pos))
  csum : index.csum = sha256 (s.source.flatMap fun block => chunkDigest block.data)
  size : index.size = (s.source.map fun block => block.data.length).sum
  chunkcount : index.chunkcount = s.source.length
  stored : ∀ entry ∈ s.assigned, entry.1 ∈ known ∨ entry.1 ∈ s.uploaded

theorem placed_data {α : Type} (value : Block → α) (pos : Nat) (blocks : List Block) :
    (placed pos blocks).map (fun seg => value seg.Data) = blocks.map value := by
  induction blocks generalizing pos with
  | nil => rfl
  | cons block rest ih => simp [placed, ih]

/-- Once all workers are done every block was handed out and counted. -/
theorem completed_perm (s : Image) (sound : Sound chunkDigest sha256 known s)
    (finished : ∀ w, s.workers w = .finished true) :
    s.completed.Perm (placed 0 s.source) ∧ s.posfn = .closed := by
  have ended : s.posfn = .closed :=
    sound.flow.drained ⟨0, by decide⟩ (Or.inr (finished _))
  have handed : placed 0 s.source = s.handed := by
    have ordered := sound.flow.ordered
    rwa [pending, ended, List.append_nil] at ordered
  have clean : ¬ Failed s := by
    rintro ⟨w, fails⟩
    simp [finished w] at fails
  have distinct : (placed 0 s.source).Nodup :=
    (placed_sorted 0 s.source).imp fun ordered same => by
      rw [same] at ordered
      exact Nat.lt_irrefl _ ordered
  refine ⟨(List.perm_ext_iff_of_nodup sound.segments.doneDistinct distinct).mpr fun seg => ?_,
    ended⟩
  rw [handed]
  refine ⟨sound.segments.doneHanded seg, fun member => ?_⟩
  rcases sound.segments.accounted clean seg member with done | ⟨w, busy⟩
  · exact done
  · simp [finished w, busyWith] at busy

/-- The sorted index data is the blocks' digests in the order of the blocks. -/
theorem checksum_blocks (s : Image) (sound : Sound chunkDigest sha256 known s)
    (completed : s.completed.Perm (placed 0 s.source)) (ended : s.posfn = .closed) :
    checksumInput s.index_hash_data = s.source.flatMap fun block => chunkDigest block.data := by
  let entry := fun seg : PosSeg => (seg.Pos, chunkDigest seg.Data.data)
  have handed : placed 0 s.source = s.handed := by
    have ordered := sound.flow.ordered
    rwa [pending, ended, List.append_nil] at ordered
  have sorted : ((placed 0 s.source).map entry).Pairwise fun a b => a.1 < b.1 :=
    List.pairwise_map.mpr (placed_sorted 0 s.source)
  have distinct : ((placed 0 s.source).map entry).Nodup :=
    sorted.imp fun ordered same => by
      rw [same] at ordered
      exact Nat.lt_irrefl _ ordered
  have keys : s.index_hash_data.Nodup := List.Nodup.of_map Prod.fst sound.segments.keys
  have perm : s.index_hash_data.Perm ((placed 0 s.source).map entry) := by
    refine (List.perm_ext_iff_of_nodup keys distinct).mpr fun item => ⟨fun member => ?_, fun member => ?_⟩
    · obtain ⟨seg, listed, same⟩ := sound.segments.hashes item member
      exact List.mem_map.mpr ⟨seg, handed ▸ listed, same.symm⟩
    · obtain ⟨seg, listed, same⟩ := List.mem_map.mp member
      rw [← same]
      exact sound.segments.doneHashed seg (completed.mem_iff.mpr listed)
  have merged : s.index_hash_data.mergeSort (fun a b => a.1 ≤ b.1) =
      (placed 0 s.source).map entry := by
    have ordered : (s.index_hash_data.mergeSort fun a b => a.1 ≤ b.1).Pairwise
        fun a b => decide (a.1 ≤ b.1) = true :=
      List.pairwise_mergeSort
        (by simp only [decide_eq_true_eq]; exact fun _ _ _ => le_trans)
        (by simp only [Bool.or_eq_true, decide_eq_true_eq]; exact fun _ _ => le_total _ _)
        s.index_hash_data
    simp only [decide_eq_true_eq] at ordered
    have same := (List.mergeSort_perm s.index_hash_data fun a b => a.1 ≤ b.1).trans perm
    refine same.eq_of_pairwise (fun a b first second up down => ?_) ordered
      (sorted.imp Nat.le_of_lt)
    exact List.inj_on_of_nodup_map sound.segments.keys (List.mem_mergeSort.mp first)
      (perm.mem_iff.mpr second) (le_antisymm up down)
  rw [checksumInput, merged, List.flatMap_def, List.map_map, List.flatMap_def,
    ← placed_data (fun block => chunkDigest block.data) 0 s.source]
  rfl

theorem closed_index_sealed (s : Image) (index : ImageUpload.FixedIndex)
    (sound : Sound chunkDigest sha256 known s) (closes : Closes s index) :
    SealedImage chunkDigest sha256 known s index := by
  have sealing : Sealing s.main := by
    rcases closes with now | done
    · rw [now]; trivial
    · rw [done]; trivial
  obtain ⟨assigned, index_eq⟩ : s.assigned = s.assignments ∧ index = closingIndex sha256 s := by
    have held := sound.assigned
    unfold Assigned at held
    rcases closes with now | done
    · rw [now] at held; exact held
    · rw [done] at held; exact held
  obtain ⟨finished, clean⟩ := sound.results.sealing sealing
  obtain ⟨completed, ended⟩ := completed_perm s sound finished
  refine ⟨⟨sound.flow.posClosed ended, clean⟩, ?_, ?_, ?_, ?_, ?_⟩
  · rw [assigned, sound.segments.assignments]
    exact completed.map _
  · rw [index_eq]
    exact congrArg sha256 (checksum_blocks s sound completed ended)
  · rw [index_eq, ← placed_data (fun block => block.data.length) 0 s.source]
    exact sound.segments.processed.trans (completed.map _).sum_eq
  · rw [index_eq, ← List.length_map (f := fun block : Block => block.data),
      ← placed_data (fun block => block.data) 0 s.source, List.length_map, ← completed.length_eq]
    exact sound.segments.counted
  · intro entry listed
    rw [assigned] at listed
    rcases sound.server.stored entry.1 (sound.server.assigned entry listed) with
      old | sent | ⟨w, seg, sending⟩ | ⟨w, fails⟩
    · exact Or.inl old
    · exact Or.inr sent
    · simp [finished w] at sending
    · simp [finished w] at fails

/-- Every goroutine is over: none is left at a channel. -/
structure AllStopped (s : Image) : Prop where
  reader : s.reader = .closed
  posfn : s.posfn = .closed ∨ s.posfn = .notStarted
  workers : ∀ w, (∃ ok, s.workers w = .finished ok) ∨ s.workers w = .notStarted
  main : s.main = .returned ∨ ∃ index, s.main = .closed index

/-- The worker will come back to ch2. -/
def Receiving : Worker → Prop
  | .idle => True
  | .received _ => True
  | .recorded _ _ _ => True
  | .stored _ _ => True
  | _ => False

/-- The step on which a worker leaves its loop with an error. -/
def GivesUp (total_size : Nat) (s : Image) (w : Workers) (fails : Bool) : Prop :=
  (∃ seg shahash, s.workers w = .recorded seg shahash false ∧ fails = true) ∨
    ∃ seg shahash, s.workers w = .stored seg shahash ∧
      s.processed_size + seg.Data.data.length > total_size

/-- The condition on a step: CreateFixedIndex does not fail, and the last worker
left does not give up, while a block is still to be handed over. -/
def KeepsReceiver (total_size : Nat) (s : Image) : Turn → Prop
  | .main fails => s.main = .creating → fails = true → pending s = []
  | .worker w fails => GivesUp total_size s w fails →
      pending s = [] ∨ ∃ v, v ≠ w ∧ Receiving (s.workers v)
  | _ => True

/-- Blocks are left and nobody will receive them. -/
structure Stranded (s : Image) : Prop where
  left : pending s ≠ []
  begun : s.main ≠ .creating
  nobody : ∀ w, ¬ Receiving (s.workers w)

/-- Only a worker waiting at ch2 takes a block off what is left. -/
theorem pending_step (s after : Image) (turn : Turn) (flow : Flow s)
    (move : Move chunkDigest sha256 total_size s turn after) :
    pending after = pending s ∨
      (∃ w, s.workers w = .idle) ∧ ∃ seg, pending s = seg :: pending after := by
  cases move with
  | report at_ => exact Or.inl (by simp [pending, at_, unsent])
  | pass block rest pos sends waits =>
      exact Or.inl (by simp [pending, sends, waits, unsent, placed])
  | closeCh at_ => exact Or.inl (by simp [pending, at_, unsent])
  | closeCh2 pos waits ended => exact Or.inl (by simp [pending, waits, ended, unsent, placed])
  | hand w fails seg idle holds =>
      exact Or.inr ⟨⟨w, idle⟩, seg, by simp [pending, setWorker, holds]⟩
  | start at_ => exact Or.inl (by simp [pending, flow.creating at_])
  | _ => exact Or.inl rfl

/-- A worker that receives stays one, unless it gives up or ch2 is closed. -/
theorem receiving_step (s after : Image) (turn : Turn) (v : Workers)
    (move : Move chunkDigest sha256 total_size s turn after) (receives : Receiving (s.workers v)) :
    Receiving (after.workers v) ∨ pending s = [] ∨
      ∃ fails, turn = .worker v fails ∧ GivesUp total_size s v fails := by
  have other : ∀ (base : Image) (w : Workers) (next : Worker), base.workers = s.workers →
      (v = w → Receiving next) → Receiving ((setWorker base w next).workers v) := by
    intro base w next workers mine
    rw [setWorker_workers, workers]
    split
    · next same => exact mine same
    · exact receives
  cases move with
  | hand w fails seg idle holds => exact Or.inl (other _ w _ rfl fun _ => trivial)
  | drained w fails idle ended => exact Or.inr (Or.inl (by simp [pending, ended]))
  | record w fails seg state => exact Or.inl (other _ w _ rfl fun _ => trivial)
  | reuse w fails seg shahash state => exact Or.inl (other _ w _ rfl fun _ => trivial)
  | upload w seg shahash state => exact Or.inl (other _ w _ rfl fun _ => trivial)
  | count w fails seg shahash state fits => exact Or.inl (other _ w _ rfl fun _ => trivial)
  | uploadFails w seg shahash state =>
      by_cases same : v = w
      · exact Or.inr (Or.inr ⟨true, by rw [same], Or.inl ⟨seg, shahash, same ▸ state, rfl⟩⟩)
      · exact Or.inl (other _ w _ rfl fun mine => absurd mine same)
  | tooMuch w fails seg shahash state ended =>
      by_cases same : v = w
      · exact Or.inr (Or.inr ⟨fails, by rw [same], Or.inr ⟨seg, shahash, same ▸ state, ended⟩⟩)
      · exact Or.inl (other _ w _ rfl fun mine => absurd mine same)
  | result w fails ok state =>
      refine Or.inl (other _ w _ rfl fun same => ?_)
      rw [same, state] at receives
      exact receives.elim
  | start at_ => exact Or.inl trivial
  | _ => exact Or.inl receives

/-- No worker starts receiving once uploadWorker is past the creation. -/
theorem receiving_before (s after : Image) (turn : Turn) (v : Workers)
    (move : Move chunkDigest sha256 total_size s turn after) (begun : s.main ≠ .creating)
    (receives : Receiving (after.workers v)) : Receiving (s.workers v) := by
  have other : ∀ (base : Image) (w : Workers) (next : Worker), base.workers = s.workers →
      (Receiving next → Receiving (s.workers w)) →
      Receiving ((setWorker base w next).workers v) → Receiving (s.workers v) := by
    intro base w next workers mine now
    rw [setWorker_workers, workers] at now
    split at now
    · next same => exact same ▸ mine now
    · exact now
  cases move with
  | hand w fails seg idle holds => exact other _ w _ rfl (fun _ => idle ▸ trivial) receives
  | drained w fails idle ended => exact other _ w _ rfl (fun _ => idle ▸ trivial) receives
  | record w fails seg state => exact other _ w _ rfl (fun _ => state ▸ trivial) receives
  | reuse w fails seg shahash state => exact other _ w _ rfl (fun _ => state ▸ trivial) receives
  | upload w seg shahash state => exact other _ w _ rfl (fun _ => state ▸ trivial) receives
  | uploadFails w seg shahash state =>
      exact other _ w _ rfl (fun _ => state ▸ trivial) receives
  | count w fails seg shahash state fits =>
      exact other _ w _ rfl (fun _ => state ▸ trivial) receives
  | tooMuch w fails seg shahash state ended =>
      exact other _ w _ rfl (fun _ => state ▸ trivial) receives
  | result w fails ok state => exact other _ w (.finished ok) rfl (fun done => False.elim done) receives
  | start at_ => exact absurd at_ begun
  | _ => exact receives

theorem begun_step (s after : Image) (turn : Turn)
    (move : Move chunkDigest sha256 total_size s turn after) (begun : s.main ≠ .creating) :
    after.main ≠ .creating := by
  cases move <;> first | exact begun | exact Main.noConfusion

theorem stranded_step (s after : Image) (turn : Turn) (flow : Flow s) (held : Stranded s)
    (move : Move chunkDigest sha256 total_size s turn after) : Stranded after := by
  refine ⟨?_, begun_step s after turn move held.begun, fun v receives =>
    held.nobody v (receiving_before s after turn v move held.begun receives)⟩
  rcases pending_step s after turn flow move with same | ⟨⟨w, idle⟩, _⟩
  · rw [same]
    exact held.left
  · exact absurd (idle ▸ trivial) (held.nobody w)

theorem gives_up_state (s : Image) (w : Workers) (fails : Bool)
    (gives : GivesUp total_size s w fails) :
    ∃ seg shahash, s.workers w = .recorded seg shahash false ∨ s.workers w = .stored seg shahash := by
  rcases gives with ⟨seg, shahash, state, _⟩ | ⟨seg, shahash, state, _⟩
  · exact ⟨seg, shahash, Or.inl state⟩
  · exact ⟨seg, shahash, Or.inr state⟩

theorem gives_up_stranded (s base : Image) (w : Workers) (fails : Bool) (flow : Flow s)
    (workers : base.workers = s.workers) (main : base.main = s.main)
    (same : pending (setWorker base w (.reporting false)) = pending s)
    (gives : GivesUp total_size s w fails)
    (breaks : ¬ KeepsReceiver total_size s (.worker w fails)) :
    Stranded (setWorker base w (.reporting false)) := by
  simp only [KeepsReceiver, not_forall, not_or, not_exists, not_and] at breaks
  obtain ⟨_, left, alone⟩ := breaks
  refine ⟨same ▸ left, fun at_ => ?_, fun v => ?_⟩
  · have creating : s.main = .creating := main ▸ at_
    have none := flow.unstarted (flow.creating creating) w
    obtain ⟨seg, shahash, state⟩ := gives_up_state s w fails gives
    simp [none] at state
  · rw [setWorker_workers, workers]
    split
    · exact id
    · next apart => exact alone v apart

/-- A step that breaks the condition strands what is left. -/
theorem breaks_stranded (s after : Image) (turn : Turn) (flow : Flow s)
    (move : Move chunkDigest sha256 total_size s turn after)
    (breaks : ¬ KeepsReceiver total_size s turn) : Stranded after := by
  have later : ∀ fails, s.main ≠ .creating → KeepsReceiver total_size s (.main fails) :=
    fun fails begun at_ => absurd at_ begun
  have quiet : ∀ w fails, (∀ seg shahash, s.workers w ≠ .recorded seg shahash false ∧
      s.workers w ≠ .stored seg shahash) → KeepsReceiver total_size s (.worker w fails) := by
    intro w fails other gives
    obtain ⟨seg, shahash, state | state⟩ := gives_up_state s w fails gives
    · exact absurd state (other seg shahash).1
    · exact absurd state (other seg shahash).2
  cases move with
  | report at_ => exact absurd trivial breaks
  | pass block rest pos sends waits => exact absurd trivial breaks
  | closeCh at_ => exact absurd trivial breaks
  | closeCh2 pos waits ended => exact absurd trivial breaks
  | createFails at_ =>
      simp only [KeepsReceiver, not_forall] at breaks
      obtain ⟨_, _, left⟩ := breaks
      refine ⟨left, Main.noConfusion, fun w receives => ?_⟩
      have none : s.workers w = .notStarted := flow.unstarted (flow.creating at_) w
      simp [none, Receiving] at receives
  | uploadFails w seg shahash state =>
      exact gives_up_stranded s s w true flow rfl rfl rfl (Or.inl ⟨seg, shahash, state, rfl⟩) breaks
  | tooMuch w fails seg shahash state ended =>
      exact gives_up_stranded s _ w fails flow rfl rfl rfl (Or.inr ⟨seg, shahash, state, ended⟩)
        breaks
  | upload w seg shahash state =>
      refine absurd (fun gives => ?_) breaks
      rcases gives with ⟨_, _, _, failed⟩ | ⟨_, _, stored, _⟩
      · cases failed
      · simp [state] at stored
  | count w fails seg shahash state fits =>
      refine absurd (fun gives => ?_) breaks
      rcases gives with ⟨_, _, recorded, _⟩ | ⟨_, _, stored, ended⟩
      · simp [state] at recorded
      · rw [state] at stored
        cases stored
        omega
  | hand w fails seg idle holds => exact absurd (quiet w fails (by simp [idle])) breaks
  | drained w fails idle ended => exact absurd (quiet w fails (by simp [idle])) breaks
  | record w fails seg state => exact absurd (quiet w fails (by simp [state])) breaks
  | reuse w fails seg shahash state => exact absurd (quiet w fails (by simp [state])) breaks
  | result w fails ok state => exact absurd (quiet w fails (by simp [state])) breaks
  | start at_ => exact absurd (fun _ failed => Bool.noConfusion failed) breaks
  | readFailed fails at_ all failed => exact absurd (later fails (by simp [at_])) breaks
  | complete fails at_ all clean => exact absurd (later fails (by simp [at_])) breaks
  | collect fails w rest at_ more first => exact absurd (later fails (by simp [at_])) breaks
  | workerFailed fails w rest at_ first => exact absurd (later fails (by simp [at_])) breaks
  | assign k at_ more => exact absurd (later false (by simp [at_])) breaks
  | assignFails k at_ => exact absurd (later true (by simp [at_])) breaks
  | close fails k at_ all => exact absurd (later fails (by simp [at_])) breaks
  | closeFails index at_ => exact absurd (later true (by simp [at_])) breaks
  | closed index at_ => exact absurd (later false (by simp [at_])) breaks

/-- Somebody will take every block that is left. -/
def Supplied (s : Image) : Prop :=
  s.main = .creating ∨ pending s = [] ∨ ∃ w, Receiving (s.workers w)

theorem supplied_step (s after : Image) (turn : Turn) (flow : Flow s) (held : Supplied s)
    (move : Move chunkDigest sha256 total_size s turn after)
    (keeps : KeepsReceiver total_size s turn) : Supplied after := by
  have drained : pending s = [] → Supplied after := by
    intro none
    rcases pending_step s after turn flow move with same | ⟨_, seg, more⟩
    · exact Or.inr (Or.inl (same.trans none))
    · simp [none] at more
  rcases held with creating | none | ⟨w, receives⟩
  · by_cases still : after.main = .creating
    · exact Or.inl still
    · cases move with
      | start at_ => exact Or.inr (Or.inr ⟨⟨0, by decide⟩, trivial⟩)
      | createFails at_ => exact drained (keeps creating rfl)
      | readFailed fails at_ => simp [creating] at at_
      | complete fails at_ => simp [creating] at at_
      | workerFailed fails _ _ at_ => simp [creating] at at_
      | assign _ at_ => simp [creating] at at_
      | assignFails _ at_ => simp [creating] at at_
      | close _ _ at_ => simp [creating] at at_
      | closeFails _ at_ => simp [creating] at at_
      | closed _ at_ => simp [creating] at at_
      | _ => exact absurd creating still
  · exact drained none
  · rcases receiving_step s after turn w move receives with still | none | ⟨fails, same, gives⟩
    · exact Or.inr (Or.inr ⟨w, still⟩)
    · exact drained none
    · subst same
      rcases keeps gives with none | ⟨v, apart, other⟩
      · exact drained none
      · rcases receiving_step s after _ v move other with still | none | ⟨_, turn, _⟩
        · exact Or.inr (Or.inr ⟨v, still⟩)
        · exact drained none
        · cases turn
          exact absurd rfl apart

/-- A stuck state: only the reader and the position goroutine can be left, each
with a block nobody takes. -/
structure Halted (s : Image) : Prop where
  reader : s.reader = .closed ∨ ∃ block rest, s.reader = .reading (block :: rest)
  waiting : ∀ pos, s.posfn ≠ .waiting pos
  workers : ∀ w, (∃ ok, s.workers w = .finished ok) ∨ s.workers w = .notStarted
  main : s.main = .returned ∨ ∃ index, s.main = .closed index

theorem stuck_none (s : Image)
    (stuck : Stuck (imageSystem chunkDigest sha256 total_size known) s) (turn : Turn) :
    imageStep chunkDigest sha256 total_size s turn = none := by
  cases step : imageStep chunkDigest sha256 total_size s turn with
  | none => rfl
  | some after => exact absurd step (stuck turn after)

theorem stuck_reader (s : Image)
    (stuck : Stuck (imageSystem chunkDigest sha256 total_size known) s) :
    (s.reader = .closed ∨ ∃ block rest, s.reader = .reading (block :: rest)) ∧
      ∀ pos, s.posfn ≠ .waiting pos := by
  have readerNone := stuck_none s stuck .reader
  have posfnNone := stuck_none s stuck .posfn
  have reader : s.reader = .closed ∨ ∃ block rest, s.reader = .reading (block :: rest) := by
    cases state : s.reader with
    | closed => exact Or.inl rfl
    | reported => simp [imageStep, readerStep, state] at readerNone
    | reading rest =>
        cases rest with
        | nil => simp [imageStep, readerStep, state] at readerNone
        | cons block rest => exact Or.inr ⟨block, rest, rfl⟩
  refine ⟨reader, fun pos waits => ?_⟩
  rcases reader with ended | ⟨block, rest, sends⟩
  · simp [imageStep, posfnStep, waits, ended] at posfnNone
  · simp [imageStep, readerStep, waits, sends] at readerNone

theorem stuck_worker (s : Image) (flow : Flow s)
    (stuck : Stuck (imageSystem chunkDigest sha256 total_size known) s) (w : Workers) :
    (∃ ok, s.workers w = .finished ok) ∨ s.workers w = .notStarted := by
  have workerNone := stuck_none s stuck (.worker w true)
  cases state : s.workers w with
  | notStarted => exact Or.inr rfl
  | finished ok => exact Or.inl ⟨ok, rfl⟩
  | idle =>
      cases posfn : s.posfn with
      | notStarted => simp [flow.unstarted posfn w] at state
      | waiting pos => exact absurd posfn ((stuck_reader s stuck).2 pos)
      | holding seg => simp [imageStep, workerStep, state, posfn] at workerNone
      | closed => simp [imageStep, workerStep, state, posfn] at workerNone
  | received seg => simp [imageStep, workerStep, state] at workerNone
  | recorded seg shahash known =>
      cases known <;> simp [imageStep, workerStep, state] at workerNone
  | stored seg shahash => simp [imageStep, workerStep, state] at workerNone
  | reporting ok => simp [imageStep, workerStep, state] at workerNone

/-- With every worker done uploadWorker has all eight results, or has returned. -/
theorem stuck_main (s : Image) (flow : Flow s) (results : Results s)
    (stuck : Stuck (imageSystem chunkDigest sha256 total_size known) s) :
    s.main = .returned ∨ ∃ index, s.main = .closed index := by
  have mainNone := stuck_none s stuck (.main true)
  cases state : s.main with
  | returned => exact Or.inl rfl
  | closed index => exact Or.inr ⟨index, rfl⟩
  | creating => simp [imageStep, mainStep, state] at mainNone
  | closing index => simp [imageStep, mainStep, state] at mainNone
  | assigning k =>
      simp only [imageStep, mainStep, state] at mainNone
      split at mainNone <;> simp at mainNone
  | collecting =>
      have started : s.posfn ≠ .notStarted := by
        intro idle
        rcases flow.running idle with now | now <;> simp [state] at now
      have empty : s.errch = [] ∧ s.collected.length ≠ 8 := by
        simp only [imageStep, mainStep, state] at mainNone
        split at mainNone
        · split at mainNone <;> simp at mainNone
        · next more =>
            split at mainNone
            · next empty => exact ⟨empty, more⟩
            · simp at mainNone
            · simp at mainNone
      have all : ∀ w, w ∈ s.collected := by
        intro w
        rcases stuck_worker s flow stuck w with ⟨ok, finished⟩ | none
        · rcases results.owed w ok finished with queued | collected | returned
          · simp [empty.1] at queued
          · exact collected
          · simp [state] at returned
        · exact absurd none (flow.begun started w)
      have distinct : s.collected.Nodup := (List.nodup_append.mp results.distinct).2.1
      have least : (List.finRange 8).length ≤ s.collected.length :=
        (List.nodup_finRange 8).length_le_of_subset fun w _ => all w
      have most := distinct.length_le_card
      simp only [List.length_finRange, Fintype.card_fin] at least most
      exact absurd (le_antisymm most least) empty.2

theorem stuck_halted (s : Image) (flow : Flow s) (results : Results s)
    (stuck : Stuck (imageSystem chunkDigest sha256 total_size known) s) : Halted s :=
  ⟨(stuck_reader s stuck).1, (stuck_reader s stuck).2, stuck_worker s flow stuck,
    stuck_main s flow results stuck⟩

/-- A halted upload has stopped everywhere exactly when no block is left. -/
theorem halted_stopped (s : Image) (flow : Flow s) (halted : Halted s) :
    AllStopped s ↔ pending s = [] := by
  constructor
  · intro stopped
    rcases stopped.posfn with ended | none
    · simp [pending, ended]
    · simp [pending, none, stopped.reader, unsent, placed]
  · intro none
    cases posfn : s.posfn with
    | waiting pos => exact absurd posfn (halted.waiting pos)
    | holding seg => simp [pending, posfn] at none
    | closed => exact ⟨flow.posClosed posfn, Or.inl posfn, halted.workers, halted.main⟩
    | notStarted =>
        rcases halted.reader with ended | ⟨block, rest, sends⟩
        · exact ⟨ended, Or.inr posfn, halted.workers, halted.main⟩
        · simp [pending, posfn, sends, unsent, placed] at none

def readerWork : Reader → Nat
  | .reading rest => 12 * rest.length + 2
  | .reported => 1
  | .closed => 0

def posfnWork : Posfn → Nat
  | .waiting _ => 1
  | .holding _ => 11
  | _ => 0

def workerWork : Worker → Nat
  | .idle => 2
  | .received _ => 8
  | .recorded _ _ _ => 7
  | .stored _ _ => 6
  | .reporting _ => 1
  | _ => 0

def mainWork (s : Image) : Nat :=
  match s.main with
  | .creating => s.assignments.length + 40
  | .collecting => s.assignments.length + (8 - s.collected.length) + 4
  | .assigning k => s.assignments.length - k + 3
  | .closing _ => 2
  | _ => 0

/-- What is left to do; a block weighs enough for every step it can take. -/
def work (s : Image) : Nat :=
  readerWork s.reader + posfnWork s.posfn + (∑ w, workerWork (s.workers w)) + mainWork s

theorem sum_setWorker (s : Image) (w : Workers) (next : Worker) :
    (∑ v, workerWork ((setWorker s w next).workers v)) + workerWork (s.workers w) =
      (∑ v, workerWork (s.workers v)) + workerWork next := by
  have after := Finset.add_sum_erase Finset.univ
    (fun v => workerWork ((setWorker s w next).workers v)) (Finset.mem_univ w)
  have before := Finset.add_sum_erase Finset.univ
    (fun v => workerWork (s.workers v)) (Finset.mem_univ w)
  have same : ∑ v ∈ Finset.univ.erase w, workerWork ((setWorker s w next).workers v) =
      ∑ v ∈ Finset.univ.erase w, workerWork (s.workers v) := by
    refine Finset.sum_congr rfl fun v member => ?_
    rw [setWorker_workers, if_neg (Finset.ne_of_mem_erase member)]
  simp only [setWorker_workers, if_true] at after
  simp only [setWorker_workers] at same ⊢
  omega

/-- A worker's step: what it saves pays for what it hands on. -/
theorem work_worker (s base : Image) (w : Workers) (next : Worker)
    (workers : base.workers = s.workers) (reader : base.reader = s.reader)
    (cheaper : workerWork next + posfnWork base.posfn + mainWork base <
      workerWork (s.workers w) + posfnWork s.posfn + mainWork s) :
    work (setWorker base w next) < work s := by
  have sum := sum_setWorker base w next
  have main : mainWork (setWorker base w next) = mainWork base := rfl
  rw [workers] at sum
  simp only [work, main]
  rw [show (setWorker base w next).reader = s.reader from reader,
    show (setWorker base w next).posfn = base.posfn from rfl]
  omega

theorem mainWork_count (s : Image) (seg : PosSeg) (shahash : Digest) :
    mainWork (countChunk s seg shahash) ≤ mainWork s + 1 := by
  unfold mainWork countChunk
  cases s.main <;> simp <;> omega

theorem collected_le (s : Image) (results : Results s) : s.collected.length ≤ 8 := by
  have bound := (List.nodup_append.mp results.distinct).2.1.length_le_card
  simpa using bound

theorem work_step (s after : Image) (turn : Turn) (flow : Flow s) (results : Results s)
    (move : Move chunkDigest sha256 total_size s turn after) : work after < work s := by
  cases move with
  | report at_ => simp [work, readerWork, at_, mainWork]
  | pass block rest pos sends waits =>
      simp only [work, readerWork, sends, posfnWork, waits, mainWork, List.length_cons]
      omega
  | closeCh at_ => simp [work, readerWork, at_, mainWork]
  | closeCh2 pos waits ended => simp [work, posfnWork, waits, mainWork]
  | hand w fails seg idle holds =>
      refine work_worker s _ w _ rfl rfl ?_
      simp [workerWork, posfnWork, idle, holds, mainWork]
  | drained w fails idle ended =>
      refine work_worker s _ w _ rfl rfl ?_
      simp [workerWork, idle]
  | record w fails seg state =>
      refine work_worker s _ w _ rfl rfl ?_
      simp [workerWork, state, recordHash, mainWork]
  | reuse w fails seg shahash state =>
      refine work_worker s _ w _ rfl rfl ?_
      simp [workerWork, state, mainWork]
  | upload w seg shahash state =>
      refine work_worker s _ w _ rfl rfl ?_
      simp [workerWork, state, mainWork]
  | uploadFails w seg shahash state =>
      refine work_worker s _ w _ rfl rfl ?_
      simp [workerWork, state]
  | count w fails seg shahash state fits =>
      refine work_worker s _ w _ rfl rfl ?_
      have main := mainWork_count s seg shahash
      have posfn : (countChunk s seg shahash).posfn = s.posfn := rfl
      simp only [workerWork, state, posfn]
      omega
  | tooMuch w fails seg shahash state ended =>
      refine work_worker s _ w _ rfl rfl ?_
      have main := mainWork_count s seg shahash
      have posfn : (countChunk s seg shahash).posfn = s.posfn := rfl
      simp only [workerWork, state, posfn]
      omega
  | result w fails ok state =>
      refine work_worker s _ w _ rfl rfl ?_
      simp [workerWork, state, mainWork]
  | createFails at_ => simp [work, mainWork, at_]
  | start at_ =>
      have idle := flow.unstarted (flow.creating at_)
      simp only [work, mainWork, at_, flow.creating at_, posfnWork, idle, workerWork,
        Finset.sum_const, Finset.card_univ, Fintype.card_fin, smul_eq_mul]
      omega
  | readFailed fails at_ all failed => simp [work, mainWork, at_]
  | complete fails at_ all clean =>
      simp only [work, mainWork, at_]
      omega
  | collect fails w rest at_ more first =>
      have most := collected_le s results
      simp only [work, mainWork, at_, List.length_append, List.length_singleton]
      omega
  | workerFailed fails w rest at_ first => simp [work, mainWork, at_]
  | assign k at_ more =>
      simp only [work, mainWork, at_]
      omega
  | assignFails k at_ => simp [work, mainWork, at_]
  | close fails k at_ all =>
      simp only [work, mainWork, at_]
      omega
  | closeFails index at_ => simp [work, mainWork, at_]
  | closed index at_ => simp [work, mainWork, at_]

theorem work_decreasing : Decreasing (imageSystem chunkDigest sha256 total_size known)
    (Sound chunkDigest sha256 known) work :=
  fun s turn after sound taken => by
    have move : Move chunkDigest sha256 total_size s turn after :=
      imageStep_move s after turn taken
    exact work_step s after turn sound.flow sound.results move

/-- What an upload run comes to. `faultless` is the condition on its steps. -/
structure UploadRun (chunkDigest sha256 : Bytes → Digest) (total_size : Nat)
    (known : List Digest) (origin : Image) (turns : List Turn) (s : Image) : Prop where
  sealedWhole : ∀ index, Closes s index → SealedImage chunkDigest sha256 known s index
  finite : turns.length ≤ work origin
  stops : Stuck (imageSystem chunkDigest sha256 total_size known) s →
    (AllStopped s ↔ Run ((imageSystem chunkDigest sha256 total_size known).restrict
      (KeepsReceiver total_size)) origin turns s)

/-- The index is only closed over the whole image, and every upload comes to a
halt; all goroutines have stopped then exactly if no step left a block without a
receiver, by failing to create the index or by the last worker giving up. -/
theorem upload_run (chunkDigest sha256 : Bytes → Digest) (total_size : Nat)
    (known : List Digest) (source : List Block) (readFails : Bool) (turns : List Turn) (s : Image)
    (run : Run (imageSystem chunkDigest sha256 total_size known)
      (Image.init source readFails known) turns s) :
    UploadRun chunkDigest sha256 total_size known (Image.init source readFails known) turns s := by
  have invariant : Invariant (imageSystem chunkDigest sha256 total_size known)
      (Sound chunkDigest sha256 known) := sound_invariant
  have initial := invariant.start _ ⟨source, readFails, rfl⟩
  have sound := invariant.run run initial
  have moves : ∀ before turn after,
      (imageSystem chunkDigest sha256 total_size known).step before turn after →
      Move chunkDigest sha256 total_size before turn after :=
    fun before turn after taken => imageStep_move before after turn taken
  refine ⟨fun index => closed_index_sealed s index sound, ?_, fun stuck => ?_⟩
  · exact le_trans (Nat.le_add_right _ _)
      (run_length_le_measure invariant work_decreasing run initial)
  · have halted := stuck_halted s sound.flow sound.results stuck
    rw [halted_stopped s sound.flow halted]
    constructor
    · intro none
      have outcome : Run ((imageSystem chunkDigest sha256 total_size known).restrict
          (KeepsReceiver total_size)) (Image.init source readFails known) turns s ∨ Stranded s :=
        run_restrict_or _ Stranded invariant.step
          (fun before turn after held lost taken =>
            stranded_step before after turn held.flow lost (moves before turn after taken))
          (fun before turn after held taken breaks =>
            breaks_stranded before after turn held.flow (moves before turn after taken) breaks)
          run initial
      exact outcome.resolve_right fun lost => lost.left none
    · intro restricted
      have kept : ∀ before turn after,
          Sound chunkDigest sha256 known before ∧ Supplied before →
          ((imageSystem chunkDigest sha256 total_size known).restrict
            (KeepsReceiver total_size)).step before turn after →
          Sound chunkDigest sha256 known after ∧ Supplied after :=
        fun before turn after held taken =>
          ⟨invariant.step before turn after held.1 taken.1,
            supplied_step before after turn held.1.flow held.2
              (moves before turn after taken.1) taken.2⟩
      have both := run_keeps _ kept restricted ⟨initial, Or.inl rfl⟩
      rcases both.2 with creating | none | ⟨w, receives⟩
      · rcases halted.main with now | ⟨index, now⟩ <;> simp [creating] at now
      · exact none
      · rcases halted.workers w with ⟨ok, now⟩ | now <;> simp [now, Receiving] at receives

def oneByte : Block := ⟨[7], by decide⟩

/-- CreateFixedIndex fails while the reader has one block: uploadWorker returns
and the reader waits at ch for ever. -/
theorem create_failure_strands_reader :
    ∃ s, Run (imageSystem id id 1 []) (Image.init [oneByte] false []) [.main true] s ∧
      s.main = .returned ∧ Stuck (imageSystem id id 1 []) s ∧ ¬ AllStopped s := by
  refine ⟨_, Run.next rfl (Run.stop _), rfl, ?_, fun stopped => ?_⟩
  · intro turn after taken
    cases turn with
    | reader => cases taken
    | posfn => cases taken
    | worker w fails => cases taken
    | main fails => cases taken
  · cases stopped.reader

/-- The same block uploaded by worker 0 with nothing failing. -/
def wholeUpload : List Turn :=
  let turn := fun w : Fin 8 => Turn.worker w false
  let next := Turn.main false
  [next, .reader, turn 0, turn 0, turn 0, turn 0, .reader, .reader, .posfn] ++
    (List.finRange 8).flatMap (fun w => [turn w, turn w]) ++ List.replicate 12 next

theorem whole_upload_run : ∃ s index, s.main = .closed index ∧ index.chunkcount = 1 ∧
    UploadRun id id 1 [] (Image.init [oneByte] false []) wholeUpload s := by
  have closed : (wholeUpload.foldlM (imageStep id id 1) (Image.init [oneByte] false [])).map
      (fun s => match s.main with
        | .closed index => some index.chunkcount
        | _ => none) = some (some 1) := by decide +kernel
  obtain ⟨s, executed, main⟩ := Option.map_eq_some_iff.mp closed
  have run : Run (imageSystem id id 1 []) (Image.init [oneByte] false []) wholeUpload s :=
    run_of_foldlM (imageStep id id 1) (fun _ _ _ taken => taken) executed
  split at main
  · next index now =>
      exact ⟨s, index, now, Option.some.inj main, upload_run id id 1 [] [oneByte] false _ s run⟩
  · cases main

end ProxmoxBackup.FixedIndex
