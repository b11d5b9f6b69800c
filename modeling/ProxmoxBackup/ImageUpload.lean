import ProxmoxBackup.TransitionSystem
import ProxmoxBackup.DynamicChunks
import Mathlib.Logic.Function.Basic
import Mathlib.Data.List.Sort

/-! The upload of one disk image of machinebackuplib: the reader goroutine of
BackupFileDevice, and uploadWorker with its position goroutine, its eight
workers and the loop that collects their results, assigns and closes the fixed
index. `ch` and `ch2` are unbuffered, so a send and its receive are one step;
`errCh` and `errch` are buffered. A section under assignment_mutex is one step.
The environment chooses which requests fail.

What the reader will send, and whether it ends with an error (a failed seek or
read, or the user's stop), is fixed at the start. `source`, `handed`,
`completed` and `uploaded` record the past and are read by no step; so is the
worker's number beside its result. -/

namespace ProxmoxBackup.ImageUpload

open TransitionSystem DynamicChunks

def PBS_FIXED_CHUNK_SIZE : Nat := 4 * 1024 * 1024

abbrev Workers : Type := Fin 8

/-- A block the reader sends. A read without an error returns at least one byte. -/
structure Block where
  data : Bytes
  filled : data ≠ []

structure PosSeg where
  Pos : Nat
  Data : Block

/-- digestOf of the zero chunk detector, with the zero chunk's digest worked out once. -/
def digestOf (chunkDigest : Bytes → Digest) (data : Bytes) : Digest × Bool :=
  let zeros := List.replicate PBS_FIXED_CHUNK_SIZE 0
  if data.length = PBS_FIXED_CHUNK_SIZE ∧ data = zeros then (chunkDigest zeros, true)
  else (chunkDigest data, false)

theorem digestOf_digest (chunkDigest : Bytes → Digest) (data : Bytes) :
    (digestOf chunkDigest data).1 = chunkDigest data := by
  simp only [digestOf]
  split
  · next blank => rw [blank.2]
  · rfl

/-- The reader has `rest` to send, has put its result into errCh, or has closed ch. -/
inductive Reader where
  | reading (rest : List Block)
  | reported
  | closed

inductive Posfn where
  | notStarted
  | waiting (pos : Nat)
  | holding (seg : PosSeg)
  | closed

inductive Worker where
  | notStarted
  | idle
  | received (seg : PosSeg)
  | recorded (seg : PosSeg) (shahash : Digest) (exists_ : Bool)
  | stored (seg : PosSeg) (shahash : Digest)
  | reporting (ok : Bool)
  | finished (ok : Bool)

structure FixedIndex where
  csum : Digest
  size : Nat
  chunkcount : Nat

inductive Main where
  | creating
  | collecting
  | assigning (k : Nat)
  | closing (index : FixedIndex)
  | closed (index : FixedIndex)
  | returned

structure Image where
  reader : Reader
  readFails : Bool
  errCh : Option Bool
  posfn : Posfn
  workers : Workers → Worker
  main : Main
  errch : List (Workers × Bool)
  collected : List Workers
  knownChunks : List Digest
  index_hash_data : List (Nat × Digest)
  assignments : List (Digest × Nat)
  processed_size : Nat
  chunkcount : Nat
  newchunk : Nat
  reusechunk : Nat
  assigned : List (Digest × Nat)
  source : List Block
  handed : List PosSeg
  completed : List PosSeg
  uploaded : List Digest

def Image.init (source : List Block) (readFails : Bool) (known : List Digest) : Image where
  reader := .reading source
  readFails := readFails
  errCh := none
  posfn := .notStarted
  workers := fun _ => .notStarted
  main := .creating
  errch := []
  collected := []
  knownChunks := known
  index_hash_data := []
  assignments := []
  processed_size := 0
  chunkcount := 0
  newchunk := 0
  reusechunk := 0
  assigned := []
  source := source
  handed := []
  completed := []
  uploaded := []

def readerStep (s : Image) : Option Image :=
  match s.reader with
  | .reading [] => some { s with reader := .reported, errCh := some s.readFails }
  | .reading (block :: rest) =>
      match s.posfn with
      | .waiting pos => some { s with reader := .reading rest, posfn := .holding ⟨pos, block⟩ }
      | _ => none
  | .reported => some { s with reader := .closed }
  | .closed => none

/-- posfn leaves its loop once ch is closed, and closes ch2. -/
def posfnStep (s : Image) : Option Image :=
  match s.posfn, s.reader with
  | .waiting _, .closed => some { s with posfn := .closed }
  | _, _ => none

def setWorker (s : Image) (w : Workers) (next : Worker) : Image :=
  { s with workers := Function.update s.workers w next }

/-- Assignment into index_hash_data, a map. -/
def setHash (hashes : List (Nat × Digest)) (pos : Nat) (digest : Digest) : List (Nat × Digest) :=
  (pos, digest) :: hashes.filter fun entry => entry.1 ≠ pos

def workerStep (chunkDigest : Bytes → Digest) (total_size : Nat) (s : Image) (w : Workers)
    (fails : Bool) : Option Image :=
  match s.workers w with
  | .idle =>
      match s.posfn with
      | .holding seg =>
          some (setWorker { s with
            posfn := .waiting (seg.Pos + seg.Data.data.length), handed := s.handed ++ [seg] } w
            (.received seg))
      | .closed => some (setWorker s w (.reporting true))
      | _ => none
  | .received seg =>
      let shahash := (digestOf chunkDigest seg.Data.data).1
      let exists_ := decide (shahash ∈ s.knownChunks)
      some (setWorker { s with
        index_hash_data := setHash s.index_hash_data seg.Pos shahash
        knownChunks := if exists_ then s.knownChunks else shahash :: s.knownChunks } w
        (.recorded seg shahash exists_))
  | .recorded seg shahash true =>
      some (setWorker { s with reusechunk := s.reusechunk + 1 } w (.stored seg shahash))
  | .recorded seg shahash false =>
      if fails then some (setWorker s w (.reporting false))
      else
        some (setWorker { s with
          newchunk := s.newchunk + 1, uploaded := shahash :: s.uploaded } w (.stored seg shahash))
  | .stored seg shahash =>
      let processed := s.processed_size + seg.Data.data.length
      some (setWorker { s with
        assignments := s.assignments ++ [(shahash, seg.Pos)]
        processed_size := processed
        chunkcount := s.chunkcount + 1
        completed := s.completed ++ [seg] } w
        (if processed > total_size then .reporting false else .idle))
  | .reporting ok => some (setWorker { s with errch := s.errch ++ [(w, ok)] } w (.finished ok))
  | _ => none

/-- The digests of index_hash_data in the order of their sorted positions. -/
def checksumInput (hashes : List (Nat × Digest)) : Bytes :=
  (hashes.mergeSort fun a b => a.1 ≤ b.1).flatMap Prod.snd

/-- What CloseFixedIndex is sent. -/
def closingIndex (sha256 : Bytes → Digest) (s : Image) : FixedIndex :=
  ⟨sha256 (checksumInput s.index_hash_data), s.processed_size, s.chunkcount⟩

/-- uploadWorker itself; `fails` is the outcome of the request it makes, if any. -/
def mainStep (sha256 : Bytes → Digest) (s : Image) (fails : Bool) : Option Image :=
  match s.main with
  | .creating =>
      if fails then some { s with main := .returned }
      else some { s with main := .collecting, posfn := .waiting 0, workers := fun _ => .idle }
  | .collecting =>
      if s.collected.length = 8 then
        match s.errCh with
        | some true => some { s with errCh := none, main := .returned }
        | _ => some { s with errCh := none, main := .assigning 0 }
      else
        match s.errch with
        | [] => none
        | (w, true) :: rest => some { s with errch := rest, collected := s.collected ++ [w] }
        | (_, false) :: rest => some { s with errch := rest, main := .returned }
  | .assigning k =>
      if k < s.assignments.length then
        if fails then some { s with main := .returned }
        else
          some { s with
            assigned := s.assigned ++ (s.assignments.drop k).take 128, main := .assigning (k + 128) }
      else some { s with main := .closing (closingIndex sha256 s) }
  | .closing index => some { s with main := if fails then .returned else .closed index }
  | _ => none

inductive Turn where
  | reader
  | posfn
  | worker (w : Workers) (fails : Bool)
  | main (fails : Bool)

def imageStep (chunkDigest sha256 : Bytes → Digest) (total_size : Nat) (s : Image) :
    Turn → Option Image
  | .reader => readerStep s
  | .posfn => posfnStep s
  | .worker w fails => workerStep chunkDigest total_size s w fails
  | .main fails => mainStep sha256 s fails

def imageSystem (chunkDigest sha256 : Bytes → Digest) (total_size : Nat) (known : List Digest) :
    System Image Turn where
  start s := ∃ source readFails, s = Image.init source readFails known
  step before turn after := imageStep chunkDigest sha256 total_size before turn = some after

/-- index_hash_data, knownChunks: the section a worker enters with a digest. -/
def recordHash (s : Image) (seg : PosSeg) (shahash : Digest) : Image :=
  { s with
    index_hash_data := setHash s.index_hash_data seg.Pos shahash
    knownChunks :=
      if decide (shahash ∈ s.knownChunks) then s.knownChunks else shahash :: s.knownChunks }

/-- The section in which a worker counts a chunk that is on the server. -/
def countChunk (s : Image) (seg : PosSeg) (shahash : Digest) : Image :=
  { s with
    assignments := s.assignments ++ [(shahash, seg.Pos)]
    processed_size := s.processed_size + seg.Data.data.length
    chunkcount := s.chunkcount + 1
    completed := s.completed ++ [seg] }

/-- Everything a turn can do, guards included. -/
inductive Move (chunkDigest sha256 : Bytes → Digest) (total_size : Nat) (s : Image) :
    Turn → Image → Prop where
  | report (at_ : s.reader = .reading []) :
      Move chunkDigest sha256 total_size s .reader
        { s with reader := .reported, errCh := some s.readFails }
  | pass (block rest pos) (sends : s.reader = .reading (block :: rest))
      (waits : s.posfn = .waiting pos) :
      Move chunkDigest sha256 total_size s .reader
        { s with reader := .reading rest, posfn := .holding ⟨pos, block⟩ }
  | closeCh (at_ : s.reader = .reported) :
      Move chunkDigest sha256 total_size s .reader { s with reader := .closed }
  | closeCh2 (pos) (waits : s.posfn = .waiting pos) (ended : s.reader = .closed) :
      Move chunkDigest sha256 total_size s .posfn { s with posfn := .closed }
  | hand (w fails seg) (idle : s.workers w = .idle) (holds : s.posfn = .holding seg) :
      Move chunkDigest sha256 total_size s (.worker w fails) (setWorker { s with
        posfn := .waiting (seg.Pos + seg.Data.data.length), handed := s.handed ++ [seg] } w
        (.received seg))
  | drained (w fails) (idle : s.workers w = .idle) (ended : s.posfn = .closed) :
      Move chunkDigest sha256 total_size s (.worker w fails) (setWorker s w (.reporting true))
  | record (w fails seg) (state : s.workers w = .received seg) :
      Move chunkDigest sha256 total_size s (.worker w fails)
        (setWorker (recordHash s seg (chunkDigest seg.Data.data)) w
          (.recorded seg (chunkDigest seg.Data.data)
            (decide (chunkDigest seg.Data.data ∈ s.knownChunks))))
  | reuse (w fails seg shahash) (state : s.workers w = .recorded seg shahash true) :
      Move chunkDigest sha256 total_size s (.worker w fails)
        (setWorker { s with reusechunk := s.reusechunk + 1 } w (.stored seg shahash))
  | uploadFails (w seg shahash) (state : s.workers w = .recorded seg shahash false) :
      Move chunkDigest sha256 total_size s (.worker w true) (setWorker s w (.reporting false))
  | upload (w seg shahash) (state : s.workers w = .recorded seg shahash false) :
      Move chunkDigest sha256 total_size s (.worker w false) (setWorker { s with
        newchunk := s.newchunk + 1, uploaded := shahash :: s.uploaded } w (.stored seg shahash))
  | count (w fails seg shahash) (state : s.workers w = .stored seg shahash)
      (fits : s.processed_size + seg.Data.data.length ≤ total_size) :
      Move chunkDigest sha256 total_size s (.worker w fails)
        (setWorker (countChunk s seg shahash) w .idle)
  | tooMuch (w fails seg shahash) (state : s.workers w = .stored seg shahash)
      (ended : s.processed_size + seg.Data.data.length > total_size) :
      Move chunkDigest sha256 total_size s (.worker w fails)
        (setWorker (countChunk s seg shahash) w (.reporting false))
  | result (w fails ok) (state : s.workers w = .reporting ok) :
      Move chunkDigest sha256 total_size s (.worker w fails)
        (setWorker { s with errch := s.errch ++ [(w, ok)] } w (.finished ok))
  | createFails (at_ : s.main = .creating) :
      Move chunkDigest sha256 total_size s (.main true) { s with main := .returned }
  | start (at_ : s.main = .creating) :
      Move chunkDigest sha256 total_size s (.main false) { s with
        main := .collecting, posfn := .waiting 0, workers := fun _ => .idle }
  | readFailed (fails) (at_ : s.main = .collecting) (all : s.collected.length = 8)
      (failed : s.errCh = some true) :
      Move chunkDigest sha256 total_size s (.main fails)
        { s with errCh := none, main := .returned }
  | complete (fails) (at_ : s.main = .collecting) (all : s.collected.length = 8)
      (clean : s.errCh ≠ some true) :
      Move chunkDigest sha256 total_size s (.main fails)
        { s with errCh := none, main := .assigning 0 }
  | collect (fails w rest) (at_ : s.main = .collecting) (more : s.collected.length ≠ 8)
      (first : s.errch = (w, true) :: rest) :
      Move chunkDigest sha256 total_size s (.main fails)
        { s with errch := rest, collected := s.collected ++ [w] }
  | workerFailed (fails w rest) (at_ : s.main = .collecting)
      (first : s.errch = (w, false) :: rest) :
      Move chunkDigest sha256 total_size s (.main fails)
        { s with errch := rest, main := .returned }
  | assign (k) (at_ : s.main = .assigning k) (more : k < s.assignments.length) :
      Move chunkDigest sha256 total_size s (.main false) { s with
        assigned := s.assigned ++ (s.assignments.drop k).take 128, main := .assigning (k + 128) }
  | assignFails (k) (at_ : s.main = .assigning k) :
      Move chunkDigest sha256 total_size s (.main true) { s with main := .returned }
  | close (fails k) (at_ : s.main = .assigning k) (all : s.assignments.length ≤ k) :
      Move chunkDigest sha256 total_size s (.main fails)
        { s with main := .closing (closingIndex sha256 s) }
  | closeFails (index) (at_ : s.main = .closing index) :
      Move chunkDigest sha256 total_size s (.main true) { s with main := .returned }
  | closed (index) (at_ : s.main = .closing index) :
      Move chunkDigest sha256 total_size s (.main false) { s with main := .closed index }

variable {chunkDigest sha256 : Bytes → Digest} {total_size : Nat} {known : List Digest}

theorem workerStep_move (s after : Image) (w : Workers) (fails : Bool)
    (taken : workerStep chunkDigest total_size s w fails = some after) :
    Move chunkDigest sha256 total_size s (.worker w fails) after := by
  unfold workerStep at taken
  split at taken
  · next idle =>
      split at taken
      · next seg holds =>
          cases taken
          exact .hand w fails seg idle holds
      · next ended =>
          cases taken
          exact .drained w fails idle ended
      · cases taken
  · next seg state =>
      simp only [digestOf_digest, Option.some.injEq] at taken
      subst taken
      exact .record w fails seg state
  · next seg shahash state =>
      cases taken
      exact .reuse w fails seg shahash state
  · next seg shahash state =>
      cases fails with
      | true =>
          cases taken
          exact .uploadFails w seg shahash state
      | false =>
          cases taken
          exact .upload w seg shahash state
  · next seg shahash state =>
      simp only [Option.some.injEq] at taken
      subst taken
      split
      · next ended => exact .tooMuch w fails seg shahash state ended
      · next fits => exact .count w fails seg shahash state (Nat.le_of_not_gt fits)
  · next ok state =>
      cases taken
      exact .result w fails ok state
  · cases taken

theorem mainStep_move (s after : Image) (fails : Bool)
    (taken : mainStep sha256 s fails = some after) :
    Move chunkDigest sha256 total_size s (.main fails) after := by
  unfold mainStep at taken
  split at taken
  · next at_ =>
      cases fails with
      | true =>
          cases taken
          exact .createFails at_
      | false =>
          cases taken
          exact .start at_
  · next at_ =>
      split at taken
      · next all =>
          split at taken
          · next failed =>
              cases taken
              exact .readFailed fails at_ all failed
          · next clean =>
              cases taken
              exact .complete fails at_ all clean
      · next more =>
          split at taken
          · cases taken
          · next w rest first =>
              cases taken
              exact .collect fails w rest at_ more first
          · next w rest first =>
              cases taken
              exact .workerFailed fails w rest at_ first
  · next k at_ =>
      split at taken
      · next more =>
          cases fails with
          | true =>
              cases taken
              exact .assignFails k at_
          | false =>
              cases taken
              exact .assign k at_ more
      · next all =>
          cases taken
          exact .close fails k at_ (Nat.le_of_not_lt all)
  · next index at_ =>
      cases fails with
      | true =>
          cases taken
          exact .closeFails index at_
      | false =>
          cases taken
          exact .closed index at_
  · cases taken

theorem imageStep_move (s after : Image) (turn : Turn)
    (taken : imageStep chunkDigest sha256 total_size s turn = some after) :
    Move chunkDigest sha256 total_size s turn after := by
  cases turn with
  | reader =>
      simp only [imageStep, readerStep] at taken
      split at taken
      · next at_ =>
          cases taken
          exact .report at_
      · next block rest sends =>
          split at taken
          · next pos waits =>
              cases taken
              exact .pass block rest pos sends waits
          · cases taken
      · next at_ =>
          cases taken
          exact .closeCh at_
      · cases taken
  | posfn =>
      simp only [imageStep, posfnStep] at taken
      split at taken
      · next pos waits ended =>
          cases taken
          exact .closeCh2 pos waits ended
      · cases taken
  | worker w fails => exact workerStep_move s after w fails taken
  | main fails => exact mainStep_move s after fails taken

end ProxmoxBackup.ImageUpload
