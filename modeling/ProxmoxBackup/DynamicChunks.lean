import ProxmoxBackup.Buzhash
import ProxmoxBackup.LittleEndian

/-! ChunkState of directorybackup/main.go as the walk sees it: the index
entries, the position, the pending chunk and the chunker. The worker pool is in
`UploadPool`. A job's entry pointer is its place in `entries`. Offsets and
sizes are natural numbers. -/

namespace ProxmoxBackup.DynamicChunks

open Buzhash

abbrev Bytes := List UInt8

abbrev Digest := List UInt8

instance : LawfulBEq Bytes := inferInstance

def zeroDigest : Digest := List.replicate 32 0

structure ChunkEntry where
  offset : Nat
  size : Nat
  digest : Digest

structure UploadJob where
  entry : Nat
  data : Bytes

structure ChunkState where
  entries : List ChunkEntry
  pos : Nat
  chunkcount : Nat
  currentChunk : Bytes
  C : Chunker

def ChunkState.init : ChunkState := ⟨[], 0, 0, [], Chunker.new (1024 * 1024 * 4)⟩

/-- A chunk of the previous payload index, with the data its digest names. -/
structure KnownChunk (chunkDigest : Bytes → Digest) where
  digest : Digest
  size : Nat
  data : Bytes
  named : digest = chunkDigest data
  sized : size = data.length

/-- queue, once it has seen no upload error: the entry and the job it sends. -/
def ChunkState.queue (c : ChunkState) : ChunkState × UploadJob :=
  let size := c.currentChunk.length
  ({ c with
      entries := c.entries ++ [⟨c.pos, size, zeroDigest⟩]
      pos := c.pos + size
      chunkcount := c.chunkcount + 1
      currentChunk := [] },
    ⟨c.entries.length, c.currentChunk⟩)

/-- One turn of HandleData's loop up to queue: what is left after a break, or
none when the bytes hold no break. -/
def ChunkState.scanStep (c : ChunkState) (b : Bytes) : ChunkState × Option Bytes :=
  let (chunkpos, next) := c.C.scan b
  if chunkpos = 0 then
    ({ c with C := next, currentChunk := c.currentChunk ++ b }, none)
  else
    ({ c with C := next, currentChunk := c.currentChunk ++ b.take chunkpos },
      some (b.drop chunkpos))

def ChunkState.resetChunker (c : ChunkState) : ChunkState := { c with C := c.C.reset }

/-- InjectKnownChunk once its checks have passed. -/
def ChunkState.appendKnown (c : ChunkState) (digest : Digest) (size : Nat) : ChunkState :=
  { c with
    entries := c.entries ++ [⟨c.pos, size, digest⟩]
    pos := c.pos + size
    chunkcount := c.chunkcount + 1 }

/-- Offsets and sizes of consecutive chunks from `offset` on. -/
def layout : Nat → List Bytes → List (Nat × Nat)
  | _, [] => []
  | offset, data :: rest => (offset, data.length) :: layout (offset + data.length) rest

theorem layout_append (offset : Nat) (chunks : List Bytes) (data : Bytes) :
    layout offset (chunks ++ [data]) =
      layout offset chunks ++ [(offset + chunks.flatten.length, data.length)] := by
  induction chunks generalizing offset with
  | nil => simp [layout]
  | cons first rest ih => simp [layout, ih, Nat.add_assoc]

theorem layout_length (offset : Nat) (chunks : List Bytes) :
    (layout offset chunks).length = chunks.length := by
  induction chunks generalizing offset with
  | nil => rfl
  | cons first rest ih => simp [layout, ih]

def ChunkEntry.place (e : ChunkEntry) : Nat × Nat := (e.offset, e.size)

/-- The entries describe `chunks` one after the other from the stream's start. -/
structure Cut (c : ChunkState) (chunks : List Bytes) : Prop where
  places : c.entries.map ChunkEntry.place = layout 0 chunks
  position : c.pos = chunks.flatten.length
  counted : c.chunkcount = chunks.length

theorem Cut.entries_length {c : ChunkState} {chunks : List Bytes} (cut : Cut c chunks) :
    c.entries.length = chunks.length := by
  have lengths := congrArg List.length cut.places
  simpa [layout_length] using lengths

theorem Cut.of_frame {before after : ChunkState} {chunks : List Bytes} (cut : Cut before chunks)
    (places : after.entries.map ChunkEntry.place = before.entries.map ChunkEntry.place)
    (pos : after.pos = before.pos) (chunkcount : after.chunkcount = before.chunkcount) :
    Cut after chunks :=
  ⟨places.trans cut.places, pos.trans cut.position, chunkcount.trans cut.counted⟩

theorem init_cut : Cut ChunkState.init [] := ⟨rfl, rfl, rfl⟩

theorem queue_cut (c : ChunkState) (chunks : List Bytes) (cut : Cut c chunks) :
    Cut c.queue.1 (chunks ++ [c.currentChunk]) := by
  refine ⟨?_, ?_, ?_⟩
  · simp [ChunkState.queue, layout_append, cut.places, ChunkEntry.place, cut.position]
  · simp [ChunkState.queue, cut.position]
  · simp [ChunkState.queue, cut.counted]

theorem appendKnown_cut (c : ChunkState) (chunks : List Bytes) (digest : Digest) (data : Bytes)
    (cut : Cut c chunks) : Cut (c.appendKnown digest data.length) (chunks ++ [data]) := by
  refine ⟨?_, ?_, ?_⟩
  · simp [ChunkState.appendKnown, layout_append, cut.places, ChunkEntry.place, cut.position]
  · simp [ChunkState.appendKnown, cut.position]
  · simp [ChunkState.appendKnown, cut.counted]

/-- scanStep moves bytes into the pending chunk and changes nothing else. -/
theorem scanStep_cases (c : ChunkState) (b : Bytes) :
    (∃ next, c.scanStep b =
        ({ c with C := next, currentChunk := c.currentChunk ++ b }, none)) ∨
      ∃ next cutAt, 0 < cutAt ∧ cutAt ≤ b.length ∧ c.scanStep b =
        ({ c with C := next, currentChunk := c.currentChunk ++ b.take cutAt },
          some (b.drop cutAt)) := by
  unfold ChunkState.scanStep
  have bound := scan_le c.C b
  cases scanned : c.C.scan b with
  | mk chunkpos next =>
      rw [scanned] at bound
      by_cases none : chunkpos = 0
      · exact Or.inl ⟨next, by simp [none]⟩
      · exact Or.inr ⟨next, chunkpos, Nat.pos_of_ne_zero none, bound, by simp [none]⟩

theorem scanStep_shorter (c : ChunkState) (b more : Bytes)
    (found : (c.scanStep b).2 = some more) : more.length < b.length := by
  rcases scanStep_cases c b with ⟨next, same⟩ | ⟨next, cutAt, positive, inside, same⟩
  · simp [same] at found
  · rw [same] at found
    cases found
    rw [List.length_drop]
    omega

/-- HandleData with no upload error on the way, and the jobs it sends. -/
def ChunkState.handleData (c : ChunkState) (b : Bytes) : ChunkState × List UploadJob :=
  match _found : c.scanStep b with
  | (next, none) => (next, [])
  | (next, some more) =>
      let queued := next.queue
      let rest := queued.1.handleData more
      (rest.1, queued.2 :: rest.2)
termination_by b.length
decreasing_by exact scanStep_shorter c b more (by rw [_found])

/-- emitCurrent with no upload error. -/
def ChunkState.emitCurrent (c : ChunkState) : ChunkState × List UploadJob :=
  if c.currentChunk.length = 0 then (c, [])
  else
    let queued := c.queue
    (queued.1, [queued.2])

def ChunkState.suggestBoundary (c : ChunkState) : ChunkState × List UploadJob :=
  let n := c.currentChunk.length
  if n < c.C.chunkSizeMin ∨ n > c.C.chunkSizeMax then (c, [])
  else
    let emitted := c.emitCurrent
    (emitted.1.resetChunker, emitted.2)

def ChunkState.forceBoundary (c : ChunkState) : ChunkState × List UploadJob :=
  let emitted := c.emitCurrent
  (emitted.1.resetChunker, emitted.2)

/-- The stream so far: the chunks cut and the bytes pending behind them. -/
def streamOf (c : ChunkState) (chunks : List Bytes) : Bytes :=
  chunks.flatten ++ c.currentChunk

/-- An operation that cut `jobs` and took `added` in: the chunks still lie one
after the other and the stream grew by exactly `added`. -/
structure Extends (c : ChunkState) (chunks : List Bytes) (added : Bytes)
    (result : ChunkState × List UploadJob) : Prop where
  cut : Cut result.1 (chunks ++ result.2.map UploadJob.data)
  stream : streamOf result.1 (chunks ++ result.2.map UploadJob.data) =
    streamOf c chunks ++ added

theorem handleData_extends (c : ChunkState) (b : Bytes) (chunks : List Bytes)
    (cut : Cut c chunks) : Extends c chunks b (c.handleData b) := by
  rw [ChunkState.handleData]
  rcases scanStep_cases c b with ⟨C, same⟩ | ⟨C, cutAt, positive, inside, same⟩
  · split
    · next next found =>
        rw [same] at found
        cases found
        refine ⟨?_, ?_⟩
        · rw [List.map_nil, List.append_nil]
          exact cut.of_frame rfl rfl rfl
        · simp [streamOf]
    · next next more found => simp [same] at found
  · split
    · next next found => simp [same] at found
    · next next more found =>
        rw [same] at found
        cases found
        have moved : Cut { c with C := C, currentChunk := c.currentChunk ++ b.take cutAt } chunks :=
          cut.of_frame rfl rfl rfl
        have queued := queue_cut _ chunks moved
        have rest := handleData_extends _ (b.drop cutAt) _ queued
        refine ⟨?_, ?_⟩
        · simpa [List.append_assoc, ChunkState.queue] using rest.cut
        · have stream := rest.stream
          simp only [streamOf, ChunkState.queue, List.map_cons, List.append_assoc,
            List.singleton_append, List.flatten_append, List.flatten_cons, List.flatten_nil,
            List.append_nil] at stream ⊢
          rw [stream, List.take_append_drop]
termination_by b.length
decreasing_by
  rw [List.length_drop]
  omega

theorem emitCurrent_extends (c : ChunkState) (chunks : List Bytes) (cut : Cut c chunks) :
    Extends c chunks [] c.emitCurrent ∧ c.emitCurrent.1.currentChunk = [] := by
  unfold ChunkState.emitCurrent
  split
  · next empty =>
      have nothing := List.eq_nil_of_length_eq_zero empty
      exact ⟨⟨by simpa using cut, by simp⟩, nothing⟩
  · exact ⟨⟨queue_cut c chunks cut, by simp [streamOf, ChunkState.queue]⟩, rfl⟩

theorem forceBoundary_extends (c : ChunkState) (chunks : List Bytes) (cut : Cut c chunks) :
    Extends c chunks [] c.forceBoundary ∧ c.forceBoundary.1.currentChunk = [] := by
  obtain ⟨emitted, nothing⟩ := emitCurrent_extends c chunks cut
  exact ⟨⟨emitted.cut.of_frame rfl rfl rfl, emitted.stream⟩, nothing⟩

theorem suggestBoundary_extends (c : ChunkState) (chunks : List Bytes) (cut : Cut c chunks) :
    Extends c chunks [] c.suggestBoundary := by
  simp only [ChunkState.suggestBoundary]
  split
  · exact ⟨by simpa using cut, by simp⟩
  · exact (forceBoundary_extends c chunks cut).1

end ProxmoxBackup.DynamicChunks
