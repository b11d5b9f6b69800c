import ProxmoxBackup.DynamicChunks
import ProxmoxBackup.PxarFormat
import ProxmoxBackup.Slices
import ProxmoxBackup.TransitionSystem

/-! Metadata change detection: the planner of payload_reuse.go and the archive
writer's payload side (flushPayload, beginPayload, tryReuseFile, WriteFile),
over the ChunkState of the payload stream. The padding budget, a product of
floats in the source, is an arbitrary function of the reused bytes. An error of
any callback ends the archive: the step that meets it has no result. -/

namespace ProxmoxBackup.PayloadReuse

open DynamicChunks PxarFormat Slices TransitionSystem

variable {chunkDigest : Bytes → Digest}

/-- What entryMetaFor and Lstat say about a file. -/
structure FileInfo where
  mode : Nat
  uid : Nat
  gid : Nat
  secs : Int
  nanos : Nat
  size : Nat
  deriving DecidableEq

structure PreviousFile where
  Mode : Nat
  UID : Nat
  GID : Nat
  Secs : Int
  Nanos : Nat
  Size : Nat
  Offset : Nat

/-- The previous snapshot's files and its payload index: `chunks` are the index
entries with the data they name. -/
structure PreviousSplitArchive (chunkDigest : Bytes → Digest) where
  Files : Bytes → Option PreviousFile
  chunks : List (KnownChunk chunkDigest)

namespace PreviousSplitArchive

def datas (prev : PreviousSplitArchive chunkDigest) : List Bytes := prev.chunks.map KnownChunk.data

/-- The previous payload stream. -/
def stream (prev : PreviousSplitArchive chunkDigest) : Bytes := prev.datas.flatten

def digests (prev : PreviousSplitArchive chunkDigest) : List Digest :=
  prev.chunks.map KnownChunk.digest

def ends (prev : PreviousSplitArchive chunkDigest) : List Nat :=
  (layout 0 prev.datas).map fun place => place.1 + place.2

def PayloadSize (prev : PreviousSplitArchive chunkDigest) : Nat :=
  if prev.ends.length = 0 then 0 else prev.ends.getD (prev.ends.length - 1) 0

def chunkStart (prev : PreviousSplitArchive chunkDigest) (i : Nat) : Nat :=
  if i = 0 then 0 else prev.ends.getD (i - 1) 0

/-- sort.Search over the increasing ends. -/
def chunkAt (prev : PreviousSplitArchive chunkDigest) (off : Nat) : Nat :=
  prev.ends.findIdx fun e => e > off

end PreviousSplitArchive

structure ReuseStats where
  Files : Nat
  Bytes : Nat
  Padding : Nat
  Chunks : Nat
  ChunkBytes : Nat
  Candidates : Nat
  OverPadding : Nat

structure Planner where
  run : Bool
  runPrevStart : Nat
  runNewStart : Nat
  lastIdx : Int
  lastEnd : Nat
  Stats : ReuseStats

/-- NewPayloadReuse -/
def Planner.new : Planner := ⟨false, 0, 0, -1, 0, ⟨0, 0, 0, 0, 0, 0, 0⟩⟩

def Planner.trail (prev : PreviousSplitArchive chunkDigest) (r : Planner) : Nat :=
  if r.run = false ∨ r.lastIdx < 0 then 0
  else prev.ends.getD r.lastIdx.toNat 0 - r.lastEnd

def Planner.pad (r : Planner) (padding : Nat) : Planner :=
  { r with Stats := { r.Stats with Padding := r.Stats.Padding + padding } }

def Planner.Break (prev : PreviousSplitArchive chunkDigest) (r : Planner) : Planner :=
  if r.run then { r.pad (r.trail prev) with run := false } else r

/-- Lookup -/
def lookup (prev : PreviousSplitArchive chunkDigest) (rel : Bytes) (info : FileInfo) :
    Option PreviousFile :=
  match prev.Files rel with
  | none => none
  | some pf =>
      if pf.Size ≠ info.size ∨ pf.Mode ≠ info.mode ∨ pf.UID ≠ info.uid ∨ pf.GID ≠ info.gid ∨
          pf.Secs ≠ info.secs ∨ pf.Nanos ≠ info.nanos then none
      else some pf

/-- The payload stream's ChunkState and the data of the chunks cut so far. -/
structure PayloadStream where
  chunk : ChunkState
  data : List Bytes

namespace PayloadStream

def new : PayloadStream := ⟨ChunkState.init, []⟩

def stream (p : PayloadStream) : Bytes := streamOf p.chunk p.data

def cutInto (p : PayloadStream) (result : ChunkState × List UploadJob) : PayloadStream :=
  ⟨result.1, p.data ++ result.2.map UploadJob.data⟩

def handleData (p : PayloadStream) (b : Bytes) : PayloadStream :=
  p.cutInto (p.chunk.handleData b)

def suggestBoundary (p : PayloadStream) : PayloadStream := p.cutInto p.chunk.suggestBoundary

def forceBoundary (p : PayloadStream) : PayloadStream := p.cutInto p.chunk.forceBoundary

/-- Eof's emitCurrent. -/
def emitCurrent (p : PayloadStream) : PayloadStream := p.cutInto p.chunk.emitCurrent

/-- InjectKnownChunk; `data` is what the server holds under the digest. -/
def injectKnownChunk (registered : Digest → Bool) (p : PayloadStream) (digest : Digest)
    (size : Nat) (data : Bytes) : Option PayloadStream :=
  if p.chunk.currentChunk.length ≠ 0 then none
  else if registered digest = false then none
  else some ⟨p.chunk.appendKnown digest size, p.data ++ [data]⟩

end PayloadStream

/-- The loop of Reuse: `count` chunks of the previous index from `k` on, with
how many bytes they add. -/
def injectChunks (prev : PreviousSplitArchive chunkDigest) (registered : Digest → Bool)
    (count k : Nat) (r : Planner) (p : PayloadStream) (injected : Nat) :
    Option (Planner × PayloadStream × Nat) :=
  match count with
  | 0 => some (r, p, injected)
  | count + 1 =>
      let size := prev.ends.getD k 0 - prev.chunkStart k
      match p.injectKnownChunk registered (prev.digests.getD k zeroDigest) size
          (prev.datas.getD k []) with
      | none => none
      | some next =>
          let stats := { r.Stats with
            Chunks := r.Stats.Chunks + 1, ChunkBytes := r.Stats.ChunkBytes + size }
          injectChunks prev registered count (k + 1) { r with Stats := stats } next
            (injected + size)

/-- The planner at the start of a run: what Reuse does when it does not continue one. -/
def Planner.startRun (prev : PreviousSplitArchive chunkDigest) (r : Planner) (ci s : Nat)
    (payloadPos : Nat) : Planner :=
  let broken := r.Break prev
  Planner.pad { broken with
    run := true
    runPrevStart := prev.chunkStart ci
    runNewStart := payloadPos
    lastIdx := ci - 1
    lastEnd := s } (s - prev.chunkStart ci)

def Planner.continues (r : Planner) (ci s : Nat) : Bool :=
  r.run && decide (s ≥ r.lastEnd) && decide ((ci : Int) ≤ r.lastIdx + 1)

/-- The end of Reuse: the run now reaches `e`, in chunk `cj`. -/
def Planner.reached (r : Planner) (cj s e : Nat) : Planner :=
  { r with
    lastIdx := if (cj : Int) > r.lastIdx then cj else r.lastIdx
    lastEnd := e
    Stats := { r.Stats with Files := r.Stats.Files + 1, Bytes := r.Stats.Bytes + (e - s) } }

/-- The padding a file adds in front of itself. -/
def Planner.lead (prev : PreviousSplitArchive chunkDigest) (r : Planner) (ci s : Nat) : Nat :=
  if r.continues ci s then s - r.lastEnd else s - prev.chunkStart ci + r.trail prev

/-- Reuse before its loop: the run continued, or a new one behind a chunk boundary. -/
def Planner.prepare (prev : PreviousSplitArchive chunkDigest) (r : Planner) (p : PayloadStream)
    (ci s payloadPos : Nat) : Planner × PayloadStream :=
  if r.continues ci s then (r.pad (s - r.lastEnd), p)
  else (r.startRun prev ci s payloadPos, p.forceBoundary)

def Planner.candidate (r : Planner) : Planner :=
  { r with Stats := { r.Stats with Candidates := r.Stats.Candidates + 1 } }

def Planner.overPadding (r : Planner) : Planner :=
  { r with Stats := { r.Stats with OverPadding := r.Stats.OverPadding + 1 } }

/-- Reuse: none is an error, an inner none a file to be read and written
normally, else its new offset and the bytes injected. -/
def reuse (prev : PreviousSplitArchive chunkDigest) (budget : Nat → Nat)
    (registered : Digest → Bool) (r : Planner) (p : PayloadStream) (pf : PreviousFile)
    (payloadPos : Nat) : Option (Planner × PayloadStream × Option (Nat × Nat)) :=
  let r := r.candidate
  let s := pf.Offset
  let e := s + 16 + pf.Size
  if e > prev.PayloadSize then some (r, p, none)
  else
    let ci := prev.chunkAt s
    let cj := prev.chunkAt (e - 1)
    let lead := r.lead prev ci s
    if lead > 0 ∧ r.Stats.Padding + lead > budget (r.Stats.Bytes + (e - s)) then
      some (r.overPadding, p, none)
    else
      let ready := r.prepare prev p ci s payloadPos
      let first := (ready.1.lastIdx + 1).toNat
      match injectChunks prev registered (cj + 1 - first) first ready.1 ready.2 0 with
      | none => none
      | some (r, p, injected) =>
          some (r.reached cj s e, p, some (r.runNewStart + (s - r.runPrevStart), injected))

/-- Where a PXAR_PAYLOAD_REF's record comes from. -/
inductive PayloadSource where
  | written (content : Bytes)
  | reused (pf : PreviousFile)

structure PayloadRef where
  offset : Nat
  size : Nat
  source : PayloadSource

/-- The payload side of PXARArchive; `refs` are the references in the meta archive. -/
structure Writer where
  payload : PayloadStream
  payloadBuffer : Bytes
  payloadPos : Nat
  reuse : Planner
  refs : List PayloadRef

def Writer.new : Writer := ⟨PayloadStream.new, [], 0, Planner.new, []⟩

/-- The loop of flushPayload: 64 KiB at a time to the chunk layer. -/
def Writer.drain (w : Writer) : Writer :=
  if w.payloadBuffer.length = 0 then w
  else
    let b := w.payloadBuffer.take (64 * 1024)
    Writer.drain { w with
      payloadBuffer := w.payloadBuffer.drop (64 * 1024)
      payload := w.payload.handleData b
      payloadPos := w.payloadPos + b.length }
termination_by w.payloadBuffer.length
decreasing_by
  rw [List.length_drop]
  omega

def Writer.flushPayload (prev : PreviousSplitArchive chunkDigest) (w : Writer) : Writer :=
  let wrote := w.payloadBuffer.length > 0
  let drained := w.drain
  if wrote then { drained with reuse := drained.reuse.Break prev } else drained

def Writer.write (prev : PreviousSplitArchive chunkDigest) (w : Writer) (b : Bytes) : Writer :=
  Writer.flushPayload prev { w with payloadBuffer := w.payloadBuffer ++ b }

/-- beginPayload of a split archive. -/
def Writer.beginPayload (prev : PreviousSplitArchive chunkDigest) (w : Writer) (content : Bytes) :
    Writer :=
  let size := content.length
  let flushed := w.flushPayload prev
  let ref : PayloadRef := ⟨flushed.payloadPos, size, .written content⟩
  let hinted := { flushed with
    refs := flushed.refs ++ [ref], payload := flushed.payload.suggestBoundary }
  hinted.write prev (header PXAR_PAYLOAD (size + 16))

/-- WriteFile of a file that is read: `pieces` are what its read loop and the
padding write, declaredSize bytes in all. -/
def Writer.writeFile (prev : PreviousSplitArchive chunkDigest) (w : Writer) (pieces : List Bytes) :
    Writer :=
  pieces.foldl (Writer.write prev) (w.beginPayload prev pieces.flatten)

/-- tryReuseFile; a file that is not reused leaves the writer flushed. -/
def Writer.tryReuseFile (prev : PreviousSplitArchive chunkDigest) (budget : Nat → Nat)
    (registered : Digest → Bool) (w : Writer) (rel : Bytes) (info : FileInfo) : Option Writer :=
  match lookup prev rel info with
  | none => some w
  | some pf =>
      let flushed := w.flushPayload prev
      match PayloadReuse.reuse prev budget registered flushed.reuse flushed.payload pf
          flushed.payloadPos with
      | none => none
      | some (r, p, none) => some { flushed with reuse := r, payload := p }
      | some (r, p, some (newOffset, injected)) =>
          some { flushed with
            reuse := r
            payload := p
            payloadPos := flushed.payloadPos + injected
            refs := flushed.refs ++ [⟨newOffset, info.size, .reused pf⟩] }

/-- One payload operation of the archive writer. `registered` are the chunks the
session knows at that moment. -/
inductive WriterAction where
  | startMarker
  | tryReuseFile (rel : Bytes) (info : FileInfo) (registered : Digest → Bool)
  | writeFile (pieces : List Bytes)
  | tailMarker
  | eof

def writerStep (prev : PreviousSplitArchive chunkDigest) (budget : Nat → Nat) (w : Writer) :
    WriterAction → Option Writer
  | .startMarker => some (w.write prev (header PXAR_PAYLOAD_START_MARKER 16))
  | .tryReuseFile rel info registered => w.tryReuseFile prev budget registered rel info
  | .writeFile pieces => some (w.writeFile prev pieces)
  | .tailMarker => some (w.write prev (header PXAR_PAYLOAD_TAIL_MARKER 16))
  | .eof => some { w with payload := w.payload.emitCurrent }

def writerSystem (prev : PreviousSplitArchive chunkDigest) (budget : Nat → Nat) :
    System Writer WriterAction where
  start w := w = Writer.new
  step before action after := writerStep prev budget before action = some after

theorem layout_getElem? (offset : Nat) (chunks : List Bytes) (i : Nat) :
    (layout offset chunks)[i]? =
      chunks[i]?.map fun data => (offset + (chunks.take i).flatten.length, data.length) := by
  induction chunks generalizing offset i with
  | nil => simp [layout]
  | cons data rest ih =>
      cases i with
      | zero => simp [layout]
      | succ i => simp [layout, ih, Nat.add_assoc]

namespace PreviousSplitArchive

variable (prev : PreviousSplitArchive chunkDigest)

@[simp] theorem ends_length : prev.ends.length = prev.datas.length := by
  simp [ends, layout_length]

theorem ends_getElem? (i : Nat) (inside : i < prev.datas.length) :
    prev.ends[i]? = some ((prev.datas.take (i + 1)).flatten.length) := by
  have more : prev.datas.take (i + 1) = prev.datas.take i ++ [prev.datas[i]] := by
    rw [List.take_add_one, List.getElem?_eq_getElem inside, Option.toList_some]
  rw [ends, List.getElem?_map, layout_getElem?, List.getElem?_eq_getElem inside, more,
    List.flatten_append, List.length_append]
  simp

theorem chunkStart_eq (i : Nat) (inside : i ≤ prev.datas.length) :
    prev.chunkStart i = (prev.datas.take i).flatten.length := by
  cases i with
  | zero => simp [chunkStart]
  | succ i =>
      simp [chunkStart, List.getD_eq_getElem?_getD, prev.ends_getElem? i inside]

theorem ends_getD (i : Nat) : prev.ends.getD i 0 = prev.chunkStart (i + 1) := by
  simp [chunkStart]

theorem payloadSize_eq : prev.PayloadSize = prev.stream.length := by
  unfold PayloadSize stream
  by_cases empty : prev.datas.length = 0
  · rw [if_pos (by rwa [ends_length]), List.eq_nil_of_length_eq_zero empty]
    rfl
  · have inside : prev.datas.length - 1 < prev.datas.length := by omega
    rw [if_neg (by rwa [ends_length]), ends_length, List.getD_eq_getElem?_getD,
      prev.ends_getElem? _ inside, Nat.sub_add_cancel (by omega), List.take_length]
    rfl

theorem chunkStart_mono {i j : Nat} (ordered : i ≤ j) (inside : j ≤ prev.datas.length) :
    prev.chunkStart i ≤ prev.chunkStart j := by
  rw [prev.chunkStart_eq i (by omega), prev.chunkStart_eq j inside]
  have split : prev.datas.take j = prev.datas.take i ++ (prev.datas.drop i).take (j - i) := by
    rw [← List.take_add, Nat.add_sub_cancel' ordered]
  rw [split, List.flatten_append, List.length_append]
  omega

/-- An offset of the stream lies in the chunk that chunkAt finds. -/
theorem chunkAt_spec (off : Nat) (inside : off < prev.stream.length) :
    prev.chunkAt off < prev.datas.length ∧ prev.chunkStart (prev.chunkAt off) ≤ off ∧
      off < prev.chunkStart (prev.chunkAt off + 1) := by
  have reaches : ∃ e ∈ prev.ends, e > off := by
    have size := prev.payloadSize_eq
    unfold PayloadSize at size
    split at size
    · omega
    · next filled =>
        have last : prev.ends.length - 1 < prev.ends.length := by omega
        rw [List.getD_eq_getElem?_getD, List.getElem?_eq_getElem last, Option.getD_some] at size
        exact ⟨_, List.getElem_mem last, by omega⟩
  have found : prev.chunkAt off < prev.ends.length := by
    apply List.findIdx_lt_length_of_exists
    obtain ⟨e, member, past⟩ := reaches
    exact ⟨e, member, by simpa using past⟩
  have within := prev.ends_length ▸ found
  have past : off < prev.ends[prev.chunkAt off] := by
    have holds := List.findIdx_getElem (w := found)
    exact of_decide_eq_true holds
  refine ⟨within, ?_, ?_⟩
  · cases at_ : prev.chunkAt off with
    | zero => simp [chunkStart]
    | succ i =>
        have before : i < List.findIdx (fun e => decide (e > off)) prev.ends := by
          have : i < prev.chunkAt off := by omega
          exact this
        have short := List.not_of_lt_findIdx before
        have inside : i < prev.ends.length := by omega
        simp only [chunkStart, Nat.add_one_ne_zero, if_false, Nat.add_sub_cancel,
          List.getD_eq_getElem?_getD, List.getElem?_eq_getElem inside, Option.getD_some]
        simpa using short
  · have same := prev.ends_getD (prev.chunkAt off)
    rw [List.getD_eq_getElem?_getD, List.getElem?_eq_getElem found, Option.getD_some] at same
    omega

/-- Chunks `first` to `next - 1`. -/
def range (first next : Nat) : Bytes := ((prev.datas.take next).drop first).flatten

theorem range_grow {first next : Nat} (count : Nat) (ordered : first ≤ next)
    (inside : next ≤ prev.datas.length) :
    prev.range first (next + count) =
      prev.range first next ++ ((prev.datas.drop next).take count).flatten := by
  unfold range
  rw [List.take_add, List.drop_append_of_le_length, List.flatten_append]
  rw [List.length_take]
  omega

theorem range_nil (first : Nat) : prev.range first first = [] := by
  simp [range]

theorem stream_split {first next : Nat} (ordered : first ≤ next) :
    prev.stream = (prev.datas.take first).flatten ++ prev.range first next ++
      (prev.datas.drop next).flatten := by
  have inner : prev.datas.take first = (prev.datas.take next).take first := by
    rw [List.take_take, Nat.min_eq_left ordered]
  rw [range, stream, inner, ← List.flatten_append, List.take_append_drop, ← List.flatten_append,
    List.take_append_drop]

theorem range_length {first next : Nat} (ordered : first ≤ next)
    (inside : next ≤ prev.datas.length) :
    prev.chunkStart first + (prev.range first next).length = prev.chunkStart next := by
  rw [prev.chunkStart_eq first (by omega), prev.chunkStart_eq next inside, ← List.length_append,
    range, ← List.flatten_append]
  have inner : prev.datas.take first = (prev.datas.take next).take first := by
    rw [List.take_take, Nat.min_eq_left ordered]
  rw [inner, List.take_append_drop]

end PreviousSplitArchive

namespace PayloadStream

/-- The index entries lie one after the other over the chunks cut. -/
def Sound (p : PayloadStream) : Prop := Cut p.chunk p.data

/-- A sound stream that grew by `added`. -/
structure Grown (before : PayloadStream) (added : Bytes) (after : PayloadStream) : Prop where
  sound : after.Sound
  stream : after.stream = before.stream ++ added

theorem Grown.refl {p : PayloadStream} (sound : p.Sound) : Grown p [] p := ⟨sound, by simp⟩

theorem Grown.trans {first middle last : PayloadStream} {more rest : Bytes}
    (left : Grown first more middle) (right : Grown middle rest last) :
    Grown first (more ++ rest) last :=
  ⟨right.sound, by rw [right.stream, left.stream, List.append_assoc]⟩

theorem cutInto_grown (p : PayloadStream) (added : Bytes) (result : ChunkState × List UploadJob)
    (extends_ : Extends p.chunk p.data added result) : Grown p added (p.cutInto result) :=
  ⟨extends_.cut, extends_.stream⟩

theorem handleData_grown (p : PayloadStream) (b : Bytes) (sound : p.Sound) :
    Grown p b (p.handleData b) :=
  cutInto_grown p b _ (handleData_extends p.chunk b p.data sound)

theorem suggestBoundary_grown (p : PayloadStream) (sound : p.Sound) :
    Grown p [] p.suggestBoundary :=
  cutInto_grown p [] _ (suggestBoundary_extends p.chunk p.data sound)

theorem forceBoundary_grown (p : PayloadStream) (sound : p.Sound) :
    Grown p [] p.forceBoundary ∧ p.forceBoundary.chunk.currentChunk = [] := by
  obtain ⟨grown, empty⟩ := forceBoundary_extends p.chunk p.data sound
  exact ⟨cutInto_grown p [] _ grown, empty⟩

theorem emitCurrent_grown (p : PayloadStream) (sound : p.Sound) : Grown p [] p.emitCurrent :=
  cutInto_grown p [] _ (emitCurrent_extends p.chunk p.data sound).1

theorem injectKnownChunk_grown (registered : Digest → Bool) (p next : PayloadStream)
    (digest : Digest) (data : Bytes) (sound : p.Sound)
    (injected : p.injectKnownChunk registered digest data.length data = some next) :
    Grown p data next ∧ next.chunk.currentChunk = [] := by
  unfold injectKnownChunk at injected
  split at injected
  · cases injected
  · next pending =>
      split at injected
      · cases injected
      · cases injected
        have empty : p.chunk.currentChunk = [] := by simpa using pending
        refine ⟨⟨appendKnown_cut p.chunk p.data digest data sound, ?_⟩, empty⟩
        simp [stream, streamOf, ChunkState.appendKnown, empty]

end PayloadStream

/-- The fields of a run, which the counters do not touch. -/
structure SameRun (before after : Planner) : Prop where
  run : after.run = before.run
  prevStart : after.runPrevStart = before.runPrevStart
  newStart : after.runNewStart = before.runNewStart
  lastIdx : after.lastIdx = before.lastIdx
  lastEnd : after.lastEnd = before.lastEnd

theorem injectChunks_grown (prev : PreviousSplitArchive chunkDigest) (registered : Digest → Bool)
    (count k : Nat) (r r' : Planner) (p p' : PayloadStream) (injected injected' : Nat)
    (sound : p.Sound) (empty : p.chunk.currentChunk = []) (inside : k + count ≤ prev.datas.length)
    (done : injectChunks prev registered count k r p injected = some (r', p', injected')) :
    PayloadStream.Grown p ((prev.datas.drop k).take count).flatten p' ∧
      p'.chunk.currentChunk = [] ∧ SameRun r r' ∧
      injected' = injected + ((prev.datas.drop k).take count).flatten.length := by
  induction count generalizing k r p injected with
  | zero =>
      cases done
      exact ⟨by simpa using PayloadStream.Grown.refl sound, empty, ⟨rfl, rfl, rfl, rfl, rfl⟩, by simp⟩
  | succ count ih =>
      have within : k < prev.datas.length := by omega
      have size : prev.ends.getD k 0 - prev.chunkStart k = prev.datas[k].length := by
        rw [prev.ends_getD, prev.chunkStart_eq (k + 1) within, prev.chunkStart_eq k (by omega),
          List.take_add_one, List.getElem?_eq_getElem within, List.flatten_append,
          List.length_append]
        simp
      have data : prev.datas.getD k [] = prev.datas[k] := by
        rw [List.getD_eq_getElem?_getD, List.getElem?_eq_getElem within, Option.getD_some]
      simp only [injectChunks, size, data] at done
      split at done
      · cases done
      · next next step =>
          obtain ⟨first, nothing⟩ :=
            PayloadStream.injectKnownChunk_grown registered p next _ _ sound step
          obtain ⟨rest, pending, same, total⟩ :=
            ih (k + 1) _ next _ first.sound nothing (by omega) done
          have split : (prev.datas.drop k).take (count + 1) =
              prev.datas[k] :: (prev.datas.drop (k + 1)).take count := by
            rw [List.drop_eq_getElem_cons within, List.take_succ_cons]
          rw [split, List.flatten_cons]
          refine ⟨first.trans rest, pending, ⟨same.run, same.prevStart, same.newStart,
            same.lastIdx, same.lastEnd⟩, ?_⟩
          rw [total, List.length_append]
          omega

/-- A run in progress: chunks `first` to `next - 1` of the previous index are the
end of the new stream, from `runNewStart` on. -/
structure Running (prev : PreviousSplitArchive chunkDigest) (r : Planner) (p : PayloadStream)
    (first next : Nat) : Prop where
  lastIdx : r.lastIdx + 1 = next
  ordered : first ≤ next
  inside : next ≤ prev.datas.length
  prevStart : r.runPrevStart = prev.chunkStart first
  reached : r.runPrevStart ≤ r.lastEnd
  tail : ∃ front, p.stream = front ++ prev.range first next ∧ front.length = r.runNewStart
  nothingPending : p.chunk.currentChunk = []

/-- What the planner knows: nothing, or the run at the end of the stream. -/
def PlannerSound (prev : PreviousSplitArchive chunkDigest) (r : Planner) (p : PayloadStream) :
    Prop :=
  r.run = true → ∃ first next, Running prev r p first next

theorem Planner.break_run (prev : PreviousSplitArchive chunkDigest) (r : Planner) :
    (r.Break prev).run = false := by
  unfold Planner.Break
  split
  · rfl
  · next idle => simpa using idle

theorem PlannerSound.same {prev : PreviousSplitArchive chunkDigest} {r r' : Planner}
    {p : PayloadStream} (sound : PlannerSound prev r p) (same : SameRun r r') :
    PlannerSound prev r' p := by
  intro run
  obtain ⟨first, next, running⟩ := sound (same.run ▸ run)
  exact ⟨first, next, same.lastIdx ▸ running.lastIdx, running.ordered, running.inside,
    same.prevStart ▸ running.prevStart, by
      rw [same.prevStart, same.lastEnd]
      exact running.reached, same.newStart ▸ running.tail, running.nothingPending⟩

/-- What an accepted reuse leaves behind. -/
structure Accepted (prev : PreviousSplitArchive chunkDigest) (p p' : PayloadStream)
    (r' : Planner) (pf : PreviousFile) (newOffset injected : Nat) : Prop where
  grown : ∃ added, PayloadStream.Grown p added p' ∧ added.length = injected
  planner : PlannerSound prev r' p'
  inside : newOffset + (16 + pf.Size) ≤ p'.stream.length
  bytes : slice p'.stream newOffset (16 + pf.Size) = slice prev.stream pf.Offset (16 + pf.Size)

/-- The run reads the same in the new stream as in the previous one. -/
theorem Running.reads {prev : PreviousSplitArchive chunkDigest} {r : Planner} {p : PayloadStream}
    {first next : Nat} (running : Running prev r p first next) (s size : Nat)
    (start : r.runPrevStart ≤ s) (stop : s + size ≤ prev.chunkStart next) :
    r.runNewStart + (s - r.runPrevStart) + size ≤ p.stream.length ∧
      slice p.stream (r.runNewStart + (s - r.runPrevStart)) size = slice prev.stream s size := by
  obtain ⟨front, stream, length⟩ := running.tail
  have extent := prev.range_length running.ordered running.inside
  have prevStart := running.prevStart
  refine ⟨?_, ?_⟩
  · rw [stream, List.length_append]
    omega
  · have shared := slice_shared front (prev.datas.take first).flatten (prev.range first next) []
      (prev.datas.drop next).flatten (s - r.runPrevStart) size (by omega)
    rw [List.append_nil, ← stream, length, ← prev.stream_split running.ordered,
      ← prev.chunkStart_eq first (by have := running.ordered; have := running.inside; omega),
      ← prevStart, Nat.add_sub_cancel' start] at shared
    exact shared

/-- Before the chunks are appended a run stands at the end of the stream,
continued or new; a new one holds no chunk yet. -/
theorem prepare_running (prev : PreviousSplitArchive chunkDigest) (r : Planner)
    (p : PayloadStream) (ci s payloadPos : Nat) (sound : p.Sound)
    (planner : PlannerSound prev r p) (position : payloadPos = p.stream.length)
    (inside : ci ≤ prev.datas.length) (start : prev.chunkStart ci ≤ s) :
    PayloadStream.Grown p [] (r.prepare prev p ci s payloadPos).2 ∧
      (r.prepare prev p ci s payloadPos).1.runPrevStart ≤ s ∧
        ∃ first next, Running prev (r.prepare prev p ci s payloadPos).1
          (r.prepare prev p ci s payloadPos).2 first next := by
  unfold Planner.prepare
  split
  · next continuing =>
      simp only [Planner.continues, Bool.and_eq_true, decide_eq_true_eq] at continuing
      obtain ⟨⟨run, after⟩, _⟩ := continuing
      obtain ⟨first, next, running⟩ := planner run
      have reached := running.reached
      refine ⟨.refl sound, ?_, first, next, ⟨running.lastIdx, running.ordered, running.inside,
        running.prevStart, running.reached, running.tail, running.nothingPending⟩⟩
      exact le_trans reached after
  · obtain ⟨grown, empty⟩ := PayloadStream.forceBoundary_grown p sound
    refine ⟨grown, start, ci, ci, ⟨?_, le_refl ci, inside, rfl, start, ⟨p.stream, ?_, position.symm⟩,
      empty⟩⟩
    · simp [Planner.startRun, Planner.pad]
    · rw [grown.stream, prev.range_nil]

/-- The appended chunks extend the run up to the chunk that holds the record's end. -/
theorem injected_running (prev : PreviousSplitArchive chunkDigest) (registered : Digest → Bool)
    (r r' : Planner) (p p' : PayloadStream) (first next cj s e injected : Nat)
    (running : Running prev r p first next) (sound : p.Sound) (held : cj < prev.datas.length)
    (start : r.runPrevStart ≤ s) (forward : s ≤ e)
    (done : injectChunks prev registered (cj + 1 - next) next r p 0 = some (r', p', injected)) :
    (∃ added, PayloadStream.Grown p added p' ∧ added.length = injected) ∧
      Running prev (r'.reached cj s e) p' first (max next (cj + 1)) ∧ SameRun r r' := by
  have inside := running.inside
  obtain ⟨grown, pending, same, total⟩ := injectChunks_grown prev registered (cj + 1 - next) next
    r r' p p' 0 injected sound running.nothingPending (by omega) done
  have lastIdx := running.lastIdx
  have extent : next + (cj + 1 - next) = max next (cj + 1) := by omega
  refine ⟨⟨_, grown, by omega⟩, ⟨?_, ?_, ?_, ?_, ?_, ?_, pending⟩, same⟩
  · simp only [Planner.reached, same.lastIdx]
    split <;> omega
  · have := running.ordered
    omega
  · omega
  · exact same.prevStart.trans running.prevStart
  · simp only [Planner.reached, same.prevStart]
    omega
  · obtain ⟨front, stream, length⟩ := running.tail
    refine ⟨front, ?_, length.trans same.newStart.symm⟩
    rw [grown.stream, stream, ← extent, prev.range_grow _ running.ordered inside,
      List.append_assoc]

theorem reuse_sound (prev : PreviousSplitArchive chunkDigest) (budget : Nat → Nat)
    (registered : Digest → Bool) (r r' : Planner) (p p' : PayloadStream) (pf : PreviousFile)
    (payloadPos : Nat) (outcome : Option (Nat × Nat)) (sound : p.Sound)
    (planner : PlannerSound prev r p) (position : payloadPos = p.stream.length)
    (done : reuse prev budget registered r p pf payloadPos = some (r', p', outcome)) :
    match outcome with
    | none => p' = p ∧ PlannerSound prev r' p
    | some (newOffset, injected) => Accepted prev p p' r' pf newOffset injected := by
  have counted : PlannerSound prev r.candidate p := planner.same ⟨rfl, rfl, rfl, rfl, rfl⟩
  simp only [reuse] at done
  split at done
  · cases done
    exact ⟨rfl, counted⟩
  · next within =>
      rw [prev.payloadSize_eq] at within
      split at done
      · cases done
        exact ⟨rfl, counted.same ⟨rfl, rfl, rfl, rfl, rfl⟩⟩
      · have recordEnd : pf.Offset + 16 + pf.Size - 1 < prev.stream.length := by omega
        obtain ⟨ciHeld, ciStart, _⟩ := prev.chunkAt_spec pf.Offset (by omega)
        obtain ⟨cjHeld, _, cjStop⟩ := prev.chunkAt_spec _ recordEnd
        obtain ⟨ready, start, first, next, running⟩ :=
          prepare_running prev r.candidate p _ _ payloadPos sound counted position
            (Nat.le_of_lt ciHeld) ciStart
        rw [running.lastIdx, Int.toNat_natCast] at done
        split at done
        · cases done
        · next r'' p'' injected loop =>
            cases done
            obtain ⟨⟨added, grown, length⟩, run, same⟩ := injected_running prev registered _ r''
              _ p' first next _ pf.Offset (pf.Offset + 16 + pf.Size) injected running ready.sound
              cjHeld start (by omega) loop
            have stop : pf.Offset + (16 + pf.Size) ≤ prev.chunkStart (max next
                (prev.chunkAt (pf.Offset + 16 + pf.Size - 1) + 1)) := by
              have := prev.chunkStart_mono (Nat.le_max_right next
                (prev.chunkAt (pf.Offset + 16 + pf.Size - 1) + 1)) run.inside
              omega
            obtain ⟨inside, bytes⟩ := run.reads pf.Offset (16 + pf.Size)
              (same.prevStart.symm ▸ start) stop
            exact ⟨⟨added, ⟨grown.sound, by rw [grown.stream, ready.stream, List.append_nil]⟩,
              length⟩, fun _ => ⟨_, _, run⟩, inside, bytes⟩

/-- The payload stream took in `added` and the buffer is empty; any new byte
ends the planner's run. -/
structure Appended (w : Writer) (added : Bytes) (w' : Writer) : Prop where
  grown : PayloadStream.Grown w.payload added w'.payload
  flushed : w'.payloadBuffer = []
  position : w'.payloadPos = w.payloadPos + added.length
  refs : w'.refs = w.refs
  ended : (added = [] ∧ w'.reuse = w.reuse ∧ w'.payload = w.payload) ∨ w'.reuse.run = false

theorem drain_spec (w : Writer) (sound : w.payload.Sound) :
    PayloadStream.Grown w.payload w.payloadBuffer w.drain.payload ∧ w.drain.payloadBuffer = [] ∧
      w.drain.payloadPos = w.payloadPos + w.payloadBuffer.length ∧ w.drain.refs = w.refs ∧
      w.drain.reuse = w.reuse := by
  rw [Writer.drain]
  split
  · next empty =>
      have nothing := List.eq_nil_of_length_eq_zero empty
      refine ⟨?_, nothing, ?_, rfl, rfl⟩
      · rw [nothing]
        exact .refl sound
      · rw [nothing]
        rfl
  · next filled =>
      have piece := PayloadStream.handleData_grown w.payload (w.payloadBuffer.take (64 * 1024)) sound
      obtain ⟨grown, flushed, position, refs, planner⟩ := drain_spec { w with
        payloadBuffer := w.payloadBuffer.drop (64 * 1024)
        payload := w.payload.handleData (w.payloadBuffer.take (64 * 1024))
        payloadPos := w.payloadPos + (w.payloadBuffer.take (64 * 1024)).length } piece.sound
      have both := piece.trans grown
      rw [List.take_append_drop] at both
      refine ⟨both, flushed, position.trans ?_, refs, planner⟩
      simp only [List.length_take, List.length_drop]
      omega
termination_by w.payloadBuffer.length
decreasing_by
  rw [List.length_drop]
  omega

theorem flushPayload_appended (prev : PreviousSplitArchive chunkDigest) (w : Writer)
    (sound : w.payload.Sound) : Appended w w.payloadBuffer (w.flushPayload prev) := by
  obtain ⟨grown, flushed, position, refs, planner⟩ := drain_spec w sound
  simp only [Writer.flushPayload]
  split
  · exact ⟨grown, flushed, position, refs, Or.inr (Planner.break_run prev _)⟩
  · next empty =>
      have nothing : w.payloadBuffer = [] := by simpa using empty
      have same : w.drain = w := by
        rw [Writer.drain, if_pos (by simp [nothing])]
      have payload : w.drain.payload = w.payload := by rw [same]
      exact ⟨grown, flushed, position, refs, Or.inl ⟨nothing, planner, payload⟩⟩

theorem write_appended (prev : PreviousSplitArchive chunkDigest) (w : Writer) (b : Bytes)
    (sound : w.payload.Sound) (flushed : w.payloadBuffer = []) :
    Appended w b (w.write prev b) := by
  have appended := flushPayload_appended prev { w with payloadBuffer := w.payloadBuffer ++ b } sound
  rw [flushed, List.nil_append] at appended
  rw [Writer.write, flushed, List.nil_append]
  exact ⟨appended.grown, appended.flushed, appended.position, appended.refs, appended.ended⟩

theorem Appended.trans {first middle last : Writer} {more rest : Bytes}
    (left : Appended first more middle) (right : Appended middle rest last) :
    Appended first (more ++ rest) last := by
  refine ⟨left.grown.trans right.grown, right.flushed, ?_, right.refs.trans left.refs, ?_⟩
  · rw [right.position, left.position, List.length_append, Nat.add_assoc]
  · rcases right.ended with ⟨nothing, planner, payload⟩ | ended
    · rcases left.ended with ⟨none, same, before⟩ | ended
      · exact Or.inl ⟨by rw [none, nothing]; rfl, planner.trans same, payload.trans before⟩
      · exact Or.inr (planner ▸ ended)
    · exact Or.inr ended

theorem writes_appended (prev : PreviousSplitArchive chunkDigest) (pieces : List Bytes)
    (w : Writer) (sound : w.payload.Sound) (flushed : w.payloadBuffer = []) :
    Appended w pieces.flatten (pieces.foldl (Writer.write prev) w) := by
  induction pieces generalizing w with
  | nil => exact ⟨.refl sound, flushed, rfl, rfl, Or.inl ⟨rfl, rfl, rfl⟩⟩
  | cons piece rest ih =>
      have first := write_appended prev w piece sound flushed
      exact first.trans (ih _ first.grown.sound first.flushed)

/-- The bytes a reference stands for: the header and the content as written, or
the record the previous stream holds. -/
def PayloadSource.record (prev : PreviousSplitArchive chunkDigest) : PayloadSource → Bytes
  | .written content => header PXAR_PAYLOAD (content.length + 16) ++ content
  | .reused pf => slice prev.stream pf.Offset (16 + pf.Size)

/-- The reference points at its record in the stream. -/
def Resolves (prev : PreviousSplitArchive chunkDigest) (stream : Bytes) (ref : PayloadRef) :
    Prop :=
  ref.offset + (16 + ref.size) ≤ stream.length ∧
    slice stream ref.offset (16 + ref.size) = ref.source.record prev

theorem Resolves.append {prev : PreviousSplitArchive chunkDigest} {stream : Bytes}
    {ref : PayloadRef} (resolves : Resolves prev stream ref) (added : Bytes) :
    Resolves prev (stream ++ added) ref := by
  refine ⟨?_, ?_⟩
  · rw [List.length_append]
    exact le_trans resolves.1 (Nat.le_add_right _ _)
  · rw [slice_append_left _ _ _ _ resolves.1]
    exact resolves.2

structure WriterSound (prev : PreviousSplitArchive chunkDigest) (w : Writer) : Prop where
  payload : w.payload.Sound
  flushed : w.payloadBuffer = []
  position : w.payloadPos = w.payload.stream.length
  planner : PlannerSound prev w.reuse w.payload
  refs : ∀ ref ∈ w.refs, Resolves prev w.payload.stream ref

theorem new_sound (prev : PreviousSplitArchive chunkDigest) : WriterSound prev Writer.new :=
  ⟨init_cut, rfl, rfl, fun run => (by cases run), fun _ listed => (by cases listed)⟩

theorem WriterSound.appended {prev : PreviousSplitArchive chunkDigest} {w w' : Writer}
    {added : Bytes} (sound : WriterSound prev w) (appended : Appended w added w') :
    WriterSound prev w' := by
  refine ⟨appended.grown.sound, appended.flushed, ?_, ?_, ?_⟩
  · rw [appended.position, sound.position, appended.grown.stream, List.length_append]
  · rcases appended.ended with ⟨_, planner, payload⟩ | ended
    · rw [planner, payload]
      exact sound.planner
    · intro run
      rw [ended] at run
      cases run
  · rw [appended.refs, appended.grown.stream]
    exact fun ref listed => (sound.refs ref listed).append added

theorem writeFile_sound (prev : PreviousSplitArchive chunkDigest) (w : Writer)
    (pieces : List Bytes) (sound : WriterSound prev w) :
    WriterSound prev (w.writeFile prev pieces) := by
  have flush := flushPayload_appended prev w sound.payload
  have flushedSound := sound.appended flush
  have hint := PayloadStream.suggestBoundary_grown _ flush.grown.sound
  let ref : PayloadRef :=
    ⟨(w.flushPayload prev).payloadPos, pieces.flatten.length, .written pieces.flatten⟩
  let hinted : Writer := { w.flushPayload prev with
    refs := (w.flushPayload prev).refs ++ [ref]
    payload := (w.flushPayload prev).payload.suggestBoundary }
  have opened : Appended hinted (header PXAR_PAYLOAD (pieces.flatten.length + 16))
      (w.beginPayload prev pieces.flatten) :=
    write_appended prev hinted _ hint.sound flush.flushed
  have written := opened.trans
    (writes_appended prev pieces _ opened.grown.sound opened.flushed)
  have stream : hinted.payload.stream = (w.flushPayload prev).payload.stream := by
    rw [hint.stream, List.append_nil]
  have ended : (w.writeFile prev pieces).reuse.run = false := by
    rcases written.ended with ⟨nothing, _⟩ | ended
    · have length := congrArg List.length nothing
      simp at length
    · exact ended
  refine ⟨written.grown.sound, written.flushed, ?_, fun run => ?_, ?_⟩
  · have total := congrArg List.length written.grown.stream
    rw [List.length_append, stream, ← flushedSound.position] at total
    exact written.position.trans total.symm
  · rw [ended] at run
    cases run
  · intro other listed
    have refs : (w.writeFile prev pieces).refs = hinted.refs := written.refs
    have grown : (w.writeFile prev pieces).payload.stream = _ := written.grown.stream
    rw [grown, stream]
    rw [refs] at listed
    rcases List.mem_append.mp listed with old | new
    · exact (flushedSound.refs other old).append _
    · cases List.mem_singleton.mp new
      have place : ref.offset = (w.flushPayload prev).payload.stream.length + 0 :=
        flushedSound.position
      have size : 16 + ref.size =
          (header PXAR_PAYLOAD (pieces.flatten.length + 16) ++ pieces.flatten).length := by
        simp [ref]
      refine ⟨?_, ?_⟩
      · rw [List.length_append, ← size]
        omega
      · rw [place, slice_append_right, size, slice_whole]
        rfl

theorem lookup_size (prev : PreviousSplitArchive chunkDigest) (rel : Bytes) (info : FileInfo)
    (pf : PreviousFile) (found : lookup prev rel info = some pf) : pf.Size = info.size := by
  unfold lookup at found
  split at found
  · cases found
  · split at found
    · cases found
    · next unchanged =>
        cases found
        rw [not_or, not_not] at unchanged
        exact unchanged.1

theorem tryReuseFile_sound (prev : PreviousSplitArchive chunkDigest) (budget : Nat → Nat)
    (registered : Digest → Bool) (w w' : Writer) (rel : Bytes) (info : FileInfo)
    (sound : WriterSound prev w)
    (done : w.tryReuseFile prev budget registered rel info = some w') : WriterSound prev w' := by
  unfold Writer.tryReuseFile at done
  split at done
  · cases done
    exact sound
  · next pf found =>
      have flush := flushPayload_appended prev w sound.payload
      have before := sound.appended flush
      simp only at done
      split at done
      · cases done
      · next r p tried =>
          cases done
          obtain ⟨same, planner⟩ := reuse_sound prev budget registered _ r _ p pf _ none
            before.payload before.planner before.position tried
          subst same
          exact ⟨before.payload, before.flushed, before.position, planner, before.refs⟩
      · next r p newOffset injected tried =>
          cases done
          have accepted : Accepted prev _ p r pf newOffset injected :=
            reuse_sound prev budget registered _ r _ p pf _ (some (newOffset, injected))
              before.payload before.planner before.position tried
          obtain ⟨added, grown, length⟩ := accepted.grown
          refine ⟨grown.sound, before.flushed, ?_, accepted.planner, fun ref listed => ?_⟩
          · rw [grown.stream, List.length_append, length, before.position]
          · rcases List.mem_append.mp listed with old | new
            · rw [grown.stream]
              exact (before.refs ref old).append added
            · cases List.mem_singleton.mp new
              rw [← lookup_size prev rel info pf found]
              exact ⟨accepted.inside, accepted.bytes⟩

theorem writer_invariant (prev : PreviousSplitArchive chunkDigest) (budget : Nat → Nat) :
    Invariant (writerSystem prev budget) (WriterSound prev) where
  start w started := started ▸ new_sound prev
  step w action w' sound taken := by
    change writerStep prev budget w action = some w' at taken
    cases action with
    | startMarker =>
        cases taken
        exact sound.appended (write_appended prev w _ sound.payload sound.flushed)
    | tailMarker =>
        cases taken
        exact sound.appended (write_appended prev w _ sound.payload sound.flushed)
    | writeFile pieces =>
        cases taken
        exact writeFile_sound prev w pieces sound
    | tryReuseFile rel info registered =>
        exact tryReuseFile_sound prev budget registered w w' rel info sound taken
    | eof =>
        cases taken
        have emitted := PayloadStream.emitCurrent_grown w.payload sound.payload
        have stream : w.payload.emitCurrent.stream = w.payload.stream := by
          rw [emitted.stream, List.append_nil]
        refine ⟨emitted.sound, sound.flushed, ?_, ?_, ?_⟩
        · rw [stream]
          exact sound.position
        · intro run
          obtain ⟨first, next, running⟩ := sound.planner run
          have same : w.payload.emitCurrent = w.payload := by
            simp [PayloadStream.emitCurrent, PayloadStream.cutInto, ChunkState.emitCurrent,
              running.nothingPending]
          exact ⟨first, next, same.symm ▸ running⟩
        · rw [stream]
          exact sound.refs

/-- What holds of the payload stream whatever was reused: the index lies over
its chunks, the writer stands at its end, and every reference reaches its record. -/
structure Faithful (prev : PreviousSplitArchive chunkDigest) (w : Writer) : Prop where
  chunks : Cut w.payload.chunk w.payload.data
  position : w.payloadPos = w.payload.stream.length
  refs : ∀ ref ∈ w.refs, Resolves prev w.payload.stream ref

theorem reuse_never_splices (prev : PreviousSplitArchive chunkDigest) (budget : Nat → Nat)
    (w : Writer) (reached : Reachable (writerSystem prev budget) w) : Faithful prev w := by
  have sound := (writer_invariant prev budget).reachable reached
  exact ⟨sound.payload, sound.position, sound.refs⟩

/-- A previous stream of two chunks whose second file crosses from one to the other. -/
def twoChunks : PreviousSplitArchive (id : Bytes → Digest) :=
  let small : Bytes := List.replicate 40 1
  let large : Bytes := List.replicate 24 2
  ⟨fun rel => if rel = [97] then some ⟨0, 0, 0, 0, 0, 4, 0⟩
      else if rel = [98] then some ⟨0, 0, 0, 0, 0, 10, 30⟩ else none,
    [⟨small, 40, small, rfl, by decide⟩, ⟨large, 24, large, rfl, by decide⟩]⟩

/-- Both files reused in one run, then a file read and one more reuse. -/
def mixedWriter : Option Writer :=
  let first := WriterAction.tryReuseFile [97] ⟨0, 0, 0, 0, 0, 4⟩ fun _ => true
  let second := WriterAction.tryReuseFile [98] ⟨0, 0, 0, 0, 0, 10⟩ fun _ => true
  [.startMarker, first, second, .writeFile [[7, 8], [9]], second, .tailMarker, .eof].foldlM
    (writerStep twoChunks fun _ => 100) Writer.new

theorem mixed_never_splices : ∃ w, mixedWriter = some w ∧ w.refs.length = 4 ∧
    Faithful twoChunks w := by
  have counted : mixedWriter.map (fun w => w.refs.length) = some 4 := by decide +kernel
  obtain ⟨w, executed, four⟩ := Option.map_eq_some_iff.mp counted
  have reached : Reachable (writerSystem twoChunks fun _ => 100) w :=
    ⟨_, _, rfl, run_of_foldlM _ (fun _ _ _ taken => taken) executed⟩
  exact ⟨w, executed, four, reuse_never_splices twoChunks (fun _ => 100) w reached⟩

end ProxmoxBackup.PayloadReuse
