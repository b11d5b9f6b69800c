import ProxmoxBackup.DiskReads
import ProxmoxBackup.DiskSegments

/-! copySegments of machinebackuplib/linux.go: the segments of a disk are read one after
another and sent in blocks of 4 MiB. What the sources answer, the free-space maps, and when
the uploader or the user stops are given; offsets stay below what an int64 holds. -/
namespace ProxmoxBackup.CopySegments

open DiskReads (Bytes IoError Halt ReaderAt Source)
open DiskSegments (diskSegment)
open UsedMap (usedMap PBS_FIXED_CHUNK_SIZE)

/-- The blocks in ch, the buffer, how often progress was reported and a source was read, and
the calls of noteUnreadable (which lists the first 50 ranges). -/
structure Sink where
  sent : List Bytes
  buffer : Bytes
  reports : Nat
  reads : Nat
  unreadable : List (Nat × Nat)

def Sink.new : Sink := ⟨[], [], 0, 0, []⟩

/-- By the blocks sent and the reports made: the uploader has stopped, the user cancels. -/
structure Stops where
  uploadDone : Nat → Bool
  cancelled : Nat → Bool

section

variable (stops : Stops)

def sendChunk (chunk : Bytes) (s : Sink) : Option Sink :=
  if chunk.length = 0 then some s
  else if stops.uploadDone s.sent.length then none
  else some { s with sent := s.sent ++ [chunk] }

/-- The loop of emit over the buffer. -/
def sendFull (buffer : Bytes) (s : Sink) : Option Sink :=
  if PBS_FIXED_CHUNK_SIZE ≤ buffer.length then
    (sendChunk stops (buffer.take PBS_FIXED_CHUNK_SIZE) s).bind
      (sendFull (buffer.drop PBS_FIXED_CHUNK_SIZE))
  else some { s with buffer }
termination_by buffer.length
decreasing_by
  rw [List.length_drop]
  simp only [PBS_FIXED_CHUNK_SIZE] at *
  omega

def emit (data : Bytes) (s : Sink) : Option Sink :=
  (sendFull stops (s.buffer ++ data) s).bind fun s =>
    if stops.cancelled s.reports then none else some { s with reports := s.reports + 1 }

def emitZeros (n : Nat) (s : Sink) : Option Sink :=
  if 0 < n then
    let m := min PBS_FIXED_CHUNK_SIZE n
    (emit stops (List.replicate m 0) s).bind (emitZeros (n - m))
  else some s
termination_by n
decreasing_by
  simp only [PBS_FIXED_CHUNK_SIZE] at *
  omega

/-- The buffer that is left at the end. -/
def flush (buffer : Bytes) (s : Sink) : Option Sink :=
  if 0 < buffer.length then
    let n := min PBS_FIXED_CHUNK_SIZE buffer.length
    (sendChunk stops (buffer.take n) s).bind (flush (buffer.drop n))
  else some { s with buffer }
termination_by buffer.length
decreasing_by
  rw [List.length_drop]
  simp only [PBS_FIXED_CHUNK_SIZE] at *
  omega

end

/-! readResilient, with what its caller gives it. -/

structure Callbacks (σ : Type) where
  emit : Bytes → σ → Option σ
  emitZeros : Nat → σ → Option σ
  onBad : Nat → Nat → σ → σ

structure Place (σ : Type) where
  pos : Nat
  calls : Nat
  state : σ

def emitted {σ : Type} : Option σ → Except Halt σ
  | some state => .ok state
  | none => .error .stopped

section

variable {σ : Type} (src : Source) (back : Callbacks σ) (srcOffset length block unit : Nat)

/-- What a read returned is emitted, if it is something. -/
def take (data : Bytes) (p : Place σ) : Except Halt (Place σ) :=
  if data.length > 0 then do
    let state ← emitted (back.emit data p.state)
    return { p with pos := p.pos + data.length, calls := p.calls + 1, state }
  else return { p with calls := p.calls + 1 }

def padToEnd (p : Place σ) : Except Halt (Place σ) :=
  if p.pos < length then do
    let state ← emitted (back.emitZeros (length - p.pos) p.state)
    return { p with pos := length, state }
  else return p

/-- The rest of a unit that cannot be read. -/
def giveUp (rem : Nat) (p : Place σ) : Except Halt (Place σ) :=
  if rem > 0 then do
    let state ← emitted (back.emitZeros rem p.state)
    return { p with pos := p.pos + rem, state := back.onBad (srcOffset + p.pos) rem state }
  else return p

/-- The rest of a read one unit at a time; true when the source has ended. -/
def units (winEnd : Nat) : Nat → Place σ → Except Halt (Place σ × Bool)
  | 0, _ => .error .running
  | fuel + 1, p =>
      if p.pos < winEnd then do
        let s := min unit (winEnd - p.pos)
        let answer := src p.calls (srcOffset + p.pos) s
        let p ← take back answer.1 p
        match answer.2 with
        | none => units winEnd fuel p
        | some .eof => do
            let p ← padToEnd back length p
            return (p, true)
        | some (.other code) => .error (.failed (.other code))
        | some .media => do
            let p ← giveUp back srcOffset (s - answer.1.length) p
            units winEnd fuel p
      else return (p, false)

def readResilient : Nat → Place σ → Except Halt (Place σ)
  | 0, _ => .error .running
  | fuel + 1, p =>
      if p.pos < length then do
        let want := min block (length - p.pos)
        let answer := src p.calls (srcOffset + p.pos) want
        let p ← take back answer.1 p
        match answer.2 with
        | none => readResilient fuel p
        | some .eof => padToEnd back length p
        | some (.other code) => .error (.failed (.other code))
        | some .media => do
            let (p, ended) ← units src back srcOffset length unit
              (p.pos + (want - answer.1.length)) (fuel + 1) p
            if ended then return p else readResilient fuel p
      else return p

end

/-! A caller that collects: the readResilient of `DiskReads` is this one with it. -/

structure Collected where
  out : Bytes
  bad : List (Nat × Nat)
  emits : Nat

def Collected.add (refuse : Nat → Bool) (data : Bytes) (s : Collected) : Option Collected :=
  if refuse s.emits then none else some { s with out := s.out ++ data, emits := s.emits + 1 }

def collects (refuse : Nat → Bool) : Callbacks Collected where
  emit := Collected.add refuse
  emitZeros n := Collected.add refuse (List.replicate n 0)
  onBad off n s := { s with bad := s.bad ++ [(off, n)] }

/-- Where a copy is, and what it has collected. -/
def placeOf (c : DiskReads.Copy) : Place Collected := ⟨c.pos, c.calls.length, ⟨c.out, c.bad, c.emits⟩⟩

section

variable (src : Source) (refuse : Nat → Bool) (srcOffset length block unit : Nat)

theorem take_collects (data : Bytes) (call : DiskReads.Call) (c : DiskReads.Copy) :
    take (collects refuse) data (placeOf c) =
      (DiskReads.Copy.emit refuse data { c with calls := c.calls ++ [call] }).map placeOf := by
  unfold take DiskReads.Copy.emit placeOf
  dsimp only
  split
  · unfold collects Collected.add
    dsimp only
    split
    · rfl
    · simp [emitted, Except.map, bind, Except.bind, pure, Except.pure]
  · simp [Except.map, pure, Except.pure]

theorem padToEnd_collects (c : DiskReads.Copy) : padToEnd (collects refuse) length (placeOf c) =
    (DiskReads.padToEnd refuse length c).map placeOf := by
  unfold padToEnd DiskReads.padToEnd DiskReads.Copy.emit placeOf
  rw [List.length_replicate]
  dsimp only
  split
  · next more =>
      rw [if_pos (by omega)]
      unfold collects Collected.add
      dsimp only
      split
      · rfl
      · simp [emitted, Except.map, bind, Except.bind, pure, Except.pure]
        omega
  · next whole =>
      rw [if_neg (by omega)]
      rfl

/-- A unit given up, as the loop of `DiskReads` has it. -/
theorem giveUp_collects (rem : Nat) (c : DiskReads.Copy) :
    giveUp (collects refuse) srcOffset rem (placeOf c) =
      (if rem > 0 then (c.emit refuse (List.replicate rem 0)).map fun d =>
        { d with bad := d.bad ++ [(srcOffset + c.pos, rem)] } else .ok c).map placeOf := by
  unfold giveUp
  split
  · next some_ =>
      unfold collects Collected.add DiskReads.Copy.emit placeOf
      dsimp only
      rw [List.length_replicate, if_pos some_]
      split
      · rfl
      · simp [emitted, Except.map, bind, Except.bind, pure, Except.pure]
  · rfl

theorem units_collects (winEnd fuel : Nat) (c : DiskReads.Copy) :
    units src (collects refuse) srcOffset length unit winEnd fuel (placeOf c) =
      (DiskReads.units src refuse srcOffset length unit winEnd fuel c).map fun r => (placeOf r.1, r.2) := by
  induction fuel generalizing c with
  | zero => rfl
  | succ fuel ih =>
      rw [units, DiskReads.units, show (placeOf c).pos = c.pos from rfl]
      split
      · dsimp only [DiskReads.Copy.read]
        rw [show (placeOf c).calls = c.calls.length from rfl]
        obtain ⟨data, err⟩ := src c.calls.length (srcOffset + c.pos) (min unit (winEnd - c.pos))
        dsimp only
        rw [take_collects refuse data ⟨srcOffset + c.pos, data, err⟩ c]
        cases DiskReads.Copy.emit refuse data
          { c with calls := c.calls ++ [⟨srcOffset + c.pos, data, err⟩] } with
        | error halt => rfl
        | ok q =>
            simp only [Except.map, bind, Except.bind]
            cases err with
            | none => exact ih q
            | some err =>
                cases err with
                | eof =>
                    rw [padToEnd_collects]
                    cases DiskReads.padToEnd refuse length q <;> rfl
                | other code => rfl
                | media =>
                    dsimp only
                    rw [giveUp_collects]
                    by_cases left : min unit (winEnd - c.pos) - data.length > 0
                    · rw [if_pos left, if_pos left]
                      cases DiskReads.Copy.emit refuse
                        (List.replicate (min unit (winEnd - c.pos) - data.length) 0) q with
                      | error halt => rfl
                      | ok zeroed => exact ih _
                    · rw [if_neg left, if_neg left]
                      exact ih q
      · rfl

theorem readResilient_collects (fuel : Nat) (c : DiskReads.Copy) :
    readResilient src (collects refuse) srcOffset length block unit fuel (placeOf c) =
      (DiskReads.readResilient src refuse srcOffset length block unit fuel c).map placeOf := by
  induction fuel generalizing c with
  | zero => rfl
  | succ fuel ih =>
      rw [readResilient, DiskReads.readResilient, show (placeOf c).pos = c.pos from rfl]
      split
      · dsimp only [DiskReads.Copy.read]
        rw [show (placeOf c).calls = c.calls.length from rfl]
        obtain ⟨data, err⟩ := src c.calls.length (srcOffset + c.pos) (min block (length - c.pos))
        dsimp only
        rw [take_collects refuse data ⟨srcOffset + c.pos, data, err⟩ c]
        cases DiskReads.Copy.emit refuse data
          { c with calls := c.calls ++ [⟨srcOffset + c.pos, data, err⟩] } with
        | error halt => rfl
        | ok q =>
            simp only [Except.map, bind, Except.bind]
            cases err with
            | none => exact ih q
            | some err =>
                cases err with
                | eof => exact padToEnd_collects refuse length q
                | other code => rfl
                | media =>
                    dsimp only
                    rw [units_collects, show (placeOf q).pos = q.pos from rfl]
                    cases DiskReads.units src refuse srcOffset length unit
                      (q.pos + (min block (length - c.pos) - data.length)) (fuel + 1) q with
                    | error halt => rfl
                    | ok r =>
                        obtain ⟨rest, ended⟩ := r
                        cases ended with
                        | true => rfl
                        | false => exact ih rest
      · rfl

end

/-! The copy. -/

def sectorSize : Nat := 512

/-- A segment with what it is read from and its free-space map. -/
structure Prepared where
  seg : diskSegment
  src : ReaderAt
  used : Option usedMap

inductive CopyError where
  | opening
  | cancelled
  | reading (err : IoError)
  | running
  deriving DecidableEq

section

variable (disk : ReaderAt) (openSnap : diskSegment → Option ReaderAt)
  (segmentUsedMap : diskSegment → Option usedMap)

/-- Every segment's source and map first. -/
def prepare : List diskSegment → Except CopyError (List Prepared)
  | [] => .ok []
  | seg :: rest =>
      if seg.skip then do
        let more ← prepare rest
        return ⟨seg, disk, none⟩ :: more
      else if seg.snapDev ≠ "" then
        match openSnap seg with
        | none => .error .opening
        | some sf => do
            let more ← prepare rest
            return ⟨seg, sf, segmentUsedMap seg⟩ :: more
      else do
        let more ← prepare rest
        return ⟨seg, disk, if seg.rawFS then segmentUsedMap seg else none⟩ :: more

end

def Prepared.srcOff (p : Prepared) : Nat := if p.seg.snapDev ≠ "" then 0 else p.seg.start

/-- onBad gets offsets in the source; the report wants them on the disk. -/
def Prepared.onBad (p : Prepared) (off n : Nat) (s : Sink) : Sink :=
  { s with unreadable := s.unreadable ++ [(p.seg.start + (off - p.srcOff), n)] }

section

variable (stops : Stops)

/-- Zeros for a partition that is left out, 4 MiB at a time. -/
def leaveOut (length w : Nat) (s : Sink) : Option Sink :=
  if w < length then
    (emitZeros stops (min PBS_FIXED_CHUNK_SIZE (length - w)) s).bind
      (leaveOut length (w + PBS_FIXED_CHUNK_SIZE))
  else some s
termination_by length - w
decreasing_by
  simp only [PBS_FIXED_CHUNK_SIZE] at *
  omega

def asRead (p : Prepared) : Callbacks Sink := ⟨emit stops, emitZeros stops, p.onBad⟩

/-- Where in the volume the next byte is, and the sink. -/
structure Masked where
  at_ : Nat
  sink : Sink

def masked (p : Prepared) (used : usedMap) : Callbacks Masked where
  emit data s := (emit stops (used.zeroFree data s.at_) s.sink).map (⟨s.at_ + data.length, ·⟩)
  emitZeros k s := (emitZeros stops k s.sink).map (⟨s.at_ + k, ·⟩)
  onBad off n s := ⟨s.at_, p.onBad off n s.sink⟩

/-- What a source returns from the reads on that were made before. -/
def later (src : ReaderAt) (s : Sink) : Source := fun k => src.ReadAt (s.reads + k)

def Sink.readMore (s : Sink) (calls : Nat) : Sink := { s with reads := s.reads + calls }

/-- A window of a segment with a map. -/
def copyWindow (p : Prepared) (used : usedMap) (w n : Nat) (s : Sink) : Except Halt Sink :=
  if used.anyUsed w n then do
    let done ← readResilient (later p.src s) (masked stops p used) (p.srcOff + w) n
      PBS_FIXED_CHUNK_SIZE sectorSize (n + 1) ⟨0, 0, ⟨w, s⟩⟩
    return done.state.sink.readMore done.calls
  else emitted (emitZeros stops n s)

def copyWindows (p : Prepared) (used : usedMap) (length w : Nat) (s : Sink) : Except Halt Sink :=
  if w < length then
    (copyWindow stops p used w (min PBS_FIXED_CHUNK_SIZE (length - w)) s).bind
      (copyWindows p used length (w + PBS_FIXED_CHUNK_SIZE))
  else .ok s
termination_by length - w
decreasing_by
  simp only [PBS_FIXED_CHUNK_SIZE] at *
  omega

def readSegment (p : Prepared) (length : Nat) (s : Sink) : Except Halt Sink :=
  match p.used with
  | none => do
      let done ← readResilient (later p.src s) (asRead stops p) p.srcOff length
        PBS_FIXED_CHUNK_SIZE sectorSize (length + 1) ⟨0, 0, s⟩
      return done.state.readMore done.calls
  | some used => copyWindows stops p used length 0 s

def copySegment (p : Prepared) (s : Sink) : Except Halt Sink :=
  let length := p.seg.stop - p.seg.start
  if p.seg.skip then emitted (leaveOut stops length 0 s) else readSegment stops p length s

def copyAll : List Prepared → Sink → Except Halt Sink
  | [], s => .ok s
  | p :: rest, s => (copySegment stops p s).bind (copyAll rest)

def copyError : Halt → CopyError
  | .stopped => .cancelled
  | .failed err => .reading err
  | .running => .running

variable (disk : ReaderAt) (openSnap : diskSegment → Option ReaderAt)
  (segmentUsedMap : diskSegment → Option usedMap)

def copySegments (segments : List diskSegment) : Except CopyError Sink := do
  let prepared ← prepare disk openSnap segmentUsedMap segments
  match copyAll stops prepared Sink.new with
  | .error halt => .error (copyError halt)
  | .ok s =>
      match flush stops s.buffer s with
      | none => .error .cancelled
      | some s => .ok s

end

end ProxmoxBackup.CopySegments
