import Mathlib.Data.Nat.Bitwise
import ProxmoxBackup.GoValues
import ProxmoxBackup.PayloadReuse

/-! WriteFile of a file that is read, on both streams of the archive, over everything
Lstat, the file and the source can say. A file's size goes out before its bytes. -/

namespace ProxmoxBackup.FileContent

open DynamicChunks GoValues PayloadReuse PxarFormat

def PXAR_ENTRY : Nat := 0xd5956474e588acef
def PXAR_FILENAME : Nat := 0x16701121063917b3
def PXAR_PAYLOAD_REF : Nat := 0x419d3d6bc4ba977e
def IFREG : Nat := 0o0100000

/-- A read error, the end of the context or a SourceLostError. -/
inductive SourceError where
  | eof
  | failed (code : Nat)
  | cancelled
  | lost
  deriving DecidableEq

/-- What ends WriteFile with an error: a callback, Pause.Wait or writeCancelled, or the
source; and a loop that goes on behind the last of the fuel. -/
inductive Halt where
  | callback
  | source (err : SourceError)
  | running
  deriving DecidableEq

/-- os.Lstat of a regular file. -/
structure Stat where
  perm : Nat
  uid : Nat
  gid : Nat
  secs : Int
  nanos : Nat
  size : Nat
  below : nanos < 10 ^ 9

structure Config where
  Split : Bool
  NoMTime : Bool
  posixFidelity : Bool

structure EntryMeta where
  mode : Nat
  uid : Nat
  gid : Nat
  secs : Nat
  nanos : Nat

/-- uint64 of an int64. -/
def unsigned (x : Int) : Nat := (x % 2 ^ 64).toNat

def entryMeta (posixFidelity : Bool) (info : Stat) (kind : Nat) : EntryMeta :=
  if posixFidelity then ⟨kind ||| (info.perm &&& 0o7777), info.uid, info.gid, unsigned info.secs, info.nanos⟩
  else ⟨kind ||| 0o777, 1000, 1000, unsigned info.secs, 0⟩

def entryMetaFor (cfg : Config) (info : Stat) (kind : Nat) : EntryMeta :=
  let m := entryMeta cfg.posixFidelity info kind
  if cfg.NoMTime then { m with secs := 0, nanos := 0 }
  else if cfg.Split ∧ m.nanos = 0 then { m with nanos := info.nanos }
  else m

def catalogMTime (cfg : Config) (info : Stat) : Nat :=
  if cfg.NoMTime then 0 else unsigned info.secs

/-- What a backup looks the file up with. -/
def asked (cfg : Config) (info : Stat) : FileInfo :=
  let m := entryMetaFor cfg info IFREG
  ⟨m.mode % 2 ^ 32, m.uid, m.gid, int64 m.secs, m.nanos, info.size⟩

/-! The records. -/

def filenameRecord (basename : Bytes) : Bytes :=
  header PXAR_FILENAME (16 + basename.length + 1) ++ basename ++ [0]

/-- An ENTRY up to mtime.nanos. -/
def entryFront (m : EntryMeta) : Bytes :=
  header PXAR_ENTRY 56 ++ (LittleEndian.encode 8 m.mode ++ LittleEndian.encode 8 0 ++
    LittleEndian.encode 4 m.uid ++ LittleEndian.encode 4 m.gid ++ LittleEndian.encode 8 m.secs)

def entryRecord (m : EntryMeta) : Bytes :=
  entryFront m ++ (LittleEndian.encode 4 m.nanos ++ LittleEndian.encode 4 0)

def refRecord (offset size : Nat) : Bytes :=
  header PXAR_PAYLOAD_REF 32 ++ LittleEndian.encode 8 offset ++ LittleEndian.encode 8 size

/-- The reader's view of an ENTRY, its header skipped, and what NewPreviousSplitArchive
lists the file as. -/
def previousFile (record : Bytes) (size offset : Nat) : PreviousFile :=
  let data := record.drop 16
  { Mode := LittleEndian.decode (data.take 8) % 2 ^ 32
    UID := LittleEndian.decode ((data.drop 16).take 4)
    GID := LittleEndian.decode ((data.drop 20).take 4)
    Secs := int64 (LittleEndian.decode ((data.drop 24).take 8))
    Nanos := LittleEndian.decode ((data.drop 32).take 4)
    Size := size
    Offset := offset }

/-! The archive's buffers and what the callbacks have been given. -/

/-- What addReadError is told. -/
inductive Flag where
  | failed (written declaredSize : Nat) (err : SourceError)
  | shrank
  | grew (declaredSize : Nat)
  deriving DecidableEq

/-- sent went to WriteCB, payloadSent to PayloadWriteCB. calls counts what may fail. -/
structure State where
  buffer : Bytes
  sent : Bytes
  payloadBuffer : Bytes
  payloadSent : Bytes
  payloadPos : Nat
  readErrors : List Flag
  calls : Nat

/-- A callback, Pause.Wait or writeCancelled. -/
def State.call (fails : Nat → Bool) (s : State) : Except Halt State :=
  if fails s.calls then .error .callback else .ok { s with calls := s.calls + 1 }

/-- 64 KiB at a time, to the end of the buffer. -/
def State.Flush (fails : Nat → Bool) (s : State) : Except Halt State := do
  let s ← s.call fails
  return { s with buffer := [], sent := s.sent ++ s.buffer }

def State.flushPayload (fails : Nat → Bool) (s : State) : Except Halt State := do
  let s ← s.call fails
  return { s with
    payloadBuffer := []
    payloadSent := s.payloadSent ++ s.payloadBuffer
    payloadPos := s.payloadPos + s.payloadBuffer.length }

/-- The buffer beginPayload returns, and its flush. -/
def State.write (split : Bool) (b : Bytes) (s : State) : State :=
  if split then { s with payloadBuffer := s.payloadBuffer ++ b } else { s with buffer := s.buffer ++ b }

def State.flush (split : Bool) (fails : Nat → Bool) (s : State) : Except Halt State :=
  if split then s.flushPayload fails else s.Flush fails

def State.addReadError (flag : Flag) (s : State) : State :=
  { s with readErrors := s.readErrors ++ [flag] }

def writeFileHead (cfg : Config) (basename : Bytes) (info : Stat) (s : State) : State × Nat :=
  let s := { s with buffer := s.buffer ++ filenameRecord basename }
  ({ s with buffer := s.buffer ++ entryRecord (entryMetaFor cfg info IFREG) }, s.buffer.length)

def entryNanosOffset : Nat := 48

def markEntryIncomplete (cfg : Config) (entryAt : Nat) (s : State) : State :=
  if cfg.NoMTime then s
  else if entryAt + entryNanosOffset + 4 > s.buffer.length then s
  else
    let n := LittleEndian.decode ((s.buffer.drop (entryAt + entryNanosOffset)).take 4)
    { s with
      buffer := s.buffer.take (entryAt + entryNanosOffset) ++ LittleEndian.encode 4 (n ^^^ 1) ++
        s.buffer.drop (entryAt + entryNanosOffset + 4) }

/-- holdMeta is true, as WriteFile has it. -/
def beginPayload (cfg : Config) (fails : Nat → Bool) (size : Nat) (s : State) : Except Halt State :=
  if cfg.Split then do
    let s ← s.flushPayload fails
    let s := { s with buffer := s.buffer ++ refRecord s.payloadPos size }
    let s ← s.call fails
    let s := { s with payloadBuffer := s.payloadBuffer ++ header PXAR_PAYLOAD (size + 16) }
    s.flushPayload fails
  else
    let s := { s with buffer := s.buffer ++ header PXAR_PAYLOAD (size + 16) }
    s.Flush fails

/-! The source. -/

/-- A retry: what opening, seeking and reading come to. -/
structure Reopen where
  openErr : Option SourceError
  seekErr : Option SourceError
  data : Bytes
  err : Option SourceError

/-- Nothing was read, and not because the file has ended. -/
def readError (bytes : Bytes) (err : Option SourceError) : Option SourceError :=
  if bytes = [] ∧ err ≠ some .eof then err else none

def Reopen.op (toRead : Nat) (r : Reopen) : Except SourceError (Bytes × Option SourceError) :=
  match r.openErr, r.seekErr, readError (r.data.take toRead) r.err with
  | some e, _, _ => .error e
  | none, some e, _ => .error e
  | none, none, some e => .error e
  | none, none, none => .ok (r.data.take toRead, r.err)

/-- One turn of retrySource: its sleep, whether the folder is there, whether the deadline
has passed, and the retry. -/
structure Attempt where
  slept : Option SourceError
  reachable : Bool
  late : Bool
  reopen : Reopen

def sourceReachableAttempts : Nat := 4

def maxReadRecoveries : Nat := 5

def retryLoop (toRead : Nat) : Nat → List Attempt → Option (Except SourceError (Bytes × Option SourceError))
  | _, [] => none
  | reachableFails, a :: rest =>
      match a.slept with
      | some e => some (.error e)
      | none =>
          if !a.reachable then
            if a.late then some (.error .lost) else retryLoop toRead reachableFails rest
          else match a.reopen.op toRead with
            | .ok got => some (.ok got)
            | .error e =>
                if reachableFails + 1 ≥ sourceReachableAttempts ∨ a.late then some (.error e)
                else retryLoop toRead (reachableFails + 1) rest

/-- One turn of the read loop: what Read returns of the bytes asked for, and what
retrySource would meet. ctxDone is the look walkMustStop takes at a.Ctx. -/
structure Turn where
  data : Bytes
  err : Option SourceError
  unavailable : Bool
  attempts : List Attempt
  ctxDone : Bool

def retrySource (t : Turn) (toRead : Nat) (firstErr : SourceError) :
    Option (Except SourceError (Bytes × Option SourceError)) :=
  if !t.unavailable then some (.error firstErr) else retryLoop toRead 0 t.attempts

def walkMustStop (t : Turn) (err : SourceError) : Bool := err = .lost ∨ t.ctxDone

/-- What a turn reads, or the error its file is given up with. -/
inductive Read where
  | got (bytes : Bytes) (err : Option SourceError) (recoveries : Nat)
  | readFailed (err : SourceError)

def readBlock (t : Turn) (toRead recoveries : Nat) : Except Halt Read :=
  match readError (t.data.take toRead) t.err with
  | none => .ok (.got (t.data.take toRead) t.err recoveries)
  | some err =>
      if recoveries ≥ maxReadRecoveries then .ok (.readFailed err)
      else match retrySource t toRead err with
        | none => .error .running
        | some (.error rerr) =>
            if walkMustStop t rerr then .error (.source rerr) else .ok (.readFailed rerr)
        | some (.ok (bytes, err)) => .ok (.got bytes err (recoveries + 1))

/-- The bytes of a block go on before the next is read. -/
def State.put (split : Bool) (fails : Nat → Bool) (b : Bytes) (s : State) : Except Halt State :=
  if b.length > 0 then (s.write split b).flush split fails else .ok s

def blockSize : Nat := 1024 * 64

/-- The read loop, for as many turns as there is fuel: the bytes written, and readFailed. -/
def readLoop (split : Bool) (fails : Nat → Bool) (turn : Nat → Turn) (declaredSize : Nat) :
    Nat → Nat → Nat → State → Except Halt (Nat × Option SourceError × State)
  | 0, _, _, _ => .error .running
  | fuel + 1, recoveries, written, s =>
      if written < declaredSize then do
        let s ← s.call fails
        match ← readBlock (turn fuel) (min blockSize (declaredSize - written)) recoveries with
        | .readFailed err => return (written, some err, s)
        | .got bytes err recoveries =>
            let s ← s.put split fails bytes
            if err = some .eof then return (written + bytes.length, none, s)
            else readLoop split fails turn declaredSize fuel recoveries (written + bytes.length) s
      else return (written, none, s)

/-- Zeros for what was not read. -/
def pad (split : Bool) (fails : Nat → Bool) (remaining : Nat) (s : State) : Except Halt State :=
  if remaining > 0 then do
    let n := min blockSize remaining
    let s ← (s.write split (List.replicate n 0)).flush split fails
    pad split fails (remaining - n) s
  else return s
termination_by remaining
decreasing_by
  unfold blockSize
  omega

/-- What was not read is zeros, and flagged; a read behind a whole file may find more. -/
def behindLoop (cfg : Config) (fails : Nat → Bool) (entryAt declaredSize written : Nat)
    (readFailed : Option SourceError) (probe : Bytes) (s : State) : Except Halt State :=
  if written < declaredSize then
    let s := if cfg.Split then markEntryIncomplete cfg entryAt s else s
    let s := s.addReadError (match readFailed with
      | some err => .failed written declaredSize err
      | none => .shrank)
    pad cfg.Split fails (declaredSize - written) s
  else if probe.length > 0 then .ok (s.addReadError (.grew declaredSize))
  else .ok s

structure CatalogFile where
  Name : Bytes
  MTime : Nat
  Size : Nat

/-- WriteFile from where the file is open; probe is the read behind a whole file. -/
def WriteFile (cfg : Config) (fails : Nat → Bool) (turn : Nat → Turn) (probe : Bytes) (fuel : Nat)
    (basename : Bytes) (info : Stat) (s : State) : Except Halt (CatalogFile × State) := do
  let (s, entryAt) := writeFileHead cfg basename info s
  let s ← beginPayload cfg fails info.size s
  let (written, readFailed, s) ← readLoop cfg.Split fails turn info.size fuel 0 0 s
  let s ← behindLoop cfg fails entryAt info.size written readFailed probe s
  let s ← s.Flush fails
  return (⟨basename, catalogMTime cfg info, info.size⟩, s)

/-! What a step of the content leaves alone. -/

/-- What is out of the content's stream, sent or not. -/
def State.stream (split : Bool) (s : State) : Bytes :=
  if split then s.payloadSent ++ s.payloadBuffer else s.sent ++ s.buffer

def State.pending (split : Bool) (s : State) : Bytes := if split then s.payloadBuffer else s.buffer

/-- The content's stream got b; the held metadata of a split archive and the payload
stream of a classic one are as they were. -/
structure Puts (split : Bool) (b : Bytes) (s s' : State) : Prop where
  stream : s'.stream split = s.stream split ++ b
  drained : s.pending split = [] → s'.pending split = []
  held : split = true → s'.buffer = s.buffer ∧ s'.sent = s.sent
  other : split = false → s'.payloadBuffer = s.payloadBuffer ∧ s'.payloadSent = s.payloadSent
  position : s'.payloadPos + s.payloadSent.length = s.payloadPos + s'.payloadSent.length

theorem call_ok {fails : Nat → Bool} {s s' : State} (ran : s.call fails = .ok s') :
    s' = { s with calls := s.calls + 1 } := by
  unfold State.call at ran
  split at ran
  · cases ran
  · cases ran
    rfl

theorem Flush_ok {fails : Nat → Bool} {s s' : State} (ran : s.Flush fails = .ok s') :
    s' = { s with buffer := [], sent := s.sent ++ s.buffer, calls := s.calls + 1 } := by
  obtain ⟨middle, called, rest⟩ := bind_ok ran
  cases call_ok called
  cases rest
  rfl

theorem flushPayload_ok {fails : Nat → Bool} {s s' : State} (ran : s.flushPayload fails = .ok s') :
    s' = { s with
      payloadBuffer := []
      payloadSent := s.payloadSent ++ s.payloadBuffer
      payloadPos := s.payloadPos + s.payloadBuffer.length
      calls := s.calls + 1 } := by
  obtain ⟨middle, called, rest⟩ := bind_ok ran
  cases call_ok called
  cases rest
  rfl

theorem Puts.refl (split : Bool) (s : State) : Puts split [] s s :=
  ⟨(List.append_nil _).symm, id, fun _ => ⟨rfl, rfl⟩, fun _ => ⟨rfl, rfl⟩, rfl⟩

theorem Puts.trans {split : Bool} {b c : Bytes} {first middle last : State}
    (before : Puts split b first middle) (after : Puts split c middle last) :
    Puts split (b ++ c) first last := by
  constructor
  · rw [after.stream, before.stream, List.append_assoc]
  · exact fun none_ => after.drained (before.drained none_)
  · intro split_
    obtain ⟨buffer, sent⟩ := before.held split_
    obtain ⟨buffer', sent'⟩ := after.held split_
    exact ⟨buffer'.trans buffer, sent'.trans sent⟩
  · intro classic
    obtain ⟨buffer, sent⟩ := before.other classic
    obtain ⟨buffer', sent'⟩ := after.other classic
    exact ⟨buffer'.trans buffer, sent'.trans sent⟩
  · have one := before.position
    have two := after.position
    omega

theorem call_puts {split : Bool} {fails : Nat → Bool} {s s' : State}
    (ran : s.call fails = .ok s') : Puts split [] s s' := by
  cases call_ok ran
  exact ⟨(List.append_nil _).symm, id, fun _ => ⟨rfl, rfl⟩, fun _ => ⟨rfl, rfl⟩, rfl⟩

/-- A block that is written and flushed. -/
theorem written_puts {split : Bool} {fails : Nat → Bool} {b : Bytes} {s s' : State}
    (ran : (s.write split b).flush split fails = .ok s') : Puts split b s s' := by
  cases split with
  | true =>
      cases flushPayload_ok ran
      refine ⟨?_, fun _ => rfl, fun _ => ⟨rfl, rfl⟩, fun wrong => (by cases wrong), ?_⟩
      · simp [State.stream, State.write]
      · simp [State.write]
        omega
  | false =>
      cases Flush_ok ran
      refine ⟨?_, fun _ => rfl, fun wrong => (by cases wrong), fun _ => ⟨rfl, rfl⟩, rfl⟩
      simp [State.stream, State.write]

theorem put_puts {split : Bool} {fails : Nat → Bool} {b : Bytes} {s s' : State}
    (ran : s.put split fails b = .ok s') : Puts split b s s' := by
  unfold State.put at ran
  split at ran
  · exact written_puts ran
  · next none_ =>
      cases ran
      rw [List.length_eq_zero_iff.mp (Nat.eq_zero_of_not_pos none_)]
      exact Puts.refl split s

/-! The read loop writes at most what was declared, and padding the rest. -/

theorem op_length {toRead : Nat} {r : Reopen} {bytes : Bytes} {err : Option SourceError}
    (opened : r.op toRead = .ok (bytes, err)) : bytes.length ≤ toRead := by
  unfold Reopen.op at opened
  split at opened
  · cases opened
  · cases opened
  · cases opened
  · cases opened
    rw [List.length_take]
    exact Nat.min_le_left _ _

theorem retryLoop_length {toRead fails : Nat} {attempts : List Attempt} {bytes : Bytes}
    {err : Option SourceError} (read : retryLoop toRead fails attempts = some (.ok (bytes, err))) :
    bytes.length ≤ toRead := by
  induction attempts generalizing fails with
  | nil => cases read
  | cons a rest ih =>
      rw [retryLoop] at read
      split at read
      · cases read
      · split at read
        · split at read
          · cases read
          · exact ih read
        · split at read
          · next got opened =>
              cases read
              exact op_length opened
          · split at read
            · cases read
            · exact ih read

/-- No more than was asked for, on any of the paths. -/
theorem readBlock_length {t : Turn} {toRead recoveries recoveries' : Nat} {bytes : Bytes}
    {err : Option SourceError} (read : readBlock t toRead recoveries = .ok (.got bytes err recoveries')) :
    bytes.length ≤ toRead := by
  unfold readBlock at read
  split at read
  · cases read
    rw [List.length_take]
    exact Nat.min_le_left _ _
  · split at read
    · cases read
    · split at read
      · cases read
      · split at read
        · cases read
        · cases read
      · next bytes err retried =>
          cases read
          unfold retrySource at retried
          split at retried
          · cases retried
          · exact retryLoop_length retried

/-- What the read loop gets of its turns. -/
def readContent (turn : Nat → Turn) (declaredSize : Nat) : Nat → Nat → Nat → Bytes
  | 0, _, _ => []
  | fuel + 1, recoveries, written =>
      if written < declaredSize then
        match readBlock (turn fuel) (min blockSize (declaredSize - written)) recoveries with
        | .ok (.got bytes err recoveries) =>
            if err = some .eof then bytes
            else bytes ++ readContent turn declaredSize fuel recoveries (written + bytes.length)
        | _ => []
      else []

theorem readLoop_content {split : Bool} {fails : Nat → Bool} {turn : Nat → Turn}
    {declaredSize fuel recoveries written written' : Nat} {failed : Option SourceError} {s s' : State}
    (most : written ≤ declaredSize)
    (ran : readLoop split fails turn declaredSize fuel recoveries written s = .ok (written', failed, s')) :
    Puts split (readContent turn declaredSize fuel recoveries written) s s' ∧
      written' = written + (readContent turn declaredSize fuel recoveries written).length ∧
      written' ≤ declaredSize := by
  induction fuel generalizing recoveries written s with
  | zero => cases ran
  | succ fuel ih =>
      rw [readLoop] at ran
      rw [readContent]
      split at ran
      · next more =>
          rw [if_pos more]
          obtain ⟨waited, called, ran⟩ := bind_ok ran
          obtain ⟨read, block, ran⟩ := bind_ok ran
          rw [block]
          cases read with
          | readFailed err =>
              cases ran
              exact ⟨call_puts called, rfl, most⟩
          | got bytes err recoveries' =>
              have short := readBlock_length block
              have room : written + bytes.length ≤ declaredSize := by omega
              obtain ⟨after, put, ran⟩ := bind_ok ran
              have puts := (call_puts called).trans (put_puts put)
              rw [List.nil_append] at puts
              dsimp only
              split at ran
              · next ended =>
                  cases ran
                  rw [if_pos ended]
                  exact ⟨puts, rfl, room⟩
              · next goes =>
                  obtain ⟨later, total, bound⟩ := ih room ran
                  rw [if_neg goes]
                  refine ⟨puts.trans later, ?_, bound⟩
                  rw [List.length_append, total, Nat.add_assoc]
      · next whole =>
          cases ran
          rw [if_neg whole]
          exact ⟨Puts.refl split _, rfl, most⟩

theorem pad_puts {split : Bool} {fails : Nat → Bool} (remaining : Nat) {s s' : State}
    (ran : pad split fails remaining s = .ok s') :
    Puts split (List.replicate remaining 0) s s' := by
  induction remaining using Nat.strong_induction_on generalizing s with
  | _ remaining ih =>
      rw [pad] at ran
      split at ran
      · next more =>
          obtain ⟨middle, wrote, ran⟩ := bind_ok ran
          have less : remaining - min blockSize remaining < remaining := by
            unfold blockSize
            omega
          have puts := (written_puts wrote).trans (ih _ less ran)
          rw [← List.replicate_add, Nat.add_sub_cancel' (Nat.min_le_right _ _)] at puts
          exact puts
      · next none_ =>
          cases ran
          rw [Nat.eq_zero_of_not_pos none_]
          exact Puts.refl split _

/-! The ENTRY of a padded file. -/

/-- The metadata a file is stored with. -/
def stored (cfg : Config) (padded : Bool) (info : Stat) : EntryMeta :=
  let m := entryMetaFor cfg info IFREG
  if cfg.Split ∧ padded ∧ !cfg.NoMTime then { m with nanos := m.nanos ^^^ 1 } else m

theorem entryFront_length (m : EntryMeta) : (entryFront m).length = entryNanosOffset := by
  simp [entryFront, entryNanosOffset]

theorem entryMetaFor_nanos (cfg : Config) (info : Stat) :
    (entryMetaFor cfg info IFREG).nanos = 0 ∨ (entryMetaFor cfg info IFREG).nanos = info.nanos := by
  unfold entryMetaFor
  dsimp only
  split
  · exact Or.inl rfl
  · split
    · exact Or.inr rfl
    · unfold entryMeta
      split
      · exact Or.inr rfl
      · exact Or.inl rfl

/-- Four bytes hold them. -/
theorem nanos_fits (cfg : Config) (info : Stat) : (entryMetaFor cfg info IFREG).nanos < 256 ^ 4 := by
  rcases entryMetaFor_nanos cfg info with none_ | same
  · rw [none_]
    norm_num
  · rw [same]
    exact lt_of_lt_of_le info.below (by norm_num)

theorem mark_entry (cfg : Config) (m : EntryMeta) (fits : m.nanos < 256 ^ 4) (front rest : Bytes)
    (s : State) (times : cfg.NoMTime = false) (buffer : s.buffer = front ++ entryRecord m ++ rest) :
    markEntryIncomplete cfg front.length s =
      { s with buffer := front ++ entryRecord { m with nanos := m.nanos ^^^ 1 } ++ rest } := by
  have parts : s.buffer = (front ++ entryFront m) ++ (LittleEndian.encode 4 m.nanos ++
      (LittleEndian.encode 4 0 ++ rest)) := by
    rw [buffer, entryRecord]
    simp only [List.append_assoc]
  have place : front.length + entryNanosOffset = (front ++ entryFront m).length := by
    rw [List.length_append, entryFront_length]
  have width : (LittleEndian.encode 4 m.nanos).length = 4 := LittleEndian.encode_length 4 m.nanos
  have nanos : LittleEndian.decode ((s.buffer.drop (front.length + entryNanosOffset)).take 4) = m.nanos := by
    rw [parts, place, List.drop_left, List.take_left' width, LittleEndian.decode_encode 4 _ fits]
  have before : s.buffer.take (front.length + entryNanosOffset) = front ++ entryFront m := by
    rw [parts, place, List.take_left]
  have behind : s.buffer.drop (front.length + entryNanosOffset + 4) = LittleEndian.encode 4 0 ++ rest := by
    rw [← List.drop_drop, parts, place, List.drop_left, List.drop_left' width]
  have inside : ¬ front.length + entryNanosOffset + 4 > s.buffer.length := by
    have total := congrArg List.length parts
    rw [List.length_append, ← place, List.length_append, width] at total
    omega
  unfold markEntryIncomplete
  rw [if_neg (by rw [times]; exact Bool.false_ne_true), if_neg inside]
  dsimp only
  rw [nanos, before, behind]
  simp only [entryRecord, entryFront, List.append_assoc]

/-- Nothing but the held metadata changes. -/
theorem mark_frame (cfg : Config) (entryAt : Nat) (s : State) :
    (markEntryIncomplete cfg entryAt s).sent = s.sent ∧
    (markEntryIncomplete cfg entryAt s).payloadBuffer = s.payloadBuffer ∧
    (markEntryIncomplete cfg entryAt s).payloadSent = s.payloadSent ∧
    (markEntryIncomplete cfg entryAt s).payloadPos = s.payloadPos := by
  unfold markEntryIncomplete
  split
  · exact ⟨rfl, rfl, rfl, rfl⟩
  · split
    · exact ⟨rfl, rfl, rfl, rfl⟩
    · exact ⟨rfl, rfl, rfl, rfl⟩

/-- The nanoseconds a later backup reads back. -/
theorem previousFile_nanos (m : EntryMeta) (fits : m.nanos < 256 ^ 4) (size offset : Nat) :
    (previousFile (entryRecord m) size offset).Nanos = m.nanos := by
  have place : (entryFront m).length = 16 + 32 := entryFront_length m
  unfold previousFile entryRecord
  dsimp only
  rw [List.drop_drop, List.drop_left' place, List.take_left' (LittleEndian.encode_length 4 m.nanos),
    LittleEndian.decode_encode 4 _ fits]

theorem asked_nanos (cfg : Config) (info : Stat) (split_ : cfg.Split = true)
    (times : cfg.NoMTime = false) : (entryMetaFor cfg info IFREG).nanos = info.nanos := by
  unfold entryMetaFor
  dsimp only
  rw [if_neg (by rw [times]; exact Bool.false_ne_true)]
  split
  · rfl
  · next real =>
      unfold entryMeta at real ⊢
      split
      · rfl
      · next other =>
          rw [if_neg other] at real
          exact absurd ⟨split_, rfl⟩ real

theorem xor_one_ne (n : Nat) : n ^^^ 1 ≠ n := by
  intro same
  have zero : n ^^^ (n ^^^ 1) = n ^^^ n := congrArg (n ^^^ ·) same
  rw [Nat.xor_self, ← Nat.xor_assoc, Nat.xor_self, Nat.zero_xor] at zero
  exact absurd zero (by decide)

/-! What WriteFile emits. -/

/-- read is what the source gave. -/
structure Emits (cfg : Config) (basename : Bytes) (info : Stat) (read : Bytes) (s s' : State) : Prop where
  most : read.length ≤ info.size
  split : cfg.Split = true →
    s'.payloadSent = s.payloadSent ++ s.payloadBuffer ++ header PXAR_PAYLOAD (info.size + 16) ++
      (read ++ List.replicate (info.size - read.length) 0) ∧
    s'.payloadPos = s.payloadPos + s.payloadBuffer.length + (16 + info.size) ∧
    s'.sent = s.sent ++ s.buffer ++ filenameRecord basename ++
      entryRecord (stored cfg (read.length < info.size) info) ++
      refRecord (s.payloadPos + s.payloadBuffer.length) info.size
  classic : cfg.Split = false →
    s'.sent = s.sent ++ s.buffer ++ filenameRecord basename ++
      entryRecord (stored cfg (read.length < info.size) info) ++ header PXAR_PAYLOAD (info.size + 16) ++
      (read ++ List.replicate (info.size - read.length) 0) ∧
    s'.payloadSent = s.payloadSent ∧ s'.payloadBuffer = s.payloadBuffer
  flushed : s'.buffer = [] ∧ (cfg.Split = true → s'.payloadBuffer = [])

/-- The reference and the header of a split archive's file. -/
theorem beginPayload_split {cfg : Config} {fails : Nat → Bool} {size : Nat} {s s' : State}
    (mode : cfg.Split = true) (ran : beginPayload cfg fails size s = .ok s') :
    (s'.buffer = s.buffer ++ refRecord (s.payloadPos + s.payloadBuffer.length) size ∧
      s'.sent = s.sent) ∧ s'.payloadBuffer = [] ∧
    s'.payloadSent = s.payloadSent ++ s.payloadBuffer ++ header PXAR_PAYLOAD (size + 16) ∧
    s'.payloadPos = s.payloadPos + s.payloadBuffer.length + 16 := by
  unfold beginPayload at ran
  rw [if_pos mode] at ran
  obtain ⟨first, emptied, ran⟩ := bind_ok ran
  obtain ⟨hinted, called, ran⟩ := bind_ok ran
  have drained := flushPayload_ok emptied
  have same := call_ok called
  have last := flushPayload_ok ran
  subst drained
  subst same
  subst last
  refine ⟨⟨rfl, rfl⟩, rfl, ?_, ?_⟩
  · dsimp only
    rw [List.nil_append]
  · dsimp only
    rw [List.nil_append, header_length]

theorem beginPayload_classic {cfg : Config} {fails : Nat → Bool} {size : Nat} {s s' : State}
    (mode : cfg.Split = false) (ran : beginPayload cfg fails size s = .ok s') :
    s'.buffer = [] ∧ s'.sent = s.sent ++ s.buffer ++ header PXAR_PAYLOAD (size + 16) ∧
    s'.payloadBuffer = s.payloadBuffer ∧ s'.payloadSent = s.payloadSent := by
  unfold beginPayload at ran
  rw [if_neg (by rw [mode]; exact Bool.false_ne_true)] at ran
  have last := Flush_ok ran
  subst last
  refine ⟨rfl, ?_, rfl, rfl⟩
  dsimp only
  rw [List.append_assoc]

/-- Behind the loop only the ENTRY changes before the zeros are put. -/
theorem behindLoop_puts {cfg : Config} {fails : Nat → Bool} {info : Stat} {written : Nat}
    {readFailed : Option SourceError} {probe front r : Bytes} {s s' : State}
    (held : cfg.Split = true → s.buffer = front ++ entryRecord (entryMetaFor cfg info IFREG) ++ r)
    (ran : behindLoop cfg fails front.length info.size written readFailed probe s = .ok s') :
    ∃ marked, Puts cfg.Split (List.replicate (info.size - written) 0) marked s' ∧
      (cfg.Split = true → marked.buffer = front ++ entryRecord (stored cfg (written < info.size) info) ++ r) ∧
      (cfg.Split = false → marked.buffer = s.buffer) ∧ marked.sent = s.sent ∧
      marked.payloadBuffer = s.payloadBuffer ∧ marked.payloadSent = s.payloadSent ∧
      marked.payloadPos = s.payloadPos := by
  unfold behindLoop at ran
  split at ran
  · next short =>
      have puts := pad_puts _ ran
      refine ⟨_, puts, ?_, ?_, ?_⟩
      · intro mode
        rw [if_pos mode]
        cases times : cfg.NoMTime with
        | true =>
            have plain : stored cfg (written < info.size) info = entryMetaFor cfg info IFREG := by
              unfold stored
              rw [times]
              exact if_neg fun wrong => absurd wrong.2.2 Bool.false_ne_true
            rw [plain]
            unfold markEntryIncomplete
            rw [if_pos times]
            exact held mode
        | false =>
            have other : stored cfg (written < info.size) info =
                { entryMetaFor cfg info IFREG with nanos := (entryMetaFor cfg info IFREG).nanos ^^^ 1 } := by
              unfold stored
              rw [times]
              exact if_pos ⟨mode, decide_eq_true short, rfl⟩
            rw [other, mark_entry cfg _ (nanos_fits cfg info) front r s times (held mode)]
            rfl
      · intro mode
        rw [if_neg (by rw [mode]; exact Bool.false_ne_true)]
        rfl
      · cases mode : cfg.Split with
        | false => exact ⟨rfl, rfl, rfl, rfl⟩
        | true =>
            rw [if_pos rfl]
            exact mark_frame cfg front.length s
  · next whole =>
      have none_ : info.size - written = 0 := by omega
      have plain : stored cfg (written < info.size) info = entryMetaFor cfg info IFREG := by
        unfold stored
        exact if_neg fun wrong => whole (of_decide_eq_true wrong.2.1)
      refine ⟨s, ?_, ?_, fun _ => rfl, rfl, rfl, rfl, rfl⟩
      · rw [none_]
        split at ran
        · cases ran
          exact ⟨(List.append_nil _).symm, id, fun _ => ⟨rfl, rfl⟩, fun _ => ⟨rfl, rfl⟩, rfl⟩
        · cases ran
          exact Puts.refl cfg.Split _
      · intro mode
        rw [plain]
        exact held mode

/-- A file that WriteFile has written is out whole, with what its source gave. -/
theorem writeFile_content {cfg : Config} {fails : Nat → Bool} {turn : Nat → Turn} {probe : Bytes} {fuel : Nat}
    {basename : Bytes} {info : Stat} {s s' : State} {file : CatalogFile}
    (ran : WriteFile cfg fails turn probe fuel basename info s = .ok (file, s')) :
    Emits cfg basename info (readContent turn info.size fuel 0 0) s s' := by
  unfold WriteFile writeFileHead at ran
  dsimp only at ran
  obtain ⟨begun, began, ran⟩ := bind_ok ran
  obtain ⟨⟨written, readFailed, looped⟩, loop, ran⟩ := bind_ok ran
  obtain ⟨filled, behind, ran⟩ := bind_ok ran
  obtain ⟨last, flushed, ran⟩ := bind_ok ran
  have out := Flush_ok flushed
  subst out
  cases ran
  obtain ⟨puts, total, most⟩ := readLoop_content (Nat.zero_le _) loop
  rw [Nat.zero_add] at total
  subst total
  generalize readContent turn info.size fuel 0 0 = read at *
  cases mode : cfg.Split with
  | true =>
      obtain ⟨⟨buffer, sent⟩, empty, payload, position⟩ := beginPayload_split mode began
      dsimp only at buffer sent payload position
      obtain ⟨kept, keptSent⟩ := puts.held mode
      obtain ⟨marked, zeros, entry, -, markedSent, markedBuffer, markedPayload, markedPos⟩ :=
        behindLoop_puts (fun _ => kept.trans buffer) behind
      obtain ⟨heldBuffer, heldSent⟩ := zeros.held mode
      rw [mode] at puts zeros
      have readOut : looped.payloadBuffer = [] := puts.drained empty
      have zerosOut : filled.payloadBuffer = [] := zeros.drained (markedBuffer.trans readOut)
      have first : looped.payloadSent ++ looped.payloadBuffer =
        begun.payloadSent ++ begun.payloadBuffer ++ read := puts.stream
      have second : filled.payloadSent ++ filled.payloadBuffer = marked.payloadSent ++
        marked.payloadBuffer ++ List.replicate (info.size - read.length) 0 := zeros.stream
      rw [readOut, empty, List.append_nil, List.append_nil, payload] at first
      rw [zerosOut, markedBuffer, markedPayload, readOut, List.append_nil, List.append_nil, first,
        List.append_assoc _ read] at second
      refine ⟨most, fun _ => ⟨second, ?_, ?_⟩, fun wrong => ?_, rfl, fun _ => zerosOut⟩
      · have before := puts.position
        have after := zeros.position
        have size := congrArg List.length second
        simp only [List.length_append, List.length_replicate, header_length] at size
        rw [markedPos, markedPayload, first] at after
        rw [payload, position, first] at before
        simp only [List.length_append, header_length] at before after
        dsimp only
        omega
      · dsimp only
        rw [heldBuffer, heldSent, entry mode, markedSent, keptSent, sent]
        simp only [List.append_assoc]
      · rw [mode] at wrong
        cases wrong
  | false =>
      obtain ⟨empty, sent, payloadBuffer, payload⟩ := beginPayload_classic mode began
      dsimp only at sent payloadBuffer payload
      obtain ⟨keptBuffer, kept⟩ := puts.other mode
      obtain ⟨marked, zeros, -, sameBuffer, markedSent, markedBuffer, markedPayload, -⟩ :=
        behindLoop_puts (r := []) (fun wrong => absurd (mode.symm.trans wrong) Bool.false_ne_true) behind
      obtain ⟨heldBuffer, held⟩ := zeros.other mode
      have same := sameBuffer mode
      rw [mode] at puts zeros
      have readOut : looped.buffer = [] := puts.drained empty
      have first : looped.sent ++ looped.buffer = begun.sent ++ begun.buffer ++ read := puts.stream
      have second : filled.sent ++ filled.buffer = marked.sent ++ marked.buffer ++
        List.replicate (info.size - read.length) 0 := zeros.stream
      have plain : stored cfg (read.length < info.size) info = entryMetaFor cfg info IFREG := by
        unfold stored
        rw [mode]
        exact if_neg fun wrong => absurd wrong.1 Bool.false_ne_true
      rw [readOut, empty, List.append_nil, List.append_nil, sent] at first
      rw [same, markedSent, readOut, List.append_nil, first] at second
      refine ⟨most, fun wrong => ?_, fun _ => ⟨?_, ?_, ?_⟩, rfl, fun wrong => ?_⟩
      · rw [mode] at wrong
        cases wrong
      · dsimp only
        rw [second, plain]
        simp only [List.append_assoc]
      · exact (held.trans markedPayload).trans (kept.trans payload)
      · exact (heldBuffer.trans markedBuffer).trans (keptBuffer.trans payloadBuffer)
      · rw [mode] at wrong
        cases wrong

theorem writeFile_emits {cfg : Config} {fails : Nat → Bool} {turn : Nat → Turn} {probe : Bytes} {fuel : Nat}
    {basename : Bytes} {info : Stat} {s s' : State} {file : CatalogFile}
    (ran : WriteFile cfg fails turn probe fuel basename info s = .ok (file, s')) :
    ∃ read, Emits cfg basename info read s s' := ⟨_, writeFile_content ran⟩

/-! The loops end: a turn brings a byte, the end of the file or one of the recoveries. -/

/-- Read returns no bytes only with an error, and retrySource does not outlive its deadline. -/
structure Goes (t : Turn) : Prop where
  reads : t.data = [] → t.err ≠ none
  deadline : ∃ a ∈ t.attempts, a.late = true

theorem call_ends (fails : Nat → Bool) (s : State) : s.call fails ≠ .error .running := by
  unfold State.call
  intro ran
  split at ran
  · cases ran
  · cases ran

theorem Flush_ends (fails : Nat → Bool) (s : State) : s.Flush fails ≠ .error .running := by
  intro ran
  rcases bind_failed ran with called | ⟨_, -, ran⟩
  · exact call_ends fails s called
  · cases ran

theorem flushPayload_ends (fails : Nat → Bool) (s : State) : s.flushPayload fails ≠ .error .running := by
  intro ran
  rcases bind_failed ran with called | ⟨_, -, ran⟩
  · exact call_ends fails s called
  · cases ran

theorem flush_ends (split : Bool) (fails : Nat → Bool) (s : State) :
    s.flush split fails ≠ .error .running := by
  cases split with
  | true => exact flushPayload_ends fails s
  | false => exact Flush_ends fails s

theorem pad_ends (split : Bool) (fails : Nat → Bool) (remaining : Nat) (s : State) :
    pad split fails remaining s ≠ .error .running := by
  induction remaining using Nat.strong_induction_on generalizing s with
  | _ remaining ih =>
      intro ran
      rw [pad] at ran
      split at ran
      · rcases bind_failed ran with wrote | ⟨middle, -, ran⟩
        · exact flush_ends split fails _ wrote
        · have less : remaining - min blockSize remaining < remaining := by
            unfold blockSize
            omega
          exact ih _ less middle ran
      · cases ran

theorem beginPayload_ends (cfg : Config) (fails : Nat → Bool) (size : Nat) (s : State) :
    beginPayload cfg fails size s ≠ .error .running := by
  intro ran
  unfold beginPayload at ran
  split at ran
  · rcases bind_failed ran with emptied | ⟨first, -, ran⟩
    · exact flushPayload_ends fails s emptied
    · rcases bind_failed ran with called | ⟨hinted, -, ran⟩
      · exact call_ends fails _ called
      · exact flushPayload_ends fails _ ran
  · exact Flush_ends fails _ ran

theorem behindLoop_ends (cfg : Config) (fails : Nat → Bool) (entryAt declaredSize written : Nat)
    (readFailed : Option SourceError) (probe : Bytes) (s : State) :
    behindLoop cfg fails entryAt declaredSize written readFailed probe s ≠ .error .running := by
  intro ran
  unfold behindLoop at ran
  split at ran
  · exact pad_ends _ _ _ _ ran
  · split at ran
    · cases ran
    · cases ran

theorem retryLoop_ends (toRead fails : Nat) (attempts : List Attempt)
    (deadline : ∃ a ∈ attempts, a.late = true) : retryLoop toRead fails attempts ≠ none := by
  induction attempts generalizing fails with
  | nil =>
      obtain ⟨a, wrong, -⟩ := deadline
      cases wrong
  | cons a rest ih =>
      -- an attempt behind the deadline is the last one, whatever it meets
      have later : a.late = false → ∃ a ∈ rest, a.late = true := by
        intro early
        obtain ⟨b, member, late⟩ := deadline
        rcases List.mem_cons.mp member with same | member
        · rw [same, early] at late
          cases late
        · exact ⟨b, member, late⟩
      intro ran
      rw [retryLoop] at ran
      split at ran
      · cases ran
      · split at ran
        · split at ran
          · cases ran
          · next early => exact ih fails (later (by simpa using early)) ran
        · split at ran
          · cases ran
          · split at ran
            · cases ran
            · next early =>
                have early : a.late = false := by
                  cases is : a.late with
                  | true => exact absurd (Or.inr is) early
                  | false => rfl
                exact ih (fails + 1) (later early) ran

theorem readBlock_ends {t : Turn} {toRead recoveries : Nat} (goes : Goes t) :
    readBlock t toRead recoveries ≠ .error .running := by
  intro ran
  unfold readBlock at ran
  split at ran
  · cases ran
  · split at ran
    · cases ran
    · split at ran
      · next err _ none_ =>
          unfold retrySource at none_
          split at none_
          · cases none_
          · exact retryLoop_ends toRead 0 t.attempts goes.deadline none_
      · split at ran
        · cases ran
        · cases ran
      · cases ran

/-- What a turn is good for. -/
theorem readBlock_goes {t : Turn} {toRead recoveries recoveries' : Nat} {bytes : Bytes}
    {err : Option SourceError} (goes : Goes t) (asked : 0 < toRead)
    (read : readBlock t toRead recoveries = .ok (.got bytes err recoveries')) :
    recoveries' = recoveries ∧ (0 < bytes.length ∨ err = some .eof) ∨
      recoveries < maxReadRecoveries ∧ recoveries' = recoveries + 1 := by
  unfold readBlock at read
  split at read
  · next none_ =>
      cases read
      refine Or.inl ⟨rfl, ?_⟩
      unfold readError at none_
      split at none_
      · next blank =>
          have data : t.data = [] := by
            cases is : t.data with
            | nil => rfl
            | cons b rest =>
                have first := congrArg List.length blank.1
                rw [is, List.length_take, List.length_cons, List.length_nil] at first
                omega
          exact absurd none_ (goes.reads data)
      · next some_ =>
          by_cases blank : t.data.take toRead = []
          · exact Or.inr (by
              by_contra other
              exact some_ ⟨blank, other⟩)
          · exact Or.inl (List.length_pos_iff.mpr blank)
  · split at read
    · cases read
    · next fewer =>
        split at read
        · cases read
        · split at read
          · cases read
          · cases read
        · cases read
          exact Or.inr ⟨Nat.lt_of_not_le fewer, rfl⟩

theorem readLoop_ends {split : Bool} {fails : Nat → Bool} {turn : Nat → Turn} {declaredSize : Nat}
    (goes : ∀ k, Goes (turn k)) (fuel recoveries written : Nat) (s : State)
    (enough : declaredSize - written + (maxReadRecoveries - recoveries) < fuel) :
    readLoop split fails turn declaredSize fuel recoveries written s ≠ .error .running := by
  induction fuel generalizing recoveries written s with
  | zero => omega
  | succ fuel ih =>
      intro ran
      rw [readLoop] at ran
      split at ran
      · next more =>
          rcases bind_failed ran with called | ⟨waited, -, ran⟩
          · exact call_ends fails s called
          · rcases bind_failed ran with stuck | ⟨read, block, ran⟩
            · exact readBlock_ends (goes fuel) stuck
            · cases read with
              | readFailed err => cases ran
              | got bytes err recoveries' =>
                  have some_ : 0 < min blockSize (declaredSize - written) := by
                    unfold blockSize
                    omega
                  have good := readBlock_goes (goes fuel) some_ block
                  rcases bind_failed ran with wrote | ⟨after, -, ran⟩
                  · unfold State.put at wrote
                    split at wrote
                    · exact flush_ends split fails _ wrote
                    · cases wrote
                  · split at ran
                    · cases ran
                    · next others =>
                        apply ih recoveries' (written + bytes.length) after _ ran
                        rcases good with ⟨same, longer | ended⟩ | ⟨fewer, counted⟩
                        · omega
                        · exact absurd ended others
                        · omega
      · cases ran

theorem writeFile_ends {cfg : Config} {fails : Nat → Bool} {turn : Nat → Turn} {probe : Bytes}
    {basename : Bytes} {info : Stat} {s : State} (goes : ∀ k, Goes (turn k)) (fuel : Nat)
    (enough : info.size + maxReadRecoveries < fuel) :
    WriteFile cfg fails turn probe fuel basename info s ≠ .error .running := by
  intro ran
  unfold WriteFile writeFileHead at ran
  dsimp only at ran
  rcases bind_failed ran with began | ⟨begun, -, ran⟩
  · exact beginPayload_ends _ _ _ _ began
  · rcases bind_failed ran with loop | ⟨looped, -, ran⟩
    · exact readLoop_ends goes fuel 0 0 begun enough loop
    · rcases bind_failed ran with behind | ⟨filled, -, ran⟩
      · exact behindLoop_ends _ _ _ _ _ _ _ _ behind
      · rcases bind_failed ran with flushed | ⟨last, -, ran⟩
        · exact Flush_ends fails filled flushed
        · cases ran

/-- No backup that sees the file as this one saw it finds it by this record. -/
def Unmatched (record : Bytes) (info : Stat) : Prop :=
  ∀ (chunkDigest : Bytes → Digest) (prev : PreviousSplitArchive chunkDigest) (rel : Bytes) (offset : Nat)
    (later : Config), later.Split = true → later.NoMTime = false →
    prev.Files rel = some (previousFile record info.size offset) → lookup prev rel (asked later info) = none

theorem padded_unmatched {cfg : Config} {info : Stat} (mode : cfg.Split = true)
    (times : cfg.NoMTime = false) : Unmatched (entryRecord (stored cfg true info)) info := by
  intro chunkDigest prev rel offset later split_ laterTimes listed
  have real := asked_nanos cfg info mode times
  have other : (stored cfg true info).nanos = info.nanos ^^^ 1 := by
    unfold stored
    rw [times]
    dsimp only
    rw [if_pos ⟨mode, rfl, rfl⟩]
    exact congrArg (· ^^^ 1) real
  have width : info.nanos < 2 ^ 32 := lt_of_lt_of_le info.below (by norm_num)
  have fits : (stored cfg true info).nanos < 256 ^ 4 := by
    rw [other]
    exact lt_of_lt_of_eq (Nat.xor_lt_two_pow width (by norm_num)) (by norm_num)
  have recorded := previousFile_nanos (stored cfg true info) fits info.size offset
  have seen : (asked later info).nanos = info.nanos := asked_nanos later info split_ laterTimes
  unfold lookup
  rw [listed]
  dsimp only
  rw [if_pos]
  right; right; right; right; right
  rw [recorded, other, seen]
  exact xor_one_ne info.nanos

def nothing : State := ⟨[], [], [], [], 0, [], 0⟩

/-- The file ends behind these bytes. -/
def endsAt (data : Bytes) : Turn :=
  ⟨data, some .eof, false, [⟨none, true, true, ⟨none, none, [], some .eof⟩⟩], false⟩

theorem endsAt_goes (data : Bytes) : Goes (endsAt data) := by
  constructor
  · intro _ wrong
    cases wrong
  · exact ⟨_, List.mem_singleton_self _, rfl⟩

def writesTo (cfg : Config) (data : Bytes) (info : Stat) : Except Halt (CatalogFile × State) :=
  WriteFile cfg (fun _ => false) (fun _ => endsAt data) [] 9 [97] info nothing

/-- What a run has flagged, the content it sent and the ENTRY behind a name of one byte. -/
def outcome (cfg : Config) (data : Bytes) (info : Stat) : Option (List Flag × Bytes × Bytes) :=
  match writesTo cfg data info with
  | .ok (_, s) => some (s.readErrors, s.payloadSent.drop 16, (s.sent.drop 18).take 56)
  | .error _ => none

theorem writesTo_ok {cfg : Config} {data content record : Bytes} {info : Stat} {flags : List Flag}
    (seen : outcome cfg data info = some (flags, content, record)) :
    ∃ file s', writesTo cfg data info = .ok (file, s') ∧ s'.readErrors = flags ∧
      s'.payloadSent.drop 16 = content ∧ (s'.sent.drop 18).take 56 = record := by
  unfold outcome at seen
  split at seen
  · next file s' ran =>
      cases seen
      exact ⟨file, s', ran, rfl, rfl, rfl⟩
  · cases seen

def shrunken : Stat := ⟨0o644, 1000, 1000, 1700000000, 5, 3, by decide⟩

/-- Its time is 1970-01-01, to the nanosecond. -/
def atEpoch : Stat := ⟨0o644, 1000, 1000, 0, 0, 1, by decide⟩

/-- What the padded file's ENTRY lists it as. -/
def listedAs (record : Bytes) : PreviousSplitArchive (id : Bytes → Digest) :=
  ⟨fun _ => some (previousFile record 1 0), []⟩

end ProxmoxBackup.FileContent
