import ProxmoxBackup.Actions
import ProxmoxBackup.Catalog
import ProxmoxBackup.FileContent

/-! walkRange of pbscommon/pxar_reader.go: the walk over an archive's records, with every
read, every section handed out and every folder entered or left. -/

namespace ProxmoxBackup.PxarWalk

open Actions GoValues LittleEndian PxarFormat
open Catalog (Bytes joinArchivePath)
open FileContent (PXAR_ENTRY PXAR_FILENAME PXAR_PAYLOAD_REF)

def PXAR_ENTRY_V1 : Nat := 0x11da850a1c1cceff
def PXAR_SYMLINK : Nat := 0x27f971e7dbf5dc5f
def PXAR_GOODBYE : Nat := 0x2fec4fa642d5731d
def PXAR_FORMAT_VERSION : Nat := 0x730f6c75df16a40d
def IFMT : Nat := 0o0170000
def IFLNK : Nat := 0o0120000
def IFDIR : Nat := 0o0040000

/-- What an io.ReaderAt of a known length serves. -/
structure Stream where
  length : Nat
  byte : Nat → UInt8
  fits : length < 2 ^ 63

inductive ReadError where
  | eof
  | negativeOffset
  deriving DecidableEq

namespace Stream

variable (stream : Stream)

def bytes (off n : Nat) : Bytes := (List.range n).map fun i => stream.byte (off + i)

def readAt (n : Nat) (off : Int) : Except ReadError Bytes :=
  if off < 0 then .error .negativeOffset
  else if stream.length < off + n then .error .eof
  else .ok (stream.bytes off.toNat n)

end Stream

/-- The value of size bytes from o. -/
def field (data : Bytes) (o size : Nat) : Nat := decode ((data.drop o).take size)

structure PXARReader where
  ra : Stream
  payloadRA : Option Stream
  metaOnly : Bool
  lazyPayload : Bool

def newPXARReaderAt (ra : Stream) : PXARReader := ⟨ra, none, false, false⟩

inductive OpenError where
  | metaTooShort (size : Nat)
  | readVersion (err : ReadError)
  | noVersion
  | unsupportedVersion (v : Nat)
  | payloadTooShort (size : Nat)
  | readMarker (err : ReadError)
  | noMarker
  deriving DecidableEq

def newSplitPXARReaderAt (meta_ payload : Stream) : Except OpenError PXARReader :=
  if meta_.length < 24 then .error (.metaTooShort meta_.length)
  else match meta_.readAt 24 0 with
    | .error err => .error (.readVersion err)
    | .ok hdr =>
        if field hdr 0 8 ≠ PXAR_FORMAT_VERSION ∨ field hdr 8 8 ≠ 24 then .error .noVersion
        else if field hdr 16 8 ≠ 2 then .error (.unsupportedVersion (field hdr 16 8))
        else if payload.length < 16 then .error (.payloadTooShort payload.length)
        else match payload.readAt 16 0 with
          | .error err => .error (.readMarker err)
          | .ok hdr =>
              if field hdr 0 8 ≠ PXAR_PAYLOAD_START_MARKER ∨ field hdr 8 8 ≠ 16 then
                .error .noMarker
              else .ok ⟨meta_, some payload, false, false⟩

/-- What a section reads from; checkedPayload looks at the header of its file first. -/
inductive Source where
  | ra
  | payloadRA
  | checkedPayload (offset size : Nat)
  deriving DecidableEq

/-- An io.SectionReader. -/
structure Section where
  source : Source
  offset : Int
  size : Int
  deriving DecidableEq

structure PXARTreeEntry where
  path : Bytes
  isDir : Bool
  size : Nat
  mode : Nat
  modTime : Int
  modNanos : Nat
  modTimeSet : Bool
  uid : Nat
  gid : Nat
  isSymlink : Bool
  linkTarget : Bytes
  weight : Int
  payloadOffset : Nat
  hasPayloadRef : Bool
  deriving DecidableEq

structure PXARHeader where
  type : Nat
  size : Nat

inductive PayloadError where
  | noPayloadStream
  | outside (offset size payloadSize : Nat)
  | readHeader (offset : Nat) (err : ReadError)
  | noMatch (offset size : Nat)
  deriving DecidableEq

/-- What walkRange returns with; Err is an error of the callback. -/
inductive WalkError (Err : Type) where
  | readHeader (offset : Int) (err : ReadError)
  | invalidHeaderSize (size : Nat) (offset : Int)
  | headerTooLarge (size remaining : Nat) (offset : Int)
  | readFilename (err : ReadError)
  | readEntry (err : ReadError)
  | readPayload
  | readReference (err : ReadError)
  | referenceTooShort (length : Nat) (offset : Int)
  | payload (path : Bytes) (err : PayloadError)
  | readSymlink (err : ReadError)
  | callback (err : Err)
  deriving DecidableEq

/-- What the walk does with a stream, with a payload and with its stack of folders. -/
inductive Use where
  | header (offset : Int)
  | content (offset n : Int)
  | payloadHeader (offset : Int)
  | handed (payload : Section)
  | entered
  | left
  deriving DecidableEq

/-- The variables of walkRange and the reader's offset; what the callback has gathered and
the uses so far. The top of the stack is the head of the list. -/
structure Walk (σ : Type) where
  offset : Int
  pathStack : List Bytes
  currentPath : Bytes
  pendingName : Bytes
  pendingFileMode : Nat
  pendingFileMtime : Nat
  pendingUID : Nat
  pendingGID : Nat
  pendingNanos : Nat
  hasPendingFile : Bool
  lastEmit : Int
  rootSeen : Bool
  topLevelNames : Nat
  gathered : σ
  uses : List Use

variable {σ Err : Type}

namespace Walk

def use (w : Walk σ) (u : Use) : Walk σ := { w with uses := w.uses ++ [u] }

/-- Behind an entry the callback has had. -/
def settled (w : Walk σ) : Walk σ := { w with hasPendingFile := false, pendingName := [] }

def enter (w : Walk σ) (subPath : Bytes) : Walk σ :=
  { w.use .entered with pathStack := w.currentPath :: w.pathStack, currentPath := subPath }

def leave (w : Walk σ) : Walk σ :=
  match w.pathStack with
  | above :: rest => { w.use .left with pathStack := rest, currentPath := above }
  | [] => { w with currentPath := [] }

end Walk

abbrev Step (σ Err α : Type) := Action (Walk σ) (WalkError Err) α

abbrev Callback (σ Err : Type) := σ → PXARTreeEntry → Option Section → σ × Option Err

/-- The largest make Go has an address for; a larger or a negative one is a panic. -/
def maxAlloc : Int := 2 ^ 48

/-- bytes.TrimRight(data, "\x00") -/
def trimRight (data : Bytes) : Bytes := (data.reverse.dropWhile (· == 0)).reverse

/-- The entry of the pending file, but for what its last record says. -/
def pendingEntry (w : Walk σ) : PXARTreeEntry where
  path := joinArchivePath w.currentPath w.pendingName
  isDir := false
  size := 0
  mode := w.pendingFileMode % 2 ^ 32
  modTime := int64 w.pendingFileMtime
  modNanos := w.pendingNanos
  modTimeSet := true
  uid := w.pendingUID
  gid := w.pendingGID
  isSymlink := false
  linkTarget := []
  weight := 0
  payloadOffset := 0
  hasPayloadRef := false

def emitted (cb : Callback σ Err) (entry : PXARTreeEntry) (payload : Option Section) :
    Step σ Err Unit := fun w =>
  match cb w.gathered entry payload with
  | (gathered, none) => .went () { w with gathered := gathered }
  | (gathered, some err) => .ended (.failed (.callback err)) { w with gathered := gathered }

/-- The callback gets an entry, and the section of its content. -/
def emit (cb : Callback σ Err) (entry : PXARTreeEntry) : Option Section → Step σ Err Unit
  | some s => fun w => emitted cb entry (some s) (w.use (.handed s))
  | none => emitted cb entry none

def skip (n : Int) : Step σ Err Unit := change fun w => { w with offset := int64 (w.offset + n) }

namespace PXARReader

variable (pr : PXARReader)

def size : Int := pr.ra.length

/-- What the 16 bytes at a reference must say. -/
def matchingHeader (offset size : Nat) : Except ReadError Bytes → Except PayloadError Unit
  | .error err => .error (.readHeader offset err)
  | .ok raw =>
      if field raw 0 8 ≠ PXAR_PAYLOAD ∨ field raw 8 8 ≠ uint64 (size + 16) then
        .error (.noMatch offset size)
      else .ok ()

/-- The payload stream's header in front of a file's content. -/
def checkPayloadHeader (p : Stream) (offset size : Nat) : Except PayloadError Unit :=
  matchingHeader offset size (p.readAt 16 (int64 offset))

def payloadSection (path : Bytes) (offset size : Nat) : Step σ Err Section := fun w =>
  match pr.payloadRA with
  | none => .ended (.failed (.payload path .noPayloadStream)) w
  | some p =>
      if p.length < offset ∨ p.length < size ∨ p.length < uint64 (offset + 16 + size) then
        .ended (.failed (.payload path (.outside offset size p.length))) w
      else if pr.lazyPayload then
        .went ⟨.checkedPayload offset size, int64 (int64 offset + 16), int64 size⟩ w
      else
        let read := w.use (.payloadHeader (int64 offset))
        match checkPayloadHeader p offset size with
        | .error err => .ended (.failed (.payload path err)) read
        | .ok () => .went ⟨.payloadRA, int64 (int64 offset + 16), int64 size⟩ read

/-- An io.EOF is the end of the walk. -/
def readHeader : Step σ Err PXARHeader := fun w =>
  if pr.size < int64 (w.offset + 16) then .ended .stopped w
  else match pr.ra.readAt 16 w.offset with
    | .error .eof => .ended .stopped (w.use (.header w.offset))
    | .error err => .ended (.failed (.readHeader w.offset err)) (w.use (.header w.offset))
    | .ok raw => .went ⟨field raw 0 8, field raw 8 8⟩ (w.use (.header w.offset))

def read (n : Int) (failed : ReadError → WalkError Err) : Step σ Err Bytes := fun w =>
  if pr.size < int64 (w.offset + n) then .ended (.failed (failed .eof)) w
  else if n < 0 ∨ maxAlloc < n then .ended .panicked (w.use (.content w.offset n))
  else match pr.ra.readAt n.toNat w.offset with
    | .error err => .ended (.failed (failed err)) (w.use (.content w.offset n))
    | .ok data =>
        .went data { w.use (.content w.offset n) with offset := int64 (w.offset + n) }

/-! The cases of the walk's switch. -/

def filename (spanMode : Bool) (contentSize : Int) : Step σ Err Unit := do
  reading fun w =>
    if spanMode ∧ w.pathStack = [] then do
      change fun w => { w with topLevelNames := w.topLevelNames + 1 }
      reading fun w => leave (1 < w.topLevelNames) .stopped
    else pure ()
  skip 16
  let data ← pr.read contentSize .readFilename
  change fun w => { w with pendingName := trimRight data }

/-- A folder's entry, which is emitted, or the root's, which is not. -/
def directory (cb : Callback σ Err) (mode mtimeSecs uid gid nanos : Nat) : Step σ Err Unit := do
  reading fun w =>
    if w.rootSeen then do
      let subPath := joinArchivePath w.currentPath w.pendingName
      change fun w => { w with lastEmit := w.offset }
      emit cb { pendingEntry w with
        isDir := true
        mode := mode % 2 ^ 32
        modTime := int64 mtimeSecs
        modNanos := nanos
        uid := uid
        gid := gid
        weight := int64 (w.offset - w.lastEmit) } none
      change fun w => w.enter subPath
    else change fun w => { w with rootSeen := true }
  change Walk.settled

/-- Mode, flags, uid, gid, mtime.secs and mtime.nanos lie in this order in the record. -/
def entry (cb : Callback σ Err) (contentSize : Int) : Step σ Err Unit := do
  skip 16
  let data ← pr.read contentSize .readEntry
  let mode := if 32 ≤ data.length then field data 0 8 else 0
  let mtimeSecs := if 32 ≤ data.length then field data 24 8 else 0
  let uid := if 36 ≤ data.length then field data 16 4 else 0
  let gid := if 36 ≤ data.length then field data 20 4 else 0
  let nanos := if 36 ≤ data.length then field data 32 4 else 0
  if mode &&& IFMT = IFDIR then directory cb mode mtimeSecs uid gid nanos
  else change fun w => { w with
    pendingFileMode := mode
    pendingFileMtime := mtimeSecs
    pendingUID := uid
    pendingGID := gid
    pendingNanos := nanos
    hasPendingFile := true }

def payload (cb : Callback σ Err) (contentSize : Int) : Step σ Err Unit := do
  skip 16
  reading fun w => leave (pr.size < int64 (w.offset + contentSize)) (.failed .readPayload)
  reading fun w =>
    if w.hasPendingFile then do
      change fun w => { w with lastEmit := int64 (w.offset + contentSize) }
      emit cb { pendingEntry w with
        size := uint64 contentSize.toNat
        weight := int64 (w.offset + contentSize - w.lastEmit) }
        (some ⟨.ra, w.offset, contentSize⟩)
      change Walk.settled
    else pure ()
  skip contentSize

/-- The section of a reference; a reader of the metadata alone has none. -/
def referred (path : Bytes) (refOffset refSize : Nat) : Step σ Err (Option Section) :=
  if pr.metaOnly then pure none
  else do
    let s ← pr.payloadSection path refOffset refSize
    pure (some s)

def payloadRef (cb : Callback σ Err) (contentSize : Int) : Step σ Err Unit := do
  skip 16
  let data ← pr.read contentSize .readReference
  reading fun w =>
    leave (data.length < 16) (.failed (.referenceTooShort data.length w.offset))
  reading fun w =>
    if w.hasPendingFile then do
      let refOffset := field data 0 8
      let refSize := field data 8 8
      let payload ← pr.referred (joinArchivePath w.currentPath w.pendingName) refOffset refSize
      change fun w => { w with lastEmit := w.offset }
      emit cb { pendingEntry w with
        size := refSize
        weight := int64 (w.offset - w.lastEmit + int64 refSize)
        payloadOffset := refOffset
        hasPayloadRef := true } payload
      change Walk.settled
    else pure ()

def symlink (cb : Callback σ Err) (contentSize : Int) : Step σ Err Unit := do
  skip 16
  let data ← pr.read contentSize .readSymlink
  reading fun w =>
    if w.hasPendingFile ∧ w.pendingFileMode &&& IFMT = IFLNK then do
      change fun w => { w with lastEmit := w.offset }
      emit cb { pendingEntry w with
        isSymlink := true
        linkTarget := trimRight data
        weight := int64 (w.offset - w.lastEmit) } none
      change Walk.settled
    else pure ()

def goodbye (spanMode : Bool) (headerSize : Nat) : Step σ Err Unit := do
  reading fun w => leave (spanMode ∧ w.pathStack = []) .stopped
  skip (int64 headerSize)
  change Walk.leave

def record (cb : Callback σ Err) (spanMode : Bool) (header : PXARHeader) : Step σ Err Unit :=
  let contentSize := int64 (int64 header.size - 16)
  if header.type = PXAR_FILENAME then pr.filename spanMode contentSize
  else if header.type = PXAR_ENTRY ∨ header.type = PXAR_ENTRY_V1 then pr.entry cb contentSize
  else if header.type = PXAR_PAYLOAD then pr.payload cb contentSize
  else if header.type = PXAR_PAYLOAD_REF then pr.payloadRef cb contentSize
  else if header.type = PXAR_SYMLINK then pr.symlink cb contentSize
  else if header.type = PXAR_GOODBYE then goodbye spanMode header.size
  else skip (int64 header.size)

/-- The body of walkLoop. -/
def walkStep (cb : Callback σ Err) (endOffset : Int) (spanMode : Bool) : Step σ Err Unit := do
  reading fun w => leave (endOffset ≤ w.offset) .stopped
  let header ← pr.readHeader
  reading fun w => leave (header.size < 16) (.failed (.invalidHeaderSize header.size w.offset))
  reading fun w =>
    let remaining := ((pr.size - w.offset) % 2 ^ 64).toNat
    leave (remaining < header.size) (.failed (.headerTooLarge header.size remaining w.offset))
  pr.record cb spanMode header

def start (gathered : σ) (startOffset : Int) (initialPath : Bytes) (rootSeen : Bool) : Walk σ where
  offset := startOffset
  pathStack := []
  currentPath := initialPath
  pendingName := []
  pendingFileMode := 0
  pendingFileMtime := 0
  pendingUID := 0
  pendingGID := 0
  pendingNanos := 0
  hasPendingFile := false
  lastEmit := startOffset
  rootSeen := rootSeen
  topLevelNames := 0
  gathered := gathered
  uses := []

/-- A turn for each header the stream has room for, and the one that ends the walk. -/
def walkRange (cb : Callback σ Err) (gathered : σ) (startOffset endOffset : Int)
    (initialPath : Bytes) (rootSeen : Bool) : Option (Exit (WalkError Err) × Walk σ) :=
  loop (pr.walkStep cb endOffset (rootSeen ∧ 0 < startOffset)) (pr.ra.length / 16 + 1)
    (start gathered startOffset initialPath rootSeen)

def walk (cb : Callback σ Err) (gathered : σ) : Option (Exit (WalkError Err) × Walk σ) :=
  pr.walkRange cb gathered 0 pr.size [] false

end PXARReader

end ProxmoxBackup.PxarWalk
