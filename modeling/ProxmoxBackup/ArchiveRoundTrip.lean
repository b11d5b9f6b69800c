import ProxmoxBackup.ArchiveWalk
import ProxmoxBackup.ArchiveWriter

/-! From the folder that WriteDir walks to the entries that a reader of its streams shows. -/

namespace ProxmoxBackup.ArchiveRoundTrip

open ArchiveItems ArchiveRecords ArchiveWalk
open ArchiveWriter (Listing WriteDir archive archived contentOf metaOf virtualMeta withVirtual)
open Catalog (Bytes)
open FileContent hiding Turn
open GoValues LittleEndian PxarFormat
open PxarWalk (Callback OpenError PXARReader PXARTreeEntry Section field newPXARReaderAt
  newSplitPXARReaderAt)

/-- The names and link targets of a folder are legible. -/
def LegibleNames : Listing → Prop
  | .nil => True
  | .skipped rest => LegibleNames rest
  | .file name _ _ _ rest => Legible name ∧ LegibleNames rest
  | .symlink name _ target rest => Legible name ∧ Legible target ∧ LegibleNames rest
  | .folder name _ inside rest => Legible name ∧ LegibleNames inside ∧ LegibleNames rest

/-! Modes. -/

/-- Permission bits leave the kind of an entry as it is. -/
theorem kind_kept {kind perm : Nat} (among : kind &&& PxarWalk.IFMT = kind) (below : kind < 2 ^ 16) :
    (kind ||| (perm &&& 0o7777)) % 2 ^ 64 &&& PxarWalk.IFMT = kind := by
  have bits : perm &&& 0o7777 < 2 ^ 16 := Nat.lt_of_le_of_lt Nat.and_le_right (by decide)
  have whole : kind ||| (perm &&& 0o7777) < 2 ^ 16 := Nat.or_lt_two_pow below bits
  rw [Nat.mod_eq_of_lt (Nat.lt_trans whole (by decide)), Nat.and_or_distrib_right, among, Nat.and_assoc]
  have apart : 0o7777 &&& PxarWalk.IFMT = 0 := by decide
  rw [apart, Nat.and_zero, Nat.or_zero]

theorem entryMetaFor_mode (cfg : Config) (info : Stat) (kind : Nat) :
    ∃ perm, (entryMetaFor cfg info kind).mode = kind ||| (perm &&& 0o7777) := by
  have either : ∃ perm, (entryMeta cfg.posixFidelity info kind).mode = kind ||| (perm &&& 0o7777) := by
    unfold entryMeta
    split
    · exact ⟨info.perm, rfl⟩
    · exact ⟨0o777, rfl⟩
  unfold entryMetaFor
  dsimp only
  split
  · exact either
  · split <;> exact either

theorem entryMetaFor_kind (cfg : Config) (info : Stat) {kind : Nat} (among : kind &&& PxarWalk.IFMT = kind)
    (below : kind < 2 ^ 16) : (entryMetaFor cfg info kind).mode % 2 ^ 64 &&& PxarWalk.IFMT = kind := by
  obtain ⟨perm, mode⟩ := entryMetaFor_mode cfg info kind
  rw [mode]
  exact kind_kept among below

theorem metaOf_mode (cfg : Config) (fuel : Nat) (info : Stat) (turn : Nat → FileContent.Turn) :
    (metaOf cfg fuel info turn).mode = (entryMetaFor cfg info IFREG).mode := by
  unfold metaOf stored
  dsimp only
  split <;> rfl

theorem archived_readable (cfg : Config) (fuel : Nat) {listing : Listing} (legible : LegibleNames listing) :
    Readable (archived cfg fuel listing) := by
  induction listing with
  | nil => exact trivial
  | skipped rest ih => exact ih legible
  | file name info turn probe rest ih =>
      refine ⟨legible.1, ?_, ih legible.2⟩
      rw [metaOf_mode, entryMetaFor_kind cfg info (by decide) (by decide)]
      decide
  | symlink name info target rest ih =>
      exact ⟨legible.1, legible.2.1, entryMetaFor_kind cfg info (by decide) (by decide), ih legible.2.2⟩
  | folder name info inside rest ihInside ih =>
      exact ⟨legible.1, entryMetaFor_kind cfg info (by decide) (by decide), ihInside legible.2.1,
        ih legible.2.2⟩

theorem archive_readable (cfg : Config) (fuel : Nat) {virtualFiles : List (Bytes × Bytes)} {info : Stat}
    {listing : Listing} (names : ∀ file ∈ virtualFiles, Legible file.1) (legible : LegibleNames listing) :
    Readable (archive cfg fuel virtualFiles info listing) := by
  unfold archive
  induction virtualFiles with
  | nil => exact archived_readable cfg fuel legible
  | cons file rest ih =>
      obtain ⟨first, others⟩ := List.forall_mem_cons.mp names
      exact ⟨first, show (IFREG ||| 0o444) % 2 ^ 64 &&& PxarWalk.IFMT ≠ PxarWalk.IFDIR by decide, ih others⟩

/-! A reader of what was written. -/

/-- The streams that WriteDir has handed on, opened again. -/
def reopened (cfg : Config) (s : State) (records : s.sent.length < 2 ^ 63)
    (contents : s.payloadSent.length < 2 ^ 63) : Except OpenError PXARReader :=
  if cfg.Split then newSplitPXARReaderAt (streamOf s.sent records) (streamOf s.payloadSent contents)
  else .ok (newPXARReaderAt (streamOf s.sent records))

theorem version_fields : field versionRecord 0 8 = PxarWalk.PXAR_FORMAT_VERSION ∧
    field versionRecord 8 8 = 24 ∧
    field versionRecord 16 8 = 2 := words_read ⟨by decide, by decide, by decide⟩

theorem marker_fields (type : Nat) (word : type < 2 ^ 64) : field (header type 16) 0 8 = type ∧
    field (header type 16) 8 8 = 16 := by
  unfold header
  refine ⟨?_, ?_⟩
  · rw [field_encode, Nat.mod_eq_of_lt (by omega)]
  · rw [field_behind (by rw [encode_length]), encode_length, ← List.append_nil (encode 8 16), field_encode,
      Nat.mod_eq_of_lt (by decide)]

theorem streamOf_written {bytes written : Bytes} (same : bytes = written) (fits : bytes.length < 2 ^ 63) :
    Holds (streamOf bytes fits) 0 written := by
  subst same
  exact streamOf_holds bytes fits

theorem split_opens {records contents : Bytes} {rest more : Bytes}
    (records_ : records = versionRecord ++ rest)
    (contents_ : contents = header PXAR_PAYLOAD_START_MARKER 16 ++ more) (fits : records.length < 2 ^ 63)
    (fits' : contents.length < 2 ^ 63) : newSplitPXARReaderAt (streamOf records fits)
      (streamOf contents fits') =
      .ok ⟨streamOf records fits, some (streamOf contents fits'), false, false⟩ := by
  have version := streamOf_written records_ fits
  have marker := streamOf_written contents_ fits'
  generalize streamOf records fits = stream at version ⊢
  generalize streamOf contents fits' = payload at marker ⊢
  have long := version.left.inside
  have long' := marker.left.inside
  have read := version.left.readAt
  have read' := marker.left.readAt
  have length : versionRecord.length = 24 := by
    rw [versionRecord, List.length_append, header_length, encode_length]
  rw [length] at long read
  rw [header_length] at long' read'
  obtain ⟨first, second, third⟩ := version_fields
  obtain ⟨type, size⟩ := marker_fields PXAR_PAYLOAD_START_MARKER (by decide)
  unfold newSplitPXARReaderAt
  rw [if_neg (by omega)]
  have opening : stream.readAt 24 0 = .ok versionRecord := read
  have opening' : payload.readAt 16 0 = .ok (header PXAR_PAYLOAD_START_MARKER 16) := read'
  rw [opening]
  dsimp only
  rw [first, second, third, if_neg (by simp), if_neg (by simp), if_neg (by omega), opening']
  dsimp only
  rw [type, size, if_neg (by simp)]

theorem reopened_opened {cfg : Config} {hash : Bytes → UInt64} {m : EntryMeta} {items : Items} {s : State}
    (sent : s.sent = metadata hash cfg.Split m items)
    (paid : cfg.Split = true → s.payloadSent = payloadStream items) (records : s.sent.length < 2 ^ 63)
    (contents : s.payloadSent.length < 2 ^ 63) :
    ∃ pr, reopened cfg s records contents = .ok pr ∧ pr.metaOnly = false ∧
      ∀ later, Opened { pr with lazyPayload := later } hash cfg.Split m items := by
  have main := streamOf_written sent records
  have whole : (streamOf s.sent records).length = (metadata hash cfg.Split m items).length := by
    rw [← sent]
    rfl
  unfold reopened
  cases mode : cfg.Split with
  | true =>
      rw [mode] at main whole sent
      have version := sent
      rw [metadata, if_pos rfl] at version
      have second := paid mode
      rw [payloadStream, List.append_assoc] at second
      have behind := streamOf_written second contents
      rw [if_pos rfl, split_opens version second records contents]
      refine ⟨_, rfl, rfl, fun later => ⟨main, whole, fun _ => ⟨_, rfl, ?_⟩⟩⟩
      have held := behind.right.left
      rw [header_length] at held
      exact held
  | false =>
      rw [mode] at main whole
      rw [if_neg Bool.false_ne_true]
      exact ⟨_, rfl, rfl, fun later => ⟨main, whole, fun wrong => by cases wrong⟩⟩

theorem bind_ran {E α β : Type} {x : Except E α} {f : α → Except E β} {a : α} {b : β} (first : x = .ok a)
    (second : f a = .ok b) : (x >>= f) = .ok b := by
  rw [first]
  exact second

/-- A run with so many bytes at most in either stream. -/
structure Short (n : Nat) (s : State) : Prop where
  records : s.sent.length + s.buffer.length ≤ n
  contents : s.payloadSent.length + s.payloadBuffer.length ≤ n

def quiet (_ : Nat) : Bool := false

theorem closeDir_ran {n : Nat} (dirStart : Nat) {items : List GoodbyeTable.GoodByeItem} {s : State}
    (word : items.length < 2 ^ 63) (short : Short n s) :
    ∃ next, ArchiveWriter.closeDir quiet dirStart items s = .ok next ∧
      Short (n + goodbyeLength items.length) next := by
  obtain ⟨table, -, laid, -⟩ := goodbyeTable_laid word
  have size := goodbyeTable_length laid
  have records := short.records
  unfold ArchiveWriter.closeDir
  rw [laid]
  refine ⟨_, bind_ran rfl (bind_ran rfl (bind_ran rfl rfl)), ?_,
    Nat.le_trans short.contents (Nat.le_add_right _ _)⟩
  simp only [ArchiveWriter.State.append, List.length_append, List.length_nil, goodbyeRecord_length,
    List.length_map, size]
  omega

theorem whole_second : 0 < 10 ^ 9 := by decide

def linkFolder : Listing := .symlink [108] ⟨0o777, 0, 0, 8, 0, 1, whole_second⟩ [116] .nil

def linkConfig : Config := ⟨true, false, true⟩

def linkHash (name : Bytes) : UInt64 := UInt64.ofNat name.length

theorem linkFolder_ran {n : Nat} {s : State} (short : Short n s) : ∃ i next,
    ArchiveWriter.writeEntries linkConfig linkHash quiet 0 linkFolder s = .ok ([i], next) ∧
      Short (n + 100) next := by
  have records := short.records
  refine ⟨_, _, bind_ran rfl (bind_ran rfl (bind_ran rfl rfl)), ?_,
    Nat.le_trans short.contents (Nat.le_add_right _ _)⟩
  simp only [ArchiveWriter.State.append, List.length_append, List.length_nil, filenameRecord_length,
    entryRecord_length, symlinkRecord_length, List.length_singleton]
  omega

theorem openDir_ran {n : Nat} {s : State} (info : Stat) (short : Short n s) : ∃ dirStart next,
    ArchiveWriter.openDir linkConfig quiet info s = .ok (dirStart, next) ∧ Short (n + 56) next := by
  have records := short.records
  refine ⟨_, _, bind_ran rfl (bind_ran rfl rfl), ?_, Nat.le_trans short.contents (Nat.le_add_right _ _)⟩
  simp only [ArchiveWriter.State.append, List.length_append, List.length_nil, entryRecord_length]
  omega

theorem linkFolder_written : ∃ s, WriteDir linkConfig linkHash quiet 0 [] ⟨0o755, 0, 0, 9, 0, 0, by decide⟩
    linkFolder nothing = .ok s ∧ s.sent.length < 2 ^ 63 ∧ s.payloadSent.length < 2 ^ 63 := by
  obtain ⟨begun, begin_, short⟩ : ∃ begun, ArchiveWriter.beginStreams linkConfig quiet
    { nothing with calls := 1 } =
      .ok begun ∧ Short 100 begun := by
    refine ⟨_, rfl, ?_, ?_⟩ <;> decide +kernel
  obtain ⟨dirStart, opened, open_, short⟩ := openDir_ran ⟨0o755, 0, 0, 9, 0, 0, by decide⟩ short
  obtain ⟨i, walked, walk, short⟩ := linkFolder_ran short
  obtain ⟨closed, close, short⟩ := closeDir_ran dirStart (show [i].length < 2 ^ 63 by simp) short
  obtain ⟨ended, end_, short⟩ : ∃ ended, ArchiveWriter.endStreams linkConfig quiet closed = .ok ended ∧
      Short 1000 ended := by
    have records := short.records
    have contents := short.contents
    simp only [goodbyeLength, List.length_singleton] at records contents
    refine ⟨_, rfl, Nat.le_trans records (by decide), ?_⟩
    simp only [List.length_append, List.length_nil, ArchiveWriter.State.appendPayload, header_length]
    omega
  refine ⟨_, bind_ran rfl (bind_ran (congrArg ArchiveWriter.lifted begin_) (bind_ran
    (congrArg ArchiveWriter.lifted open_) (bind_ran rfl (bind_ran walk (bind_ran close
      (bind_ran (congrArg ArchiveWriter.lifted end_) rfl)))))), ?_, ?_⟩
  · have records := short.records
    dsimp only
    omega
  · have contents := short.contents
    dsimp only
    omega

end ProxmoxBackup.ArchiveRoundTrip
