import ProxmoxBackup.Leb128
import ProxmoxBackup.LittleEndian
import Mathlib.Data.List.Perm.Basic
import Mathlib.Data.List.Flatten

/-! The catalog of a snapshot: the tables WriteDir of pbscommon/pxar.go writes, a
directory's after those of its subfolders, each subfolder named by how far back its
table starts; and ParseCatalog of pbscommon/catalog_reader.go, which follows them
down from the pointer at the end. -/

namespace ProxmoxBackup.Catalog

abbrev Bytes := List UInt8

/-- What WriteDir archives of one directory, in the order it meets it, with the
times and sizes the disk shows. Skipped and excluded entries are not in it. -/
inductive Listing where
  | nil
  | file (name : Bytes) (unix : Int64) (size : UInt64) (rest : Listing)
  | symlink (name : Bytes) (unix : Int64) (size : UInt64) (rest : Listing)
  | folder (name : Bytes) (unix : Int64) (inside rest : Listing)

structure CatalogDir where
  name : Bytes
  pos : Nat
  deriving DecidableEq

structure CatalogFile where
  name : Bytes
  mTime : UInt64
  size : UInt64
  /-- Zero for a regular file. -/
  kind : UInt8

def catalogMTime (noMTime : Bool) (unix : Int64) : UInt64 := if noMTime then 0 else unix.toUInt64

def block (table : Bytes) : Bytes := Leb128.encode table.length ++ table

def text (name : Bytes) : Bytes := Leb128.encode name.length ++ name

-- The letters are 'd', 'l' and 'f'.
def dirEntry (oldpos : Nat) (d : CatalogDir) : Bytes :=
  100 :: (text d.name ++ Leb128.encode (oldpos - d.pos))

def fileEntry (f : CatalogFile) : Bytes :=
  if f.kind = 108 then 108 :: text f.name
  else 102 :: (text f.name ++ (Leb128.encode f.size.toNat ++ Leb128.encode f.mTime.toNat))

def table (oldpos : Nat) (dirs : List CatalogDir) (files : List CatalogFile) : Bytes :=
  Leb128.encode (files.length + dirs.length) ++
    (dirs.flatMap (dirEntry oldpos) ++ files.flatMap fileEntry)

/-- Where a directory stands once its entries are archived: the tables sent for the
folders below it, and what its own table is made from. -/
structure Written where
  sent : List Bytes
  pos : Nat
  dirs : List CatalogDir
  files : List CatalogFile

def Written.ownTable (w : Written) : Bytes := block (table w.pos w.dirs w.files)

/-- The loop of WriteDir over a directory's entries. -/
def writeEntries (noMTime : Bool) : Listing → Nat → Written
  | .nil, pos => ⟨[], pos, [], []⟩
  | .file name unix size rest, pos =>
      let w := writeEntries noMTime rest pos
      { w with files := ⟨name, catalogMTime noMTime unix, size, 0⟩ :: w.files }
  | .symlink name _ _ rest, pos =>
      let w := writeEntries noMTime rest pos
      { w with files := ⟨name, 0, 0, 108⟩ :: w.files }
  | .folder name _ inside rest, pos =>
      let below := writeEntries noMTime inside pos
      let w := writeEntries noMTime rest (below.pos + below.ownTable.length)
      ⟨below.sent ++ below.ownTable :: w.sent, w.pos, ⟨name, below.pos⟩ :: w.dirs, w.files⟩

def catalogMagic : Bytes := [145, 253, 96, 249, 196, 103, 88, 213]

/-- WriteSharedCatalogRoot; with one entry it is also what WriteDir itself ends a
catalog of its own with. -/
def writeSharedCatalogRoot (catalogPos : Nat) (entries : List CatalogDir) : Bytes :=
  block (table catalogPos entries []) ++ LittleEndian.encode 8 catalogPos

inductive CatalogError where
  | tooShort
  | notCatalog
  | rootPointer
  | varint
  | tableOverruns
  | ranOutOfBytes
  | nameOverruns
  | offsetUnderflows
  | unknownType
  | trailingBytes
  | trailerMalformed
  | tooDeep
  | notBeforeParent
  | tooManyEntries
  deriving DecidableEq

structure CatalogDirRef where
  name : Bytes
  start : Nat
  deriving DecidableEq

structure CatalogFileRef where
  name : Bytes
  size : UInt64
  mtime : UInt64
  link : Bool
  deriving DecidableEq

structure CatalogEntry where
  path : Bytes
  isDir : Bool
  size : UInt64
  modTime : Int64
  isSymlink : Bool
  deriving DecidableEq

def catalogMaxDepth : Nat := 4096

def catalogMaxEntries : Nat := 50000000

/-- The argument is the part of the buffer between the offset and its bound, and so
is the part left over. -/
def readVarint (rest : Bytes) : Except CatalogError (Nat × Bytes) :=
  (Leb128.decode rest).elim (.error .varint) .ok

def parseEntry (tableStart : Nat) :
    Bytes → Except CatalogError ((CatalogDirRef ⊕ CatalogFileRef) × Bytes)
  | [] => .error .ranOutOfBytes
  | typ :: rest => do
      let (nameLen, rest) ← readVarint rest
      if rest.length < nameLen then .error .nameOverruns
      else
        let name := rest.take nameLen
        let rest := rest.drop nameLen
        if typ = 100 then do
          let (delta, rest) ← readVarint rest
          if tableStart < delta then .error .offsetUnderflows
          else .ok (.inl ⟨name, tableStart - delta⟩, rest)
        else if typ = 102 then do
          let (size, rest) ← readVarint rest
          let (mtime, rest) ← readVarint rest
          .ok (.inr ⟨name, UInt64.ofNat size, UInt64.ofNat mtime, false⟩, rest)
        -- 'l', 'h', 'b', 'c', 'p' and 's'
        else if typ ∈ [108, 104, 98, 99, 112, 115] then
          .ok (.inr ⟨name, 0, 0, typ == 108⟩, rest)
        else .error .unknownType

def parseEntries (tableStart : Nat) :
    Nat → Bytes → Except CatalogError (List CatalogDirRef × List CatalogFileRef × Bytes)
  | 0, rest => .ok ([], [], rest)
  | count + 1, rest => do
      let (entry, rest) ← parseEntry tableStart rest
      let (dirs, files, rest) ← parseEntries tableStart count rest
      match entry with
      | .inl d => .ok (d :: dirs, files, rest)
      | .inr f => .ok (dirs, f :: files, rest)

def parseCatalogTable (data : Bytes) (tableStart : Nat) :
    Except CatalogError (List CatalogDirRef × List CatalogFileRef) := do
  let (tableLen, rest) ← readVarint (data.drop tableStart)
  -- the last eight bytes are the root pointer's
  if rest.length < tableLen + 8 then .error .tableOverruns
  else
    let (count, rest) ← readVarint (rest.take tableLen)
    let (dirs, files, rest) ← parseEntries tableStart count rest
    if rest ≠ [] then .error .trailingBytes else .ok (dirs, files)

def joinArchivePath (parent child : Bytes) : Bytes :=
  if parent = [] then child else if child = [] then parent else parent ++ 47 :: child

def addEntry (entries : List CatalogEntry) (e : CatalogEntry) :
    Except CatalogError (List CatalogEntry) :=
  if catalogMaxEntries ≤ entries.length then .error .tooManyEntries else .ok (entries ++ [e])

def dirListed (path : Bytes) : CatalogEntry := ⟨path, true, 0, 0, false⟩

def refListed (pre : Bytes) (f : CatalogFileRef) : CatalogEntry :=
  ⟨joinArchivePath pre f.name, false, f.size, f.mtime.toInt64, f.link⟩

/-- The number counts the levels still allowed. -/
def walkCatalog (data : Bytes) :
    Nat → Nat → Bytes → List CatalogEntry → Except CatalogError (List CatalogEntry)
  | 0, _, _, _ => .error .tooDeep
  | levels + 1, dirStart, pre, entries => do
      let (dirs, files) ← parseCatalogTable data dirStart
      let entries ← files.foldlM (fun entries f => addEntry entries (refListed pre f)) entries
      dirs.foldlM (fun entries d =>
        if dirStart ≤ d.start then .error .notBeforeParent
        else do
          let p := joinArchivePath pre d.name
          let entries ← addEntry entries (dirListed p)
          walkCatalog data levels d.start p entries) entries

def parseCatalog (data : Bytes) : Except CatalogError (List CatalogEntry) :=
  if data.length < 16 then .error .tooShort
  else if data.take 8 ≠ catalogMagic then .error .notCatalog
  else
    let rootPtr := LittleEndian.decode (data.drop (data.length - 8))
    if rootPtr < 8 ∨ data.length - 8 < rootPtr then .error .rootPointer
    else do
      let (dirs, files) ← parseCatalogTable data rootPtr
      if files ≠ [] ∨ dirs = [] then .error .trailerMalformed
      else
        dirs.foldlM (fun entries d =>
          walkCatalog data (catalogMaxDepth + 1) d.start d.name (entries ++ [dirListed d.name])) []

theorem ok_bind {α β : Type} (a : α) (f : α → Except CatalogError β) :
    (Except.ok a >>= f) = f a := rfl

theorem readVarint_encode (v : Nat) (rest : Bytes) (fits : v < 2 ^ 64) :
    readVarint (Leb128.encode v ++ rest) = .ok (v, rest) := by
  rw [readVarint, Leb128.decode_encode v rest fits]
  rfl

theorem parseEntry_dirEntry (oldpos : Nat) (d : CatalogDir) (rest : Bytes)
    (name : d.name.length < 2 ^ 64) (back : d.pos ≤ oldpos) (fits : oldpos < 2 ^ 64) :
    parseEntry oldpos (dirEntry oldpos d ++ rest) = .ok (.inl ⟨d.name, d.pos⟩, rest) := by
  have enough : ¬ (d.name ++ (Leb128.encode (oldpos - d.pos) ++ rest)).length < d.name.length := by
    rw [List.length_append]
    omega
  rw [dirEntry, List.cons_append, parseEntry, text, List.append_assoc, List.append_assoc,
    readVarint_encode _ _ name, ok_bind]
  simp only [if_neg enough, List.take_left', List.drop_left', if_true]
  rw [readVarint_encode _ _ (by omega), ok_bind]
  simp only [if_neg (show ¬ oldpos < oldpos - d.pos by omega), show oldpos - (oldpos - d.pos) = d.pos by omega]

/-- A file as its entry tells of it. -/
def CatalogFile.told (f : CatalogFile) : CatalogFileRef :=
  if f.kind = 108 then ⟨f.name, 0, 0, true⟩ else ⟨f.name, f.size, f.mTime, false⟩

theorem parseEntry_fileEntry (tableStart : Nat) (f : CatalogFile) (rest : Bytes)
    (name : f.name.length < 2 ^ 64) :
    parseEntry tableStart (fileEntry f ++ rest) = .ok (.inr f.told, rest) := by
  by_cases link : f.kind = 108
  · have enough : ¬ (f.name ++ rest).length < f.name.length := by
      rw [List.length_append]
      omega
    rw [fileEntry, if_pos link, List.cons_append, parseEntry, text, List.append_assoc,
      readVarint_encode _ _ name, ok_bind]
    simp only [if_neg enough, List.take_left', List.drop_left', CatalogFile.told, if_pos link]
    rfl
  · have enough : ¬ (f.name ++ (Leb128.encode f.size.toNat ++
        (Leb128.encode f.mTime.toNat ++ rest))).length < f.name.length := by
      rw [List.length_append]
      omega
    rw [fileEntry, if_neg link, List.cons_append, parseEntry, text, List.append_assoc,
      List.append_assoc, List.append_assoc, readVarint_encode _ _ name, ok_bind]
    simp only [if_neg enough, List.take_left', List.drop_left', CatalogFile.told, if_neg link]
    rw [if_neg (by decide), if_pos trivial, readVarint_encode _ _ f.size.toNat_lt, ok_bind]
    simp only [readVarint_encode _ _ f.mTime.toNat_lt, ok_bind, UInt64.ofNat_toNat]

theorem parseEntries_files (tableStart : Nat) (files : List CatalogFile)
    (fits : (files.flatMap fileEntry).length < 2 ^ 64) :
    parseEntries tableStart files.length (files.flatMap fileEntry) =
      .ok ([], files.map CatalogFile.told, []) := by
  induction files with
  | nil => rfl
  | cons f files ih =>
      rw [List.flatMap_cons, List.length_append] at fits
      have name : f.name.length < 2 ^ 64 := by
        have longer : f.name.length ≤ (fileEntry f).length := by
          unfold fileEntry text
          split <;> simp only [List.length_cons, List.length_append] <;> omega
        omega
      rw [List.flatMap_cons, List.length_cons, parseEntries, parseEntry_fileEntry _ _ _ name,
        ok_bind]
      simp only [ih (by omega), ok_bind, List.map_cons]

theorem parseEntries_table (oldpos : Nat) (dirs : List CatalogDir) (files : List CatalogFile)
    (fits : (dirs.flatMap (dirEntry oldpos) ++ files.flatMap fileEntry).length < 2 ^ 64)
    (back : ∀ d ∈ dirs, d.pos ≤ oldpos) (start : oldpos < 2 ^ 64) :
    parseEntries oldpos (files.length + dirs.length)
        (dirs.flatMap (dirEntry oldpos) ++ files.flatMap fileEntry) =
      .ok (dirs.map fun d => ⟨d.name, d.pos⟩, files.map CatalogFile.told, []) := by
  induction dirs with
  | nil => exact parseEntries_files oldpos files fits
  | cons d dirs ih =>
      rw [List.flatMap_cons, List.append_assoc, List.length_append] at fits
      have name : d.name.length < 2 ^ 64 := by
        have longer : d.name.length ≤ (dirEntry oldpos d).length := by
          unfold dirEntry text
          simp only [List.length_cons, List.length_append]
          omega
        omega
      rw [List.flatMap_cons, List.append_assoc, List.length_cons, ← Nat.add_assoc, parseEntries,
        parseEntry_dirEntry _ _ _ name (back d List.mem_cons_self) start, ok_bind]
      simp only [ih (by omega) fun e member => back e (List.mem_cons_of_mem _ member), ok_bind,
        List.map_cons]

theorem entries_counted (oldpos : Nat) (dirs : List CatalogDir) (files : List CatalogFile) :
    files.length + dirs.length ≤ (table oldpos dirs files).length := by
  have folders : dirs.length ≤ (dirs.flatMap (dirEntry oldpos)).length := by
    induction dirs with
    | nil => exact Nat.zero_le _
    | cons d dirs ih =>
        simp only [List.flatMap_cons, List.length_append, List.length_cons, dirEntry]
        omega
  have plain : files.length ≤ (files.flatMap fileEntry).length := by
    induction files with
    | nil => exact Nat.zero_le _
    | cons f files ih =>
        have one : 1 ≤ (fileEntry f).length := by
          unfold fileEntry
          split <;> simp
        simp only [List.flatMap_cons, List.length_append, List.length_cons]
        omega
  simp only [table, List.length_append]
  omega

/-- A table is read back wherever it stands, if the pointer is not part of it. -/
theorem parseCatalogTable_block (before after : Bytes) (dirs : List CatalogDir)
    (files : List CatalogFile) (back : ∀ d ∈ dirs, d.pos ≤ before.length)
    (pointer : 8 ≤ after.length)
    (fits : (before ++ (block (table before.length dirs files) ++ after)).length < 2 ^ 64) :
    parseCatalogTable (before ++ (block (table before.length dirs files) ++ after)) before.length =
      .ok (dirs.map fun d => ⟨d.name, d.pos⟩, files.map CatalogFile.told) := by
  have counted := entries_counted before.length dirs files
  rw [List.length_append, List.length_append, block, List.length_append] at fits
  have own : (table before.length dirs files).length < 2 ^ 64 := by omega
  have inner : (dirs.flatMap (dirEntry before.length) ++ files.flatMap fileEntry).length < 2 ^ 64 := by
    rw [table, List.length_append] at own
    omega
  have enough : ¬ (table before.length dirs files ++ after).length <
      (table before.length dirs files).length + 8 := by
    rw [List.length_append]
    omega
  rw [parseCatalogTable, List.drop_left' rfl, block, List.append_assoc,
    readVarint_encode _ _ own, ok_bind]
  simp only [if_neg enough, List.take_left']
  rw [table, readVarint_encode _ _ (by omega), ok_bind,
    parseEntries_table _ _ _ inner back (by omega), ok_bind]
  rfl

/-- Folder levels below the directory listed. -/
def Listing.depth : Listing → Nat
  | .nil => 0
  | .file _ _ _ rest => rest.depth
  | .symlink _ _ _ rest => rest.depth
  | .folder _ _ inside rest => max (inside.depth + 1) rest.depth

/-- What a catalog can show of everything below a directory, each entry at its full
path: a file's size and time, a folder and a link by name. -/
def Listing.shown (noMTime : Bool) : Listing → Bytes → List CatalogEntry
  | .nil, _ => []
  | .file name unix size rest, pre =>
      ⟨joinArchivePath pre name, false, size, if noMTime then 0 else unix, false⟩ ::
        rest.shown noMTime pre
  | .symlink name _ _ rest, pre =>
      ⟨joinArchivePath pre name, false, 0, 0, true⟩ :: rest.shown noMTime pre
  | .folder name _ inside rest, pre =>
      dirListed (joinArchivePath pre name) ::
        (inside.shown noMTime (joinArchivePath pre name) ++ rest.shown noMTime pre)

/-- The same in the order of walkCatalog: a directory's own files come before its
folders. `filesShown` and `foldersShown` are the two parts. -/
def filesShown (noMTime : Bool) (listing : Listing) (pre : Bytes) : List CatalogEntry :=
  ((writeEntries noMTime listing 0).files.map CatalogFile.told).map (refListed pre)

def foldersShown (noMTime : Bool) : Listing → Bytes → List CatalogEntry
  | .nil, _ => []
  | .file _ _ _ rest, pre => foldersShown noMTime rest pre
  | .symlink _ _ _ rest, pre => foldersShown noMTime rest pre
  | .folder name _ inside rest, pre =>
      let path := joinArchivePath pre name
      dirListed path :: (filesShown noMTime inside path ++ foldersShown noMTime inside path) ++
        foldersShown noMTime rest pre

theorem writeEntries_files (noMTime : Bool) (listing : Listing) (pos other : Nat) :
    (writeEntries noMTime listing pos).files = (writeEntries noMTime listing other).files := by
  induction listing generalizing pos other with
  | nil => rfl
  | file name unix size rest ih => simp only [writeEntries, ih pos other]
  | symlink name unix size rest ih => simp only [writeEntries, ih pos other]
  | folder name unix inside rest _ ih => exact ih _ _

theorem shown_perm (noMTime : Bool) (listing : Listing) (pre : Bytes) :
    (filesShown noMTime listing pre ++ foldersShown noMTime listing pre).Perm
      (listing.shown noMTime pre) := by
  induction listing generalizing pre with
  | nil => exact List.Perm.refl _
  | file name unix size rest ih =>
      have told : filesShown noMTime (.file name unix size rest) pre =
          ⟨joinArchivePath pre name, false, size, if noMTime then 0 else unix, false⟩ ::
            filesShown noMTime rest pre := by
        simp only [filesShown, writeEntries, List.map_cons, CatalogFile.told, refListed,
          catalogMTime]
        cases noMTime <;> simp
      rw [told]
      exact (ih pre).cons _
  | symlink name unix size rest ih =>
      have told : filesShown noMTime (.symlink name unix size rest) pre =
          ⟨joinArchivePath pre name, false, 0, 0, true⟩ :: filesShown noMTime rest pre := rfl
      rw [told]
      exact (ih pre).cons _
  | folder name unix inside rest ihInside ihRest =>
      have told : filesShown noMTime (.folder name unix inside rest) pre =
          filesShown noMTime rest pre := by
        unfold filesShown
        rw [writeEntries, writeEntries_files noMTime rest _ 0]
      rw [told, foldersShown, Listing.shown, List.cons_append]
      refine List.perm_middle.trans (List.Perm.cons _ ?_)
      rw [← List.append_assoc]
      exact (List.perm_append_comm.append_right _).trans
        ((List.append_assoc ..).symm ▸ (ihInside _).append (ihRest pre))

theorem writeEntries_pos (noMTime : Bool) (listing : Listing) (pos : Nat) :
    (writeEntries noMTime listing pos).pos =
      pos + (writeEntries noMTime listing pos).sent.flatten.length := by
  induction listing generalizing pos with
  | nil => rfl
  | file name unix size rest ih => exact ih pos
  | symlink name unix size rest ih => exact ih pos
  | folder name unix inside rest ihInside ihRest =>
      simp only [writeEntries, List.flatten_append, List.flatten_cons, List.length_append]
      rw [ihRest, ihInside]
      omega

theorem ownTable_pos (w : Written) : 0 < w.ownTable.length := by
  have some := List.length_pos_of_ne_nil (Leb128.encode_ne_nil (table w.pos w.dirs w.files).length)
  rw [Written.ownTable, block, List.length_append]
  omega

/-- Tables of subfolders stand before the table that names them. -/
theorem writeEntries_back (noMTime : Bool) (listing : Listing) (pos : Nat) :
    ∀ d ∈ (writeEntries noMTime listing pos).dirs, d.pos < (writeEntries noMTime listing pos).pos := by
  induction listing generalizing pos with
  | nil => exact fun _ member => absurd member List.not_mem_nil
  | file name unix size rest ih => exact ih pos
  | symlink name unix size rest ih => exact ih pos
  | folder name unix inside rest ihInside ihRest =>
      intro d member
      have grown := writeEntries_pos noMTime rest ((writeEntries noMTime inside pos).pos +
        (writeEntries noMTime inside pos).ownTable.length)
      have some := ownTable_pos (writeEntries noMTime inside pos)
      simp only [writeEntries] at member ⊢
      rcases List.mem_cons.mp member with rfl | member
      · simp only [grown]
        omega
      · exact ihRest _ d member

theorem addEntry_room {entries : List CatalogEntry} {e : CatalogEntry}
    (room : entries.length < catalogMaxEntries) : addEntry entries e = .ok (entries ++ [e]) :=
  if_neg (Nat.not_le.mpr room)

theorem addEntries {α : Type} (told : α → CatalogEntry) (refs : List α)
    (entries : List CatalogEntry) (room : entries.length + refs.length ≤ catalogMaxEntries) :
    refs.foldlM (fun entries r => addEntry entries (told r)) entries =
      Except.ok (entries ++ refs.map told) := by
  induction refs generalizing entries with
  | nil => rw [List.map_nil, List.append_nil]; rfl
  | cons r refs ih =>
      rw [List.length_cons] at room
      rw [List.foldlM_cons, addEntry_room (by omega), ok_bind,
        ih _ (by rw [List.length_append, List.length_singleton]; omega), List.map_cons,
        List.append_assoc, List.singleton_append]

def CatalogDir.ref (d : CatalogDir) : CatalogDirRef := ⟨d.name, d.pos⟩

/-- One subfolder of the directory whose table starts at `dirStart`. -/
def walkDir (data : Bytes) (levels dirStart : Nat) (pre : Bytes) (entries : List CatalogEntry)
    (d : CatalogDirRef) : Except CatalogError (List CatalogEntry) :=
  if dirStart ≤ d.start then .error .notBeforeParent
  else do
    let p := joinArchivePath pre d.name
    let entries ← addEntry entries (dirListed p)
    walkCatalog data levels d.start p entries

theorem walkDir_listed {data pre : Bytes} {levels dirStart : Nat} {entries : List CatalogEntry}
    {d : CatalogDirRef} (earlier : d.start < dirStart) (room : entries.length < catalogMaxEntries) :
    walkDir data levels dirStart pre entries d =
      walkCatalog data levels d.start (joinArchivePath pre d.name)
        (entries ++ [dirListed (joinArchivePath pre d.name)]) := by
  rw [walkDir, if_neg (Nat.not_le.mpr earlier)]
  simp only [addEntry_room room, ok_bind]

theorem walkCatalog_succ (data : Bytes) (levels dirStart : Nat) (pre : Bytes)
    (entries : List CatalogEntry) :
    walkCatalog data (levels + 1) dirStart pre entries =
      parseCatalogTable data dirStart >>= fun parsed =>
        parsed.2.foldlM (fun entries f => addEntry entries (refListed pre f)) entries >>=
          fun entries => parsed.1.foldlM (walkDir data levels dirStart pre) entries := rfl

/-- A directory is walked once its subfolders are. -/
theorem walk_directory {noMTime : Bool} {listing : Listing} {data before after pre : Bytes}
    {levels : Nat} {entries : List CatalogEntry}
    (folders : ∀ entries : List CatalogEntry,
      entries.length + (foldersShown noMTime listing pre).length ≤ catalogMaxEntries →
      ((writeEntries noMTime listing before.length).dirs.map CatalogDir.ref).foldlM
          (walkDir data levels (writeEntries noMTime listing before.length).pos pre) entries =
        .ok (entries ++ foldersShown noMTime listing pre))
    (whole : data = before ++ ((writeEntries noMTime listing before.length).sent.flatten ++
      ((writeEntries noMTime listing before.length).ownTable ++ after)))
    (pointer : 8 ≤ after.length) (fits : data.length < 2 ^ 64)
    (room : entries.length +
      (filesShown noMTime listing pre ++ foldersShown noMTime listing pre).length ≤
        catalogMaxEntries) :
    walkCatalog data (levels + 1) (writeEntries noMTime listing before.length).pos pre entries =
      .ok (entries ++ (filesShown noMTime listing pre ++ foldersShown noMTime listing pre)) := by
  have place : (before ++ (writeEntries noMTime listing before.length).sent.flatten).length =
      (writeEntries noMTime listing before.length).pos := by
    rw [List.length_append, writeEntries_pos]
  have read := parseCatalogTable_block
    (before ++ (writeEntries noMTime listing before.length).sent.flatten) after
    (writeEntries noMTime listing before.length).dirs
    (writeEntries noMTime listing before.length).files
    (fun d member => place ▸ (writeEntries_back noMTime listing before.length d member).le) pointer
  rw [place, List.append_assoc] at read
  rw [Written.ownTable] at whole
  have parsed := read (whole ▸ fits)
  rw [← whole] at parsed
  rw [List.length_append] at room
  have shown : ((writeEntries noMTime listing before.length).files.map CatalogFile.told).map
      (refListed pre) = filesShown noMTime listing pre := by
    rw [writeEntries_files noMTime listing before.length 0]
    rfl
  have listed := addEntries (refListed pre)
    ((writeEntries noMTime listing before.length).files.map CatalogFile.told) entries
    (by
      have same := congrArg List.length shown
      rw [List.length_map] at same
      omega)
  rw [shown] at listed
  rw [walkCatalog_succ, parsed, ok_bind]
  simp only [listed, ok_bind]
  rw [← List.append_assoc]
  exact folders _ (by rw [List.length_append]; omega)

theorem walk_folders (noMTime : Bool) (listing : Listing) {data before after pre : Bytes}
    {levels dirStart : Nat} {entries : List CatalogEntry}
    (whole : data =
      before ++ ((writeEntries noMTime listing before.length).sent.flatten ++ after))
    (pointer : 8 ≤ after.length) (fits : data.length < 2 ^ 64)
    (later : (writeEntries noMTime listing before.length).pos ≤ dirStart)
    (deep : listing.depth ≤ levels)
    (room : entries.length + (foldersShown noMTime listing pre).length ≤ catalogMaxEntries) :
    ((writeEntries noMTime listing before.length).dirs.map CatalogDir.ref).foldlM
        (walkDir data levels dirStart pre) entries =
      .ok (entries ++ foldersShown noMTime listing pre) := by
  induction listing generalizing before after pre levels dirStart entries with
  | nil =>
      rw [foldersShown, List.append_nil]
      rfl
  | file name unix size rest ih => exact ih whole pointer later deep room
  | symlink name unix size rest ih => exact ih whole pointer later deep room
  | folder name unix inside rest ihInside ihRest =>
      simp only [writeEntries] at whole later ⊢
      simp only [foldersShown, List.length_append, List.length_cons] at room
      rw [Listing.depth, max_le_iff] at deep
      obtain ⟨under, rfl⟩ : ∃ under, levels = under + 1 := ⟨levels - 1, by omega⟩
      have place := writeEntries_pos noMTime inside before.length
      have grown := writeEntries_pos noMTime rest ((writeEntries noMTime inside before.length).pos +
        (writeEntries noMTime inside before.length).ownTable.length)
      have some := ownTable_pos (writeEntries noMTime inside before.length)
      rw [List.flatten_append, List.flatten_cons, List.append_assoc, List.append_assoc] at whole
      have walked : ∀ entries : List CatalogEntry, entries.length +
          (filesShown noMTime inside (joinArchivePath pre name) ++
            foldersShown noMTime inside (joinArchivePath pre name)).length ≤ catalogMaxEntries →
          walkCatalog data (under + 1) (writeEntries noMTime inside before.length).pos
            (joinArchivePath pre name) entries =
          .ok (entries ++ (filesShown noMTime inside (joinArchivePath pre name) ++
            foldersShown noMTime inside (joinArchivePath pre name))) := by
        intro entries room
        refine walk_directory (fun entries room => ?_) whole ?_ fits room
        · exact ihInside whole (by simp only [List.length_append]; omega) (le_refl _) (by omega)
            room
        · simp only [List.length_append]
          omega
      -- the tables of the folders that follow start after this one's own
      have next : (before ++ ((writeEntries noMTime inside before.length).sent.flatten ++
          (writeEntries noMTime inside before.length).ownTable)).length =
          (writeEntries noMTime inside before.length).pos +
            (writeEntries noMTime inside before.length).ownTable.length := by
        simp only [List.length_append]
        omega
      have own : (CatalogDir.ref ⟨name, (writeEntries noMTime inside before.length).pos⟩).start <
          dirStart := by
        show (writeEntries noMTime inside before.length).pos < dirStart
        omega
      rw [List.map_cons, List.foldlM_cons, walkDir_listed own (by omega)]
      simp only [CatalogDir.ref]
      rw [walked _ (by simp only [List.length_append, List.length_singleton]; omega), ok_bind,
        ← next, ihRest (by simp only [next, List.append_assoc]; exact whole) pointer
        (by rw [next]; exact later) deep.2
        (by simp only [List.length_append, List.length_singleton]; omega)]
      simp only [foldersShown, dirListed, List.append_assoc, List.cons_append, List.nil_append]

end ProxmoxBackup.Catalog
