import ProxmoxBackup.KeyedLists
import Mathlib.Data.List.Infix
import Mathlib.Data.List.Nodup

/-! Undelete (gui/undelete_rollback.go): the scan for the files that snapshots have and the disk
has not, and the restores that bring a selection of them back. -/
namespace ProxmoxBackup.UndeleteScan

open KeyedLists

abbrev Bytes := List UInt8

def ascii (s : String) : Bytes := s.toList.map fun c => c.toNat.toUInt8

structure SetFolder where
  Dir : Bytes
  Base : Bytes
  deriving DecidableEq

structure IndexEntry where
  Path : Bytes
  IsDir : Bool
  Size : Nat
  MTime : Int
  deriving DecidableEq

/-- A snapshot with its file lists. -/
structure SetSnapshot where
  ID : Bytes
  Unix : Int
  Archives : List Bytes
  index : Bytes → List IndexEntry

structure LiveIndex where
  Entries : List IndexEntry
  Unreadable : List Bytes

/-- A file that is missing, as the newest snapshot that has it holds it. -/
structure Version where
  Folder : Bytes
  Archive : Bytes
  Path : Bytes
  Size : Nat
  MTime : Int
  SnapshotID : Bytes
  SnapshotUnix : Int
  GoneByUnix : Int
  deriving DecidableEq

structure UndeleteFile extends Version where
  MovedTo : Bytes
  deriving DecidableEq

def backupMetaFileName : Bytes := ascii ".proxmox_backup_client_meta.json"

def trimSuffix (name suffix : Bytes) : Bytes :=
  if suffix.isSuffixOf name then name.take (name.length - suffix.length) else name

def archiveBaseOf (name : Bytes) : Bytes :=
  if (ascii ".mpxar.didx").isSuffixOf name then trimSuffix name (ascii ".mpxar.didx")
  else trimSuffix name (ascii ".pxar.didx")

/-- The folder's archive in a snapshot, or "". -/
def archiveFor (snap : SetSnapshot) (base : Bytes) : Bytes :=
  (snap.Archives.find? fun n => archiveBaseOf n = base).getD []

section

variable (pathKey : Bytes → Bytes)

def LiveIndex.HasFile (li : LiveIndex) (rel : Bytes) : Bool :=
  li.Entries.any fun e => !e.IsDir && decide (pathKey e.Path = pathKey rel)

def underAny (rel : Bytes) (prefixes : List Bytes) : Bool :=
  prefixes.any fun p => decide (pathKey rel = pathKey p) || (pathKey p ++ [47]).isPrefixOf (pathKey rel)

/-- The keys found and those that are not known, and the files. -/
structure Scan where
  found : List Bytes
  unknown : List Bytes
  files : List (SetFolder × Version)

/-- A key is the folder's base, | and the path. -/
def keyOf (f : SetFolder) (path : Bytes) : Bytes := f.Base ++ 124 :: pathKey path

def fileOf (snap : SetSnapshot) (goneBy : Int) (f : SetFolder) (e : IndexEntry) : Version where
  Folder := f.Dir
  Archive := archiveFor snap f.Base
  Path := e.Path
  Size := e.Size
  MTime := e.MTime
  SnapshotID := snap.ID
  SnapshotUnix := snap.Unix
  GoneByUnix := goneBy

def scanEntry (live : Bytes → LiveIndex) (snap : SetSnapshot) (goneBy : Int) (f : SetFolder)
    (s : Scan) (e : IndexEntry) : Scan :=
  if e.IsDir ∨ e.Path = backupMetaFileName then s
  else if (live f.Base).HasFile pathKey e.Path then s
  else if s.found.contains (keyOf pathKey f e.Path) then s
  else if underAny pathKey e.Path (live f.Base).Unreadable then
    { s with unknown := keyOf pathKey f e.Path :: s.unknown }
  else { s with found := keyOf pathKey f e.Path :: s.found
                files := s.files ++ [(f, fileOf snap goneBy f e)] }

def scanFolder (live : Bytes → LiveIndex) (snap : SetSnapshot) (goneBy : Int) (s : Scan)
    (f : SetFolder) : Scan :=
  if archiveFor snap f.Base = [] then s
  else (snap.index (archiveFor snap f.Base)).foldl (scanEntry pathKey live snap goneBy f) s

/-- The loop over the snapshots; `goneBy` is the time of the one before. -/
def scanFrom (live : Bytes → LiveIndex) (folders : List SetFolder) :
    Int → List SetSnapshot → Scan → Scan
  | _, [], s => s
  | goneBy, snap :: rest, s =>
      scanFrom live folders snap.Unix rest (folders.foldl (scanFolder pathKey live snap goneBy) s)

/-! Where a file that is missing may have moved to. -/

def baseOf (p : Bytes) : Bytes := (p.reverse.takeWhile (· ≠ 47)).reverse

/-- A live file with the name, size and time of one of the missing files at the path. -/
def moveHint (missing : List Version) (live : List IndexEntry) (path : Bytes) : Option Bytes :=
  (live.find? fun l => !l.IsDir && missing.any fun m => decide (m.Path = path ∧
    (pathKey (baseOf m.Path), m.Size, m.MTime) = (pathKey (baseOf l.Path), l.Size, l.MTime))).map
      (·.Path)

def moved (live : Bytes → LiveIndex) (folders : List SetFolder) (files : List Version) :
    List UndeleteFile :=
  files.map fun u =>
    match folders.reverse.find? fun f =>
        (moveHint pathKey (files.filter (·.Folder = f.Dir)) (live f.Base).Entries u.Path).isSome
          && decide (f.Dir = u.Folder) with
    | none => ⟨u, []⟩
    | some f =>
        ⟨u, (moveHint pathKey (files.filter (·.Folder = f.Dir)) (live f.Base).Entries u.Path).getD []⟩

/-- The order of the list that is shown. -/
def shownBefore (a b : UndeleteFile) : Bool :=
  if a.Folder ≠ b.Folder then decide (a.Folder < b.Folder)
  else decide (¬ pathKey b.Path < pathKey a.Path)

/-- The files of scanUndelete, of snapshots from the newest on. -/
def scanUndelete (live : Bytes → LiveIndex) (folders : List SetFolder)
    (snaps : List SetSnapshot) : List UndeleteFile :=
  let files := (scanFrom pathKey live folders 0 snaps ⟨[], [], []⟩).files.map Prod.snd
  (moved pathKey live folders files).mergeSort (shownBefore pathKey)

end

/-! The selection. -/

structure UndeleteItem where
  Archive : Bytes
  Path : Bytes
  SnapshotUnix : Int
  deriving DecidableEq

def Version.item (u : Version) : UndeleteItem := ⟨u.Archive, u.Path, u.SnapshotUnix⟩

inductive StartError where
  | noFiles
  | invalidPath (path : Bytes)
  | notOfSet (archive : Bytes)
  deriving DecidableEq

/-- A restore, with what it takes from where to where. -/
structure RestoreOptions where
  SnapshotTime : Int
  ArchiveIncludes : List (Bytes × List Bytes)
  ArchiveRoots : List (Bytes × Bytes)
  RestoreACLs : Bool
  VerifyAfterRestore : Bool
  ParallelExtraction : Bool
  Original : Bool
  KeepExisting : Bool
  DestPath : Bytes

def dots : Bytes := [46, 46]

/-- strings.Contains -/
def contains (s part : Bytes) : Bool := s.tails.any part.isPrefixOf

def archiveRootsFor (folders : List SetFolder) : List (Bytes × Bytes) :=
  folders.foldl (fun roots f => upsert f.Base (fun _ => f.Dir) roots) []

abbrev BySnap := List (Int × List (Bytes × List Bytes))

def addItem (bySnap : BySnap) (it : UndeleteItem) : BySnap :=
  upsert it.SnapshotUnix (fun archives =>
    upsert it.Archive (fun paths => paths.getD [] ++ [it.Path]) (archives.getD [])) bySnap

def checkItems (roots : List (Bytes × Bytes)) : List UndeleteItem → Except StartError Unit
  | [] => .ok ()
  | it :: rest =>
      if it.Path = [] ∨ contains it.Path dots then .error (.invalidPath it.Path)
      else if (roots.lookup (archiveBaseOf it.Archive)).isNone then .error (.notOfSet it.Archive)
      else checkItems roots rest

/-- One restore for a snapshot. -/
def undeleteRun (roots : List (Bytes × Bytes)) (dest : Bytes) (verify parallel : Bool)
    (unix : Int) (includes : List (Bytes × List Bytes)) : RestoreOptions where
  SnapshotTime := unix
  ArchiveIncludes := includes
  ArchiveRoots := includes.map fun a => (a.1, (roots.lookup (archiveBaseOf a.1)).getD [])
  RestoreACLs := true
  VerifyAfterRestore := verify
  ParallelExtraction := parallel
  Original := dest = []
  KeepExisting := dest = []
  DestPath := dest

def StartUndelete (folders : List SetFolder) (items : List UndeleteItem) (dest : Bytes)
    (verify parallel : Bool) : Except StartError (List RestoreOptions) :=
  if items = [] then .error .noFiles
  else do
    checkItems (archiveRootsFor folders) items
    let bySnap := items.foldl addItem []
    let unixes := (bySnap.map Prod.fst).mergeSort fun a b => decide (b ≤ a)
    return unixes.map fun u =>
      undeleteRun (archiveRootsFor folders) dest verify parallel u ((bySnap.lookup u).getD [])

/-! What Undelete promises. -/

/-- The folder has the file in the snapshot. -/
def Has (snap : SetSnapshot) (f : SetFolder) (e : IndexEntry) : Prop :=
  archiveFor snap f.Base ≠ [] ∧ e ∈ snap.index (archiveFor snap f.Base) ∧ e.IsDir = false ∧
    e.Path ≠ backupMetaFileName

/-- It is not on disk, as far as its folder could be read. -/
def Gone (pathKey : Bytes → Bytes) (live : Bytes → LiveIndex) (f : SetFolder) (path : Bytes) : Prop :=
  (live f.Base).HasFile pathKey path = false ∧
    underAny pathKey path (live f.Base).Unreadable = false

structure ListedOnce (pathKey : Bytes → Bytes) (live : Bytes → LiveIndex)
    (folders : List SetFolder) (snaps : List SetSnapshot) (files : List Version) : Prop where
  sound : ∀ u ∈ files, ∃ f ∈ folders, ∃ snap ∈ snaps, ∃ e goneBy, Has snap f e ∧
    Gone pathKey live f e.Path ∧ u = fileOf snap goneBy f e ∧
    ∀ other ∈ snaps, ∀ e', Has other f e' → pathKey e'.Path = pathKey e.Path →
      other.Unix ≤ snap.Unix
  complete : ∀ f ∈ folders, ∀ snap ∈ snaps, ∀ e, Has snap f e → Gone pathKey live f e.Path →
    ∃ u ∈ files, archiveBaseOf u.Archive = f.Base ∧ pathKey u.Path = pathKey e.Path
  once : files.Pairwise fun u v =>
    ¬ (archiveBaseOf u.Archive = archiveBaseOf v.Archive ∧ pathKey u.Path = pathKey v.Path)

def RestoreOptions.includes (run : RestoreOptions) (archive : Bytes) : List Bytes :=
  (run.ArchiveIncludes.lookup archive).getD []

/-- Every selection is taken, each file under its own snapshot and archive. -/
def Restorable (folders : List SetFolder) (files : List Version) : Prop :=
  ∀ selection, selection ≠ [] → selection ⊆ files → ∀ dest verify parallel, ∃ runs,
    StartUndelete folders (selection.map Version.item) dest verify parallel = .ok runs ∧
    runs.Pairwise (fun a b => a.SnapshotTime ≠ b.SnapshotTime) ∧
    (∀ u ∈ selection, ∃ run ∈ runs, run.SnapshotTime = u.SnapshotUnix) ∧
    ∀ run ∈ runs, ∀ archive, run.includes archive =
      (selection.filter fun u => u.SnapshotUnix = run.SnapshotTime ∧ u.Archive = archive).map (·.Path)

/-- Two files that are lost have different keys in different folders. -/
def KeysApart (pathKey : Bytes → Bytes) (live : Bytes → LiveIndex) (folders : List SetFolder)
    (snaps : List SetSnapshot) : Prop :=
  ∀ f ∈ folders, ∀ g ∈ folders, ∀ a ∈ snaps, ∀ b ∈ snaps, ∀ e e', Has a f e → Has b g e' →
    Gone pathKey live f e.Path → Gone pathKey live g e'.Path →
    keyOf pathKey f e.Path = keyOf pathKey g e'.Path → f = g

/-- A path that StartUndelete takes. -/
def Plain (path : Bytes) : Prop := path ≠ [] ∧ contains path dots = false

/-! The scan keeps the first of each key. -/

section

variable (pathKey : Bytes → Bytes) (live : Bytes → LiveIndex)

def lost (f : SetFolder) (e : IndexEntry) : Bool :=
  !e.IsDir && decide (e.Path ≠ backupMetaFileName) && !(live f.Base).HasFile pathKey e.Path &&
    !underAny pathKey e.Path (live f.Base).Unreadable

def entriesOf (snap : SetSnapshot) (f : SetFolder) : List IndexEntry :=
  if archiveFor snap f.Base = [] then [] else snap.index (archiveFor snap f.Base)

def folderLost (snap : SetSnapshot) (goneBy : Int) (f : SetFolder) : List (SetFolder × Version) :=
  ((entriesOf snap f).filter (lost pathKey live f)).map fun e => (f, fileOf snap goneBy f e)

/-- All that is lost, with all its versions from the newest on. -/
def lostFrom (folders : List SetFolder) : Int → List SetSnapshot → List (SetFolder × Version)
  | _, [] => []
  | goneBy, snap :: rest =>
      folders.flatMap (folderLost pathKey live snap goneBy) ++ lostFrom folders snap.Unix rest

def lostKey (c : SetFolder × Version) : Bytes := keyOf pathKey c.1 c.2.Path

def Scan.kept (s : Scan) : List Bytes × List (SetFolder × Version) := (s.found, s.files)

variable {pathKey live} {folders : List SetFolder} {snaps : List SetSnapshot}

theorem lost_iff {f : SetFolder} {e : IndexEntry} : lost pathKey live f e = true ↔
    e.IsDir = false ∧ e.Path ≠ backupMetaFileName ∧ Gone pathKey live f e.Path := by
  simp [lost, Gone, and_assoc]

theorem mem_entriesOf {snap : SetSnapshot} {f : SetFolder} {e : IndexEntry} :
    e ∈ entriesOf snap f ↔ archiveFor snap f.Base ≠ [] ∧ e ∈ snap.index (archiveFor snap f.Base) := by
  rw [entriesOf]
  split
  · rename_i missing
    simp [missing]
  · rename_i found
    simp [found]

theorem scanEntry_kept (snap : SetSnapshot) (goneBy : Int) (f : SetFolder) (s : Scan)
    (e : IndexEntry) : (scanEntry pathKey live snap goneBy f s e).kept =
      if lost pathKey live f e then keep (lostKey pathKey) s.kept (f, fileOf snap goneBy f e)
      else s.kept := by
  rw [scanEntry]
  by_cases skipped : e.IsDir ∨ e.Path = backupMetaFileName
  · have not_lost : ¬ lost pathKey live f e = true := by
      rw [lost_iff]
      rintro ⟨file, other, -⟩
      obtain dir | own := skipped
      · rw [file] at dir
        cases dir
      · exact other own
    rw [if_pos skipped, if_neg not_lost]
  · rw [if_neg skipped]
    by_cases alive : (live f.Base).HasFile pathKey e.Path = true
    · have not_lost : ¬ lost pathKey live f e = true := by
        rw [lost_iff]
        rintro ⟨-, -, gone, -⟩
        rw [alive] at gone
        cases gone
      rw [if_pos alive, if_neg not_lost]
    · rw [if_neg alive]
      by_cases known : keyOf pathKey f e.Path ∈ s.found
      · have same : keep (lostKey pathKey) s.kept (f, fileOf snap goneBy f e) = s.kept :=
          if_pos known
        rw [if_pos (List.contains_iff_mem.mpr known), same, ite_self]
      · rw [if_neg fun found => known (List.contains_iff_mem.mp found)]
        by_cases hidden : underAny pathKey e.Path (live f.Base).Unreadable = true
        · have not_lost : ¬ lost pathKey live f e = true := by
            rw [lost_iff]
            rintro ⟨-, -, -, gone⟩
            rw [hidden] at gone
            cases gone
          rw [if_pos hidden, if_neg not_lost]
          rfl
        · have is_lost : lost pathKey live f e = true := by
            obtain ⟨file, other⟩ := not_or.mp skipped
            exact lost_iff.mpr ⟨Bool.eq_false_iff.mpr file, other, Bool.eq_false_iff.mpr alive,
              Bool.eq_false_iff.mpr hidden⟩
          rw [if_neg hidden, if_pos is_lost]
          exact (if_neg known).symm

theorem scanEntries_kept (snap : SetSnapshot) (goneBy : Int) (f : SetFolder)
    (entries : List IndexEntry) (s : Scan) :
    (entries.foldl (scanEntry pathKey live snap goneBy f) s).kept =
      ((entries.filter (lost pathKey live f)).map fun e => (f, fileOf snap goneBy f e)).foldl
        (keep (lostKey pathKey)) s.kept := by
  induction entries generalizing s with
  | nil => rfl
  | cons e rest ih =>
      rw [List.foldl_cons, ih, scanEntry_kept, List.filter_cons]
      split
      · rfl
      · rfl

theorem scanFolder_kept (snap : SetSnapshot) (goneBy : Int) (s : Scan) (f : SetFolder) :
    (scanFolder pathKey live snap goneBy s f).kept =
      (folderLost pathKey live snap goneBy f).foldl (keep (lostKey pathKey)) s.kept := by
  rw [scanFolder, folderLost, entriesOf]
  split
  · rfl
  · exact scanEntries_kept snap goneBy f _ s

theorem scanFolders_kept (snap : SetSnapshot) (goneBy : Int) (folders : List SetFolder) (s : Scan) :
    (folders.foldl (scanFolder pathKey live snap goneBy) s).kept =
      (folders.flatMap (folderLost pathKey live snap goneBy)).foldl
        (keep (lostKey pathKey)) s.kept := by
  induction folders generalizing s with
  | nil => rfl
  | cons f rest ih =>
      rw [List.foldl_cons, ih, scanFolder_kept, List.flatMap_cons, List.foldl_append]

theorem scanFrom_kept (folders : List SetFolder) (goneBy : Int) (snaps : List SetSnapshot)
    (s : Scan) : (scanFrom pathKey live folders goneBy snaps s).kept =
      (lostFrom pathKey live folders goneBy snaps).foldl (keep (lostKey pathKey)) s.kept := by
  induction snaps generalizing goneBy s with
  | nil => rfl
  | cons snap rest ih =>
      rw [scanFrom, ih, scanFolders_kept, lostFrom, List.foldl_append]

theorem scanFrom_files (folders : List SetFolder) (snaps : List SetSnapshot) :
    (scanFrom pathKey live folders 0 snaps ⟨[], [], []⟩).files =
      firstBy (lostKey pathKey) [] (lostFrom pathKey live folders 0 snaps) := by
  have kept := congrArg Prod.snd (@scanFrom_kept pathKey live folders 0 snaps ⟨[], [], []⟩)
  exact kept.trans (foldl_keep _ _ _)

/-- The versions the scan comes to, before they are shown. -/
def versions (pathKey : Bytes → Bytes) (live : Bytes → LiveIndex) (folders : List SetFolder)
    (snaps : List SetSnapshot) : List Version :=
  (firstBy (lostKey pathKey) [] (lostFrom pathKey live folders 0 snaps)).map Prod.snd

theorem scanUndelete_versions :
    ((scanUndelete pathKey live folders snaps).map (·.toVersion)).Perm
      (versions pathKey live folders snaps) := by
  have same (files : List Version) : (moved pathKey live folders files).map (·.toVersion) = files := by
    rw [moved, List.map_map]
    refine (List.map_congr_left fun u _ => ?_).trans (List.map_id files)
    simp only [Function.comp_apply]
    split <;> rfl
  rw [scanUndelete, versions, ← scanFrom_files]
  refine ((List.mergeSort_perm _ _).map _).trans ?_
  rw [same]

theorem mem_lostFrom {c : SetFolder × Version} {goneBy : Int}
    (listed : c ∈ lostFrom pathKey live folders goneBy snaps) :
    ∃ f ∈ folders, ∃ snap ∈ snaps, ∃ e goneBy, Has snap f e ∧ Gone pathKey live f e.Path ∧
      c = (f, fileOf snap goneBy f e) := by
  induction snaps generalizing goneBy with
  | nil => cases listed
  | cons snap rest ih =>
      rw [lostFrom, List.mem_append, List.mem_flatMap] at listed
      obtain ⟨f, member, here⟩ | later := listed
      · obtain ⟨e, kept, rfl⟩ := List.mem_map.mp here
        obtain ⟨entry, is_lost⟩ := List.mem_filter.mp kept
        obtain ⟨found, inside⟩ := mem_entriesOf.mp entry
        obtain ⟨file, other, gone⟩ := lost_iff.mp is_lost
        exact ⟨f, member, snap, List.mem_cons_self, e, goneBy, ⟨found, inside, file, other⟩, gone, rfl⟩
      · obtain ⟨f, member, other, listed, rest⟩ := ih later
        exact ⟨f, member, other, List.mem_cons_of_mem _ listed, rest⟩

theorem lostFrom_mem {f : SetFolder} {snap : SetSnapshot} {e : IndexEntry} (member : f ∈ folders)
    (listed : snap ∈ snaps) (has : Has snap f e) (gone : Gone pathKey live f e.Path) (before : Int) :
    ∃ goneBy, (f, fileOf snap goneBy f e) ∈ lostFrom pathKey live folders before snaps := by
  induction snaps generalizing before with
  | nil => cases listed
  | cons first rest ih =>
      obtain rfl | later := List.mem_cons.mp listed
      · obtain ⟨found, inside, file, other⟩ := has
        refine ⟨before, List.mem_append_left _ (List.mem_flatMap.mpr ⟨f, member, ?_⟩)⟩
        exact List.mem_map.mpr ⟨e, List.mem_filter.mpr ⟨mem_entriesOf.mpr ⟨found, inside⟩,
          lost_iff.mpr ⟨file, other, gone⟩⟩, rfl⟩
      · obtain ⟨goneBy, inside⟩ := ih later first.Unix
        exact ⟨goneBy, List.mem_append_right _ inside⟩

/-- The versions come from the newest snapshot on. -/
theorem lostFrom_newest (newest : snaps.Pairwise fun a b => b.Unix < a.Unix) (goneBy : Int) :
    (lostFrom pathKey live folders goneBy snaps).Pairwise
      fun c d => d.2.SnapshotUnix ≤ c.2.SnapshotUnix := by
  induction snaps generalizing goneBy with
  | nil => exact .nil
  | cons snap rest ih =>
      obtain ⟨older, ordered⟩ := List.pairwise_cons.mp newest
      have here (c : SetFolder × Version)
          (listed : c ∈ folders.flatMap (folderLost pathKey live snap goneBy)) :
          c.2.SnapshotUnix = snap.Unix := by
        obtain ⟨f, -, kept⟩ := List.mem_flatMap.mp listed
        obtain ⟨e, -, rfl⟩ := List.mem_map.mp kept
        rfl
      refine List.pairwise_append.mpr ⟨?_, ih ordered _, ?_⟩
      · apply List.Pairwise.imp_of_mem (R := fun _ _ => True) _ (List.pairwise_of_forall fun _ _ => trivial)
        intro c d first second _
        exact Int.le_of_eq ((here d second).trans (here c first).symm)
      · intro c first d later
        obtain ⟨f, -, other, listed, e, gone, -, -, rfl⟩ := mem_lostFrom later
        rw [here c first]
        exact Int.le_of_lt (older other listed)

theorem archive_base {snap : SetSnapshot} {f : SetFolder} {e : IndexEntry} (has : Has snap f e) :
    archiveBaseOf (archiveFor snap f.Base) = f.Base := by
  have found := has.1
  rw [archiveFor] at found ⊢
  match here : snap.Archives.find? fun n => decide (archiveBaseOf n = f.Base) with
  | none =>
      rw [here] at found
      exact absurd rfl found
  | some n =>
      have kept := List.find?_some here
      exact of_decide_eq_true kept

theorem Gone.congr {f : SetFolder} {p q : Bytes} (same : pathKey p = pathKey q)
    (gone : Gone pathKey live f p) : Gone pathKey live f q := by
  rw [Gone, LiveIndex.HasFile, underAny] at gone ⊢
  rwa [← same]

theorem keyOf_path {f : SetFolder} {p q : Bytes} (same : keyOf pathKey f p = keyOf pathKey f q) :
    pathKey p = pathKey q := (List.cons.inj (List.append_cancel_left same)).2

/-- Of the keys of the folder that holds it, a version has that of its base and path. -/
theorem versions_mem {u : Version} (listed : u ∈ versions pathKey live folders snaps) :
    ∃ f ∈ folders, (f, u) ∈ firstBy (lostKey pathKey) [] (lostFrom pathKey live folders 0 snaps) ∧
      archiveBaseOf u.Archive = f.Base := by
  obtain ⟨⟨f, v⟩, kept, rfl⟩ := List.mem_map.mp listed
  obtain ⟨g, member, snap, -, e, goneBy, has, -, same⟩ := mem_lostFrom (firstBy_mem kept).1
  obtain ⟨rfl, rfl⟩ := Prod.mk.inj same
  exact ⟨f, member, kept, archive_base has⟩

theorem keysApart_of_complete (distinct : (folders.map (·.Base)).Nodup)
    (complete : ∀ f ∈ folders, ∀ snap ∈ snaps, ∀ e, Has snap f e → Gone pathKey live f e.Path →
      ∃ u ∈ versions pathKey live folders snaps, archiveBaseOf u.Archive = f.Base ∧
        pathKey u.Path = pathKey e.Path) : KeysApart pathKey live folders snaps := by
  intro f inF g inG a inA b inB e e' hasF hasG goneF goneG same
  obtain ⟨u, listedU, baseU, pathU⟩ := complete f inF a inA e hasF goneF
  obtain ⟨v, listedV, baseV, pathV⟩ := complete g inG b inB e' hasG goneG
  obtain ⟨f', inF', keptU, ownU⟩ := versions_mem listedU
  obtain ⟨g', inG', keptV, ownV⟩ := versions_mem listedV
  have inject := List.inj_on_of_nodup_map distinct
  obtain rfl : f' = f := inject inF' inF (ownU.symm.trans baseU)
  obtain rfl : g' = g := inject inG' inG (ownV.symm.trans baseV)
  have keys : lostKey pathKey (f', u) = lostKey pathKey (g', v) := by
    rw [keyOf, ← pathU, keyOf, ← pathV] at same
    exact same
  exact (Prod.mk.inj (firstBy_unique keptU keptV keys)).1

theorem listedOnce_of_apart (newest : snaps.Pairwise fun a b => b.Unix < a.Unix)
    (apart : KeysApart pathKey live folders snaps) :
    ListedOnce pathKey live folders snaps (versions pathKey live folders snaps) := by
  constructor
  case sound =>
    intro u listed
    obtain ⟨f, inF, kept, -⟩ := versions_mem listed
    obtain ⟨g, -, snap, inSnap, e, goneBy, has, gone, same⟩ := mem_lostFrom (firstBy_mem kept).1
    obtain ⟨rfl, rfl⟩ := Prod.mk.inj same
    refine ⟨f, inF, snap, inSnap, e, goneBy, has, gone, rfl, ?_⟩
    intro other inOther e' hasOther paths
    obtain ⟨by_, inside⟩ := lostFrom_mem inF inOther hasOther (gone.congr paths.symm) 0
    obtain ⟨before, after, whole, fresh⟩ := firstBy_first kept
    have ordered := @lostFrom_newest pathKey live folders snaps newest 0
    rw [whole] at inside ordered
    have keys : lostKey pathKey (f, fileOf other by_ f e') =
        lostKey pathKey (f, fileOf snap goneBy f e) := congrArg (f.Base ++ 124 :: ·) paths
    obtain earlier | later := List.mem_append.mp inside
    · exact absurd keys (fresh _ earlier)
    · obtain same | behind := List.mem_cons.mp later
      · exact Int.le_of_eq (congrArg (·.2.SnapshotUnix) same)
      · have pairs := (List.pairwise_append.mp ordered).2.1
        exact (List.pairwise_cons.mp pairs).1 _ behind
  case complete =>
    intro f inF snap inSnap e has gone
    obtain ⟨goneBy, inside⟩ := lostFrom_mem inF inSnap has gone 0
    obtain known | ⟨⟨g, v⟩, kept, same⟩ := @firstBy_covers _ _ _ (lostKey pathKey) _ _ inside []
    · cases known
    · obtain ⟨g', inG, other, inOther, e', by_, hasOther, goneOther, made⟩ :=
        mem_lostFrom (firstBy_mem kept).1
      obtain ⟨rfl, rfl⟩ := Prod.mk.inj made
      obtain rfl := apart g inG f inF other inOther snap inSnap e' e hasOther has goneOther gone same
      exact ⟨_, List.mem_map_of_mem kept, archive_base hasOther, keyOf_path same⟩
  case once =>
    apply List.pairwise_map.mpr
    refine (firstBy_pairwise (lostKey pathKey) [] _).imp_of_mem ?_
    rintro ⟨f, u⟩ ⟨g, v⟩ keptU keptV different ⟨bases, paths⟩
    obtain ⟨_, -, _, -, _, _, hasU, -, madeU⟩ := mem_lostFrom (firstBy_mem keptU).1
    obtain ⟨_, -, _, -, _, _, hasV, -, madeV⟩ := mem_lostFrom (firstBy_mem keptV).1
    obtain ⟨rfl, rfl⟩ := Prod.mk.inj madeU
    obtain ⟨rfl, rfl⟩ := Prod.mk.inj madeV
    have base : f.Base = g.Base := (archive_base hasU).symm.trans (bases.trans (archive_base hasV))
    apply different
    rw [lostKey, lostKey, keyOf, keyOf, base]
    exact congrArg (g.Base ++ 124 :: ·) paths

theorem ListedOnce.perm {files others : List Version}
    (listed : ListedOnce pathKey live folders snaps files) (same : files.Perm others) :
    ListedOnce pathKey live folders snaps others := by
  constructor
  case sound => exact fun u member => listed.sound u (same.mem_iff.mpr member)
  case complete =>
    intro f inF snap inSnap e has gone
    obtain ⟨u, member, rest⟩ := listed.complete f inF snap inSnap e has gone
    exact ⟨u, same.mem_iff.mp member, rest⟩
  case once =>
    refine (same.pairwise_iff ?_).mp listed.once
    rintro u v apart ⟨bases, paths⟩
    exact apart ⟨bases.symm, paths.symm⟩

/-! The selection is restored as it is. -/

theorem archiveRoots_lookup {base : Bytes} {folders : List SetFolder} {roots : List (Bytes × Bytes)}
    (known : (roots.lookup base).isSome ∨ base ∈ folders.map (·.Base)) :
    ((folders.foldl (fun roots f => upsert f.Base (fun _ => f.Dir) roots) roots).lookup base).isSome := by
  induction folders generalizing roots with
  | nil =>
      obtain known | missing := known
      · exact known
      · cases missing
  | cons f rest ih =>
      apply ih
      have step := lookup_upsert f.Base base (fun _ => f.Dir) roots
      rw [step]
      by_cases same : base = f.Base
      · exact .inl (by rw [if_pos same]; rfl)
      · rw [if_neg same]
        obtain known | listed := known
        · exact .inl known
        · obtain here | later := List.mem_cons.mp listed
          · exact absurd here same
          · exact .inr later

theorem checkItems_ok {roots : List (Bytes × Bytes)} {items : List UndeleteItem} :
    checkItems roots items = .ok () ↔ ∀ it ∈ items, Plain it.Path ∧
      (roots.lookup (archiveBaseOf it.Archive)).isSome := by
  induction items with
  | nil => exact iff_of_true rfl nofun
  | cons it rest ih =>
      rw [checkItems, List.forall_mem_cons, ← ih]
      split
      · rename_i invalid
        refine iff_of_false nofun ?_
        rintro ⟨⟨⟨some_, plain⟩, -⟩, -⟩
        obtain empty | dotted := invalid
        · exact some_ empty
        · rw [plain] at dotted
          cases dotted
      · rename_i valid
        obtain ⟨some_, plain⟩ := not_or.mp valid
        split
        · rename_i missing
          refine iff_of_false nofun ?_
          rintro ⟨⟨-, known⟩, -⟩
          rw [Option.isNone_iff_eq_none] at missing
          rw [missing] at known
          cases known
        · rename_i known
          have given : (roots.lookup (archiveBaseOf it.Archive)).isSome = true := by
            rw [Option.isSome_iff_ne_none]
            intro missing
            rw [missing] at known
            exact known rfl
          exact ⟨fun ok => ⟨⟨⟨some_, Bool.eq_false_iff.mpr plain⟩, given⟩, ok⟩, fun all => all.2⟩

/-- The paths of a snapshot's archive. -/
def pathsOf (bySnap : BySnap) (unix : Int) (archive : Bytes) : List Bytes :=
  (((bySnap.lookup unix).getD []).lookup archive).getD []

theorem addItems_paths (items : List UndeleteItem) (bySnap : BySnap) (unix : Int) (archive : Bytes) :
    pathsOf (items.foldl addItem bySnap) unix archive = pathsOf bySnap unix archive ++
      (items.filter fun it => it.SnapshotUnix = unix ∧ it.Archive = archive).map (·.Path) := by
  induction items generalizing bySnap with
  | nil => simp
  | cons it rest ih =>
      rw [List.foldl_cons, ih, pathsOf, addItem, lookup_upsert]
      by_cases snap : unix = it.SnapshotUnix
      · subst snap
        rw [if_pos rfl, Option.getD_some, lookup_upsert]
        by_cases own : archive = it.Archive
        · subst own
          rw [if_pos rfl, Option.getD_some, List.filter_cons_of_pos (by simp), List.map_cons,
            List.append_assoc, List.singleton_append]
          rfl
        · rw [if_neg own, List.filter_cons_of_neg (by simp [Ne.symm own])]
          rfl
      · rw [if_neg snap, List.filter_cons_of_neg (by simp [Ne.symm snap])]
        rfl

theorem addItems_keys (items : List UndeleteItem) (bySnap : BySnap)
    (distinct : (bySnap.map Prod.fst).Nodup) :
    ((items.foldl addItem bySnap).map Prod.fst).Nodup ∧
      ∀ unix, unix ∈ (items.foldl addItem bySnap).map Prod.fst ↔
        unix ∈ bySnap.map Prod.fst ∨ ∃ it ∈ items, it.SnapshotUnix = unix := by
  induction items generalizing bySnap with
  | nil =>
      refine ⟨distinct, fun unix => ?_⟩
      simp
  | cons it rest ih =>
      obtain ⟨nodup, members⟩ := upsert_keys it.SnapshotUnix (fun archives =>
        upsert it.Archive (fun paths => paths.getD [] ++ [it.Path]) (archives.getD [])) bySnap distinct
      obtain ⟨later, all⟩ := ih (addItem bySnap it) nodup
      refine ⟨later, fun unix => ?_⟩
      rw [List.foldl_cons, all, addItem, members, List.exists_mem_cons_iff, or_comm (a := unix = _),
        or_assoc, eq_comm]

theorem startUndelete_ok {items : List UndeleteItem} {dest : Bytes} {verify parallel : Bool}
    (some_ : items ≠ []) (checked : checkItems (archiveRootsFor folders) items = .ok ()) :
    ∃ runs, StartUndelete folders items dest verify parallel = .ok runs ∧
      runs.Pairwise (fun a b => a.SnapshotTime ≠ b.SnapshotTime) ∧
      (∀ it ∈ items, ∃ run ∈ runs, run.SnapshotTime = it.SnapshotUnix) ∧
      ∀ run ∈ runs, ∀ archive, run.includes archive =
        (items.filter fun it => it.SnapshotUnix = run.SnapshotTime ∧ it.Archive = archive).map
          (·.Path) := by
  obtain ⟨nodup, members⟩ := addItems_keys items [] .nil
  have sorted := List.mergeSort_perm ((items.foldl addItem []).map Prod.fst)
    fun a b : Int => decide (b ≤ a)
  refine ⟨(((items.foldl addItem []).map Prod.fst).mergeSort fun a b : Int => decide (b ≤ a)).map
    fun u => undeleteRun (archiveRootsFor folders) dest verify parallel u
      (((items.foldl addItem []).lookup u).getD []), ?_, ?_, ?_, ?_⟩
  · rw [StartUndelete, if_neg some_, checked]
    rfl
  · apply List.pairwise_map.mpr
    exact sorted.nodup_iff.mpr nodup
  · intro it listed
    refine ⟨_, List.mem_map_of_mem (sorted.mem_iff.mpr ((members it.SnapshotUnix).mpr ?_)), rfl⟩
    exact .inr ⟨it, listed, rfl⟩
  · intro run listed archive
    obtain ⟨unix, -, rfl⟩ := List.mem_map.mp listed
    exact (addItems_paths items [] unix archive).trans (List.nil_append _)

/-- What the case rule of a platform keeps of a path. -/
structure CaseRule (pathKey : Bytes → Bytes) : Prop where
  plain : ∀ p q, pathKey p = pathKey q → Plain p → Plain q

theorem restorable_of_plain {files : List Version}
    (known : ∀ u ∈ files, Plain u.Path ∧ archiveBaseOf u.Archive ∈ folders.map (·.Base)) :
    Restorable folders files := by
  intro selection some_ inside dest verify parallel
  have items : selection.map Version.item ≠ [] := fun empty => some_ (List.map_eq_nil_iff.mp empty)
  have checked : checkItems (archiveRootsFor folders) (selection.map Version.item) = .ok () := by
    apply checkItems_ok.mpr
    intro it listed
    obtain ⟨u, member, rfl⟩ := List.mem_map.mp listed
    obtain ⟨plain, own⟩ := known u (inside member)
    exact ⟨plain, archiveRoots_lookup (.inr own)⟩
  obtain ⟨runs, started, times, covered, includes⟩ := startUndelete_ok items checked
  refine ⟨runs, started, times, fun u member => covered u.item (List.mem_map_of_mem member), ?_⟩
  intro run listed archive
  rw [includes run listed archive, List.filter_map, List.map_map]
  rfl

theorem plain_of_restorable {files : List Version} (restorable : Restorable folders files)
    {u : Version} (listed : u ∈ files) : Plain u.Path := by
  obtain ⟨runs, started, -⟩ := restorable [u] (List.cons_ne_nil _ _)
    (fun v member => List.mem_singleton.mp member ▸ listed) [] false false
  rw [StartUndelete, List.map_singleton, if_neg (List.cons_ne_nil _ _)] at started
  match checked : checkItems (archiveRootsFor folders) [u.item] with
  | .ok () => exact (checkItems_ok.mp checked u.item List.mem_cons_self).1
  | .error err =>
      rw [checked] at started
      cases started

/-- Undelete lists each lost file once and takes every selection exactly when the keys of lost
files of different folders differ, and no path of a lost file is empty or has two dots. -/
theorem undelete_exact (pathKey : Bytes → Bytes) (live : Bytes → LiveIndex)
    (folders : List SetFolder) (snaps : List SetSnapshot) (rule : CaseRule pathKey)
    (distinct : (folders.map (·.Base)).Nodup)
    (newest : snaps.Pairwise fun a b => b.Unix < a.Unix) :
    (ListedOnce pathKey live folders snaps
        ((scanUndelete pathKey live folders snaps).map (·.toVersion)) ∧
      Restorable folders ((scanUndelete pathKey live folders snaps).map (·.toVersion))) ↔
    KeysApart pathKey live folders snaps ∧
      ∀ f ∈ folders, ∀ snap ∈ snaps, ∀ e, Has snap f e → Gone pathKey live f e.Path → Plain e.Path := by
  have shown := @scanUndelete_versions pathKey live folders snaps
  constructor
  · rintro ⟨listed, restorable⟩
    refine ⟨keysApart_of_complete distinct (listed.perm shown).complete, ?_⟩
    intro f inF snap inSnap e has gone
    obtain ⟨u, member, -, same⟩ := listed.complete f inF snap inSnap e has gone
    exact rule.plain _ _ same (plain_of_restorable restorable member)
  · rintro ⟨apart, plain⟩
    have listed := (listedOnce_of_apart newest apart).perm shown.symm
    refine ⟨listed, restorable_of_plain fun u member => ?_⟩
    obtain ⟨f, inF, snap, inSnap, e, goneBy, has, gone, rfl, -⟩ := listed.sound u member
    exact ⟨plain f inF snap inSnap e has gone,
      List.mem_map.mpr ⟨f, inF, (archive_base has).symm⟩⟩

end

/-- A folder that two snapshots have one file of, which is not on disk. -/
def docs : SetFolder := ⟨ascii "/docs", ascii "docs"⟩

def docsSnapshot (unix : Int) (path : Bytes) : SetSnapshot where
  ID := [unix.toNat.toUInt8]
  Unix := unix
  Archives := [ascii "docs.pxar.didx"]
  index _ := [⟨path, false, 5, unix⟩]

def emptyDisk : Bytes → LiveIndex := fun _ => ⟨[], []⟩

def docsTwice (path : Bytes) : List SetSnapshot := [docsSnapshot 2 path, docsSnapshot 1 path]

theorem lost_file_listed :
    ListedOnce id emptyDisk [docs] (docsTwice (ascii "a.b"))
        ((scanUndelete id emptyDisk [docs] (docsTwice (ascii "a.b"))).map (·.toVersion)) ∧
      Restorable [docs] ((scanUndelete id emptyDisk [docs] (docsTwice (ascii "a.b"))).map
        (·.toVersion)) := by
  apply (undelete_exact id emptyDisk [docs] (docsTwice (ascii "a.b"))
    ⟨fun p q same plain => (show p = q from same) ▸ plain⟩ (List.pairwise_singleton _ _) ?_).mpr
  · constructor
    · intro f inF g inG _ _ _ _ _ _ _ _ _ _ _
      rw [List.mem_singleton.mp inF, List.mem_singleton.mp inG]
    · intro f _ snap inSnap e has _
      have entry : e.Path = ascii "a.b" := by
        obtain rfl | rest := List.mem_cons.mp inSnap
        · exact congrArg IndexEntry.Path (List.mem_singleton.mp has.2.1)
        · obtain rfl := List.mem_singleton.mp rest
          exact congrArg IndexEntry.Path (List.mem_singleton.mp has.2.1)
      rw [entry]
      exact ⟨by decide, by decide⟩
  · exact List.pairwise_pair.mpr (by decide)

/-- A lost file with two dots in its name is listed, and its restore refused. -/
theorem dotted_file_refused :
    (scanUndelete id emptyDisk [docs] (docsTwice (ascii "a..b"))).map (·.Path) = [ascii "a..b"] ∧
      ¬ (ListedOnce id emptyDisk [docs] (docsTwice (ascii "a..b"))
          ((scanUndelete id emptyDisk [docs] (docsTwice (ascii "a..b"))).map (·.toVersion)) ∧
        Restorable [docs] ((scanUndelete id emptyDisk [docs] (docsTwice (ascii "a..b"))).map
          (·.toVersion))) := by
  have listed : (scanUndelete id emptyDisk [docs] (docsTwice (ascii "a..b"))).map (·.toVersion) =
      [fileOf (docsSnapshot 2 (ascii "a..b")) 0 docs ⟨ascii "a..b", false, 5, 2⟩] := by decide +kernel
  refine ⟨by decide +kernel, ?_⟩
  rintro ⟨-, restorable⟩
  rw [listed] at restorable
  exact absurd (plain_of_restorable restorable (List.mem_singleton_self _)).2 (by decide)

end ProxmoxBackup.UndeleteScan
