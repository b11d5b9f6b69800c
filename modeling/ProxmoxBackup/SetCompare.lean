import ProxmoxBackup.FileTree
import Mathlib.Data.List.Lex
import Mathlib.Data.List.Sort
import Mathlib.Data.String.Basic

/-! Comparing a snapshot of a folder with the live folder (set_compare.go): the
index a walk of the live folder makes, and the merge of the two sorted indexes.
`pathKey` is the path itself, as it is everywhere but on Windows, where names
that differ in case are one name of the file system. What the walk passes over
(exclusion patterns, the automatic exclusions, what vanished) is a predicate on
relative paths, and so are the folders it cannot list. -/

namespace ProxmoxBackup.SetCompare

open FileTree

abbrev Path := List String

instance : LawfulBEq Path := inferInstance

structure FileData where
  data : List UInt8
  mtime : Int
  deriving DecidableEq

abbrev FileNode := Node String FileData

abbrev FileSystem := Tree String FileData

structure IndexEntry where
  path : Path
  isDir : Bool
  size : Nat
  mtime : Int
  link : Bool
  deriving DecidableEq

def backupMetaFileName : String := ".proxmox_backup_client_meta.json"

/-- A folder's time is not compared; a link is recorded by name only. -/
def indexEntry (path : Path) : FileNode → IndexEntry
  | .file content => ⟨path, false, content.data.length, content.mtime, false⟩
  | .link _ _ => ⟨path, false, 0, 0, true⟩
  | .dir => ⟨path, true, 0, 0, false⟩

def sortIndex (entries : List IndexEntry) : List IndexEntry :=
  entries.insertionSort fun a b => a.path ≤ b.path

/-- The paths of `t` strictly below `dir`, relative to it. -/
def pathsUnder (t : FileSystem) (dir : Path) : List Path :=
  (t.paths.filter fun p => dir.isPrefixOf p && p ≠ dir).map (List.drop dir.length)

/-- How the walk of one live folder sees it. -/
structure Walker where
  skips : Path → Bool
  unreadable : Path → Bool
  keepLinks : Bool

/-- The walk comes to `rel` when it passes over nothing on the way and can list
every folder above it. -/
def Walker.reaches (walker : Walker) (rel : Path) : Bool :=
  rel.inits.all fun r => r = [] || (!walker.skips r && (r = rel || !walker.unreadable r))

structure LiveIndex where
  entries : List IndexEntry
  unreadable : List Path

def liveEntry (walker : Walker) (t : FileSystem) (dir rel : Path) : Option IndexEntry :=
  match t.lstat (dir ++ rel) with
  | none => none
  | some (.link target resolves) =>
      if walker.keepLinks then some (indexEntry rel (.link target resolves)) else none
  | some node => some (indexEntry rel node)

def walkLiveFolder (walker : Walker) (t : FileSystem) (dir : Path) : LiveIndex :=
  let reached := (pathsUnder t dir).filter (walker.reaches)
  { entries := sortIndex (reached.filterMap (liveEntry walker t dir))
    unreadable := reached.filter fun rel =>
      walker.unreadable rel && t.lstat (dir ++ rel) = some .dir }

/-- The index of a snapshot's archive: every entry of its tree. -/
def snapshotIndex (snapshot : FileSystem) : List IndexEntry :=
  sortIndex (snapshot.paths.filterMap fun p => (snapshot.lstat p).map (indexEntry p))

def underAny (rel : Path) (prefixes : List Path) : Bool :=
  prefixes.any fun p => p.isPrefixOf rel

structure ChangedFile where
  snap : IndexEntry
  live : IndexEntry

structure CompareResult where
  unchanged : Nat := 0
  missing : List IndexEntry := []
  changed : List ChangedFile := []
  new : List IndexEntry := []
  newDirs : List IndexEntry := []
  unknown : Nat := 0

/-- A snapshot entry that no live entry matches. -/
def CompareResult.onlySnap (r : CompareResult) (unreadable : List Path) (s : IndexEntry) :
    CompareResult :=
  if s.isDir || s.path = [backupMetaFileName] then r
  else if underAny s.path unreadable then { r with unknown := r.unknown + 1 }
  else { r with missing := r.missing ++ [s] }

def CompareResult.onlyLive (r : CompareResult) (l : IndexEntry) : CompareResult :=
  if l.isDir then { r with newDirs := r.newDirs ++ [l] } else { r with new := r.new ++ [l] }

def CompareResult.both (r : CompareResult) (s l : IndexEntry) : CompareResult :=
  if s.isDir && l.isDir then r
  else if s.link && l.link then { r with unchanged := r.unchanged + 1 }
  else if s.link ≠ l.link ∧ !s.isDir ∧ !l.isDir then
    { r with changed := r.changed ++ [⟨s, l⟩] }
  else if s.isDir ≠ l.isDir then
    -- The snapshot's version is missing and the live one is new.
    let r := if !s.isDir then { r with missing := r.missing ++ [s] } else r
    r.onlyLive l
  else if s.size ≠ l.size ∨ s.mtime ≠ l.mtime then
    { r with changed := r.changed ++ [⟨s, l⟩] }
  else { r with unchanged := r.unchanged + 1 }

def compareLoop (unreadable : List Path) :
    List IndexEntry → List IndexEntry → CompareResult → CompareResult
  | [], [], r => r
  | s :: snap, [], r => compareLoop unreadable snap [] (r.onlySnap unreadable s)
  | [], l :: live, r => compareLoop unreadable [] live (r.onlyLive l)
  | s :: snap, l :: live, r =>
      if s.path < l.path then compareLoop unreadable snap (l :: live) (r.onlySnap unreadable s)
      else if l.path < s.path then compareLoop unreadable (s :: snap) live (r.onlyLive l)
      else compareLoop unreadable snap live (r.both s l)
termination_by snap live => snap.length + live.length

def compareIndexes (snap : List IndexEntry) (live : LiveIndex) : CompareResult :=
  compareLoop live.unreadable snap live.entries {}

/-! What the comparison lists: files of the snapshot as missing or changed,
live files as new or changed, live folders as new folders. -/

structure Classified (snap live : List IndexEntry) (r : CompareResult) : Prop where
  missing : ∀ e ∈ r.missing, e ∈ snap ∧ e.isDir = false
  changed : ∀ c ∈ r.changed, c.snap ∈ snap ∧ c.snap.isDir = false ∧ c.live ∈ live ∧
    c.live.isDir = false ∧ c.snap.path = c.live.path
  new : ∀ e ∈ r.new, e ∈ live ∧ e.isDir = false
  newDirs : ∀ e ∈ r.newDirs, e ∈ live ∧ e.isDir = true

theorem classified_start (snap live : List IndexEntry) : Classified snap live {} :=
  ⟨by simp, by simp, by simp, by simp⟩

theorem classified_onlySnap (snap live : List IndexEntry) (r : CompareResult)
    (unreadable : List Path) (s : IndexEntry) (held : Classified snap live r) (listed : s ∈ snap) :
    Classified snap live (r.onlySnap unreadable s) := by
  unfold CompareResult.onlySnap
  split
  · exact held
  · next file =>
      split
      · exact { held with }
      · refine { held with missing := ?_ }
        intro e member
        rcases List.mem_append.mp member with earlier | here
        · exact held.missing e earlier
        · rw [List.mem_singleton.mp here]
          exact ⟨listed, by simp at file; exact file.1⟩

theorem classified_onlyLive (snap live : List IndexEntry) (r : CompareResult) (l : IndexEntry)
    (held : Classified snap live r) (listed : l ∈ live) : Classified snap live (r.onlyLive l) := by
  unfold CompareResult.onlyLive
  split
  · next folder =>
      refine { held with newDirs := ?_ }
      intro e member
      rcases List.mem_append.mp member with earlier | here
      · exact held.newDirs e earlier
      · rw [List.mem_singleton.mp here]
        exact ⟨listed, folder⟩
  · next file =>
      refine { held with new := ?_ }
      intro e member
      rcases List.mem_append.mp member with earlier | here
      · exact held.new e earlier
      · rw [List.mem_singleton.mp here]
        exact ⟨listed, by simpa using file⟩

theorem classified_change (snap live : List IndexEntry) (r : CompareResult) (s l : IndexEntry)
    (held : Classified snap live r) (listed : s ∈ snap) (there : l ∈ live)
    (file : s.isDir = false) (liveFile : l.isDir = false) (same : s.path = l.path) :
    Classified snap live { r with changed := r.changed ++ [⟨s, l⟩] } := by
  refine { held with changed := ?_ }
  intro c member
  rcases List.mem_append.mp member with earlier | here
  · exact held.changed c earlier
  · rw [List.mem_singleton.mp here]
    exact ⟨listed, file, there, liveFile, same⟩

theorem classified_both (snap live : List IndexEntry) (r : CompareResult) (s l : IndexEntry)
    (held : Classified snap live r) (listed : s ∈ snap) (there : l ∈ live)
    (same : s.path = l.path) :
    Classified snap live (r.both s l) := by
  unfold CompareResult.both
  split
  · exact held
  · next notBoth =>
      split
      · exact { held with }
      · split
        · next mixed =>
            exact classified_change snap live r s l held listed there (by simpa using mixed.2.1)
              (by simpa using mixed.2.2) same
        · split
          · next turned =>
              split
              · next file =>
                  refine classified_onlyLive snap live _ l { held with missing := ?_ } there
                  intro e member
                  rcases List.mem_append.mp member with earlier | here
                  · exact held.missing e earlier
                  · rw [List.mem_singleton.mp here]
                    exact ⟨listed, by simpa using file⟩
              · exact classified_onlyLive snap live r l held there
          · next alike =>
              have kinds : s.isDir = l.isDir := by simpa using alike
              have file : s.isDir = false := by
                cases folder : s.isDir with
                | false => rfl
                | true => simp [folder, ← kinds] at notBoth
              split
              · exact classified_change snap live r s l held listed there file (kinds ▸ file) same
              · exact { held with }

theorem compareLoop_classified (unreadable : List Path) (allSnap allLive : List IndexEntry)
    (snap live : List IndexEntry) (r : CompareResult) (held : Classified allSnap allLive r)
    (snaps : ∀ e ∈ snap, e ∈ allSnap) (lives : ∀ e ∈ live, e ∈ allLive) :
    Classified allSnap allLive (compareLoop unreadable snap live r) := by
  induction snap, live, r using compareLoop.induct unreadable with
  | case1 r => simpa [compareLoop] using held
  | case2 s snap r ih =>
      rw [compareLoop]
      exact ih (classified_onlySnap _ _ _ _ _ held (snaps s (by simp)))
        (fun e member => snaps e (by simp [member])) (by simp)
  | case3 l live r ih =>
      rw [compareLoop]
      exact ih (classified_onlyLive _ _ _ _ held (lives l (by simp))) (by simp)
        (fun e member => lives e (by simp [member]))
  | case4 s snap l live r earlier ih =>
      rw [compareLoop, if_pos earlier]
      exact ih (classified_onlySnap _ _ _ _ _ held (snaps s (by simp)))
        (fun e member => snaps e (by simp [member])) lives
  | case5 s snap l live r notEarlier later ih =>
      rw [compareLoop, if_neg notEarlier, if_pos later]
      exact ih (classified_onlyLive _ _ _ _ held (lives l (by simp))) snaps
        (fun e member => lives e (by simp [member]))
  | case6 s snap l live r notEarlier notLater ih =>
      rw [compareLoop, if_neg notEarlier, if_neg notLater]
      have same : s.path = l.path := le_antisymm (not_lt.mp notLater) (not_lt.mp notEarlier)
      exact ih
        (classified_both _ _ _ _ _ held (snaps s (by simp)) (lives l (by simp)) same)
        (fun e member => snaps e (by simp [member])) (fun e member => lives e (by simp [member]))

theorem indexEntry_isDir (rel : Path) (node : FileNode) :
    (indexEntry rel node).isDir = true ↔ node = .dir := by
  cases node <;> simp [indexEntry]

theorem indexEntry_path (rel : Path) (node : FileNode) : (indexEntry rel node).path = rel := by
  cases node <;> rfl

theorem mem_pathsUnder (t : FileSystem) (dir rel : Path) (member : rel ∈ pathsUnder t dir) :
    rel ≠ [] ∧ t.lstat (dir ++ rel) ≠ none := by
  obtain ⟨p, listed, rfl⟩ := List.mem_map.mp member
  obtain ⟨there, ⟨rest, rfl⟩, longer⟩ : p ∈ t.paths ∧ dir <+: p ∧ p ≠ dir := by
    simpa using listed
  rw [List.drop_left]
  refine ⟨?_, (t.mem_paths _ there).2⟩
  rintro rfl
  simp at longer

theorem liveEntry_spec (walker : Walker) (t : FileSystem) (dir rel : Path) (e : IndexEntry)
    (entry : liveEntry walker t dir rel = some e) :
    ∃ node, t.lstat (dir ++ rel) = some node ∧ e = indexEntry rel node := by
  unfold liveEntry at entry
  split at entry
  · cases entry
  · next target resolves found =>
      split at entry
      · exact ⟨_, found, (Option.some.inj entry).symm⟩
      · cases entry
  · next node other found => exact ⟨node, found, (Option.some.inj entry).symm⟩

theorem mem_walkLiveFolder (walker : Walker) (t : FileSystem) (dir : Path) (e : IndexEntry)
    (member : e ∈ (walkLiveFolder walker t dir).entries) :
    e.path ≠ [] ∧ walker.skips e.path = false ∧
      ∃ node, t.lstat (dir ++ e.path) = some node ∧ (e.isDir = true ↔ node = .dir) := by
  obtain ⟨rel, listed, entry⟩ := List.mem_filterMap.mp ((List.mem_insertionSort _).mp member)
  obtain ⟨under, reached⟩ := List.mem_filter.mp listed
  obtain ⟨node, found, rfl⟩ := liveEntry_spec walker t dir rel e entry
  have named := (mem_pathsUnder t dir rel under).1
  rw [indexEntry_path]
  refine ⟨named, ?_, node, found, indexEntry_isDir rel node⟩
  unfold Walker.reaches at reached
  rw [List.all_eq_true] at reached
  have last := reached rel (by simp)
  simpa [named] using last

theorem mem_snapshotIndex (snapshot : FileSystem) (e : IndexEntry)
    (member : e ∈ snapshotIndex snapshot) :
    e.path ≠ [] ∧ ∃ node, snapshot.lstat e.path = some node ∧ (e.isDir = true ↔ node = .dir) := by
  obtain ⟨p, listed, entry⟩ := List.mem_filterMap.mp ((List.mem_insertionSort _).mp member)
  obtain ⟨node, found, rfl⟩ := Option.map_eq_some_iff.mp entry
  rw [indexEntry_path]
  exact ⟨(snapshot.mem_paths p listed).1, node, found, indexEntry_isDir p node⟩

theorem compareIndexes_classified (snap : List IndexEntry) (live : LiveIndex) :
    Classified snap live.entries (compareIndexes snap live) :=
  compareLoop_classified live.unreadable snap live.entries snap live.entries {}
    (classified_start _ _) (fun _ => id) (fun _ => id)

end ProxmoxBackup.SetCompare
