import ProxmoxBackup.ImageListing

/-! restoreImageSnapshot of gui/restore_image.go: what a selection picks from the
volumes of a disk image, where each pick goes, and in which order links, folders
and files are made. Every step may fail or be skipped, so a run is the picks with
an outcome each. Sizes, times, streams (which add ":name" to a file's own place)
and the reading of contents are left out; so is withoutSystemFolders, which only
removes entries. Which volume a set's folder base names is a parameter, as it
depends on the volumes of the live machine. -/

namespace ProxmoxBackup.ImageRestore

open DynamicChunks LexicalPath RestorePaths ImageListing

structure ImageVolume where
  display : Text
  entries : List Entry

/-- Sorted entries are searched for the first that is not before `rel`. -/
def pickEntries (entries : List Entry) (rel : Text) : List Entry :=
  if rel = [] then entries
  else
    let found := match entries.dropWhile fun e => decide (e.path < rel) with
      | e :: _ => if e.path = rel then [e] else []
      | [] => []
    found ++ (entries.dropWhile fun e => decide (e.path < rel ++ [slash])).takeWhile fun e =>
      under rel e.path

/-- The destination folder, or the root given for an archive. -/
inductive Root where
  | dest
  | archive (key : Text)
  deriving DecidableEq

inductive ImageMode where
  | original
  | alternate (mode : Mode)

/-- `roots` are the archives with a root of their own. -/
structure Options where
  mode : ImageMode
  includePaths : List Text
  archiveIncludes : Option (List (Text × List Text))
  archiveRoots : Option (List Text)

structure Pick where
  vol : Text
  entry : Entry
  root : Root
  rel : Text
  deriving DecidableEq

structure Picked where
  seen : List Text
  picks : List Pick

def add (vol : ImageVolume) (rel : Text) (dest : Entry → Option (Root × Text)) (s : Picked) :
    Picked :=
  (pickEntries vol.entries rel).foldl (fun s e =>
    let key := vol.display ++ slash :: e.path
    if key ∈ s.seen then s
    else
      { seen := key :: s.seen
        picks := match dest e with
          | some (root, text) => s.picks ++ [⟨vol.display, e, root, text⟩]
          | none => s.picks }) s

section selection

variable (opts : Options) (vols : List ImageVolume)
  (base : Text → Option (Option ImageVolume × Text))

def viaRewriter (vol : ImageVolume) (e : Entry) : Option (Root × Text) :=
  match opts.mode with
  | .original => none
  | .alternate mode =>
      (rewriter mode opts.includePaths (vol.display ++ slash :: e.path)).map fun text => (.dest, text)

def rootOf (key : Text) : Option Root :=
  if key ∈ opts.archiveRoots.getD [] then some (.archive key) else none

/-- After the last "/". -/
def lastName (sub : Text) : Text := (sub.reverse.takeWhile (· ≠ slash)).reverse

def baseDest (key sub : Text) (vol : ImageVolume) (e : Entry) : Option (Root × Text) :=
  let folderName := if sub = [] then vol.display else lastName sub
  let rel := if sub = [] then e.path else trimUnder sub e.path
  match opts.mode with
  | .original => (rootOf opts key).map fun root => (root, rel)
  | .alternate mode =>
      (rewriter mode opts.includePaths (folderName ++ slash :: rel)).map fun text => (.dest, text)

def volumeDest (key : Text) (vol : ImageVolume) (e : Entry) : Option (Root × Text) :=
  match opts.mode with
  | .original => (rootOf opts key).map fun root => (root, e.path)
  | .alternate _ => viaRewriter opts vol e

/-- One key of ArchiveIncludes; a set's folder without its volume is an error. -/
def addArchive (s : Picked) (item : Text × List Text) : Option Picked :=
  match base item.1 with
  | some (none, _) => none
  | some (some vol, sub) =>
      some (item.2.foldl (fun s rel =>
        let rel := trimSlashes (forward rel)
        add vol (if sub = [] then rel else sub ++ slash :: rel) (baseDest opts item.1 sub vol) s) s)
  | none =>
      some ((vols.filter fun vol => vol.display = item.1).foldl (fun s vol =>
        item.2.foldl (fun s rel =>
          add vol (trimSlashes (forward rel)) (volumeDest opts item.1 vol) s) s) s)

def addInclude (vol : ImageVolume) (s : Picked) (inc : Text) : Picked :=
  if inc = vol.display then add vol [] (viaRewriter opts vol) s
  else if under vol.display inc then
    add vol (trimUnder vol.display inc) (viaRewriter opts vol) s
  else s

/-- None is an error before anything is written. -/
def selected : Option (List Pick) :=
  let includes := normalizeIncludes opts.includePaths
  match opts.mode, opts.archiveRoots with
  | .original, none => none
  | _, _ =>
      match opts.archiveIncludes with
      | some archives => (archives.foldlM (addArchive opts vols base) ⟨[], []⟩).map (·.picks)
      | none =>
          if includes.isEmpty then
            some (vols.foldl (fun s vol => add vol [] (viaRewriter opts vol) s) ⟨[], []⟩).picks
          else
            some (vols.foldl (fun s vol => includes.foldl (addInclude opts vol) s) ⟨[], []⟩).picks

end selection

def Pick.isFolder (pick : Pick) : Bool := pick.entry.isDir
def Pick.isLink (pick : Pick) : Bool := !pick.entry.isDir && pick.entry.symlink
def Pick.isFile (pick : Pick) : Bool := !pick.entry.isDir && !pick.entry.symlink

def recordOrder (first second : Pick) : Prop :=
  if first.vol = second.vol then first.entry.record ≤ second.entry.record
  else first.vol < second.vol

instance : DecidableRel recordOrder := fun first second => by
  unfold recordOrder
  infer_instance

/-- Links are made while the picks are gone through, then the folders, then the
files in the order their contents have on the disk. -/
def Tasks (picks tasks : List Pick) : Prop :=
  let sorted := picks.insertionSort recordOrder
  ∃ files, files.Perm (sorted.filter Pick.isFile) ∧
    tasks = sorted.filter Pick.isLink ++ sorted.filter Pick.isFolder ++ files

structure Made where
  pick : Pick
  at_ : Place UInt8
  throughLink : Bool

structure Restored where
  links : List (Place UInt8)
  made : List Made

section restoring

variable (sys : System) (place : Root → Place UInt8)

/-- filepath.Join(root, filepath.FromSlash(text)) -/
def destOf (pick : Pick) : Place UInt8 := sys.lexis.join (place pick.root) pick.rel

/-- MkdirAll takes a link to a folder for that folder, and its mode and streams
are set through it; a file or a link replaces a link at its own place. -/
def through (pick : Pick) (at_ link : Place UInt8) : Bool :=
  decide (Below link at_) || pick.isFolder && at_ == link

/-- A link whose target the reader does not give is not made. -/
def restorable (pick : Pick) : Bool := !pick.isLink || !pick.entry.linkTarget.isEmpty

def restoreTask (s : Restored) (task : Pick × Bool) : Restored :=
  let pick := task.1
  if task.2 && restorable pick then
    let at_ := destOf sys place pick
    let others := if pick.isFolder then s.links else s.links.filter (· ≠ at_)
    { made := s.made ++ [⟨pick, at_, s.links.any (through pick at_)⟩]
      links := if pick.isLink then at_ :: others else others }
  else s

def restore (tasks : List (Pick × Bool)) : Restored :=
  tasks.foldl (restoreTask sys place) ⟨[], []⟩

/-- Whatever succeeds, in whichever order the files come: everything made lies
below its root, and nothing was made through a link the restore had made. -/
def SafeRestore (picks : List Pick) : Prop :=
  ∀ run : List (Pick × Bool), Tasks picks (run.map Prod.fst) →
    ∀ made ∈ (restore sys place run).made,
      Below (place made.pick.root) made.at_ ∧ made.throughLink = false

/-- No pick's path leaves its root through "..", or ends on the root itself. -/
def StaysInside (picks : List Pick) : Prop :=
  ∀ pick ∈ picks, restorable pick = true → sys.lexis.stays 0 (sys.lexis.segments pick.rel) = true

/-- No link lies on the way to what is made after it. -/
def Aside (link pick : Pick) : Prop :=
  link.isLink = true → restorable link = true → restorable pick = true →
    through pick (destOf sys place pick) (destOf sys place link) = false

def LinksAside (picks : List Pick) : Prop :=
  ∀ tasks, Tasks picks tasks → tasks.Pairwise (Aside sys place)

end restoring

/-- An error comes before anything is written. -/
def restoredPicks (opts : Options) (vols : List ImageVolume)
    (base : Text → Option (Option ImageVolume × Text)) : List Pick :=
  (selected opts vols base).getD []

theorem mem_tasks (picks tasks : List Pick) (listed : Tasks picks tasks) (pick : Pick) :
    pick ∈ tasks ↔ pick ∈ picks := by
  obtain ⟨files, order, rfl⟩ := listed
  simp only [List.mem_append, order.mem_iff, List.mem_filter, List.mem_insertionSort,
    Pick.isLink, Pick.isFolder, Pick.isFile]
  cases pick.entry.isDir <;> cases pick.entry.symlink <;> simp

theorem some_tasks (picks : List Pick) : ∃ tasks, Tasks picks tasks :=
  ⟨_, _, List.Perm.refl _, rfl⟩

section restoring

variable {sys : System} {place : Root → Place UInt8}

/-- A run does what those of its tasks do that succeed. -/
theorem restore_done (run : List (Pick × Bool)) (s : Restored) :
    run.foldl (restoreTask sys place) s = ((run.filter Prod.snd).map Prod.fst).foldl
      (fun s pick => restoreTask sys place s (pick, true)) s := by
  induction run generalizing s with
  | nil => rfl
  | cons task rest ih =>
      obtain ⟨pick, succeeds⟩ := task
      cases succeeds with
      | false =>
          have still : restoreTask sys place s (pick, false) = s := by simp [restoreTask]
          simp only [List.foldl_cons, still, List.filter_cons, Bool.false_eq_true, if_false]
          exact ih s
      | true =>
          simp only [List.foldl_cons, List.filter_cons, if_true, List.map_cons]
          exact ih _

/-- Any part of the tasks may be what succeeds. -/
theorem run_of_sublist (tasks done : List Pick) (part : done.Sublist tasks) :
    ∃ run : List (Pick × Bool), run.map Prod.fst = tasks ∧ (run.filter Prod.snd).map Prod.fst = done := by
  induction part with
  | slnil => exact ⟨[], rfl, rfl⟩
  | cons pick _ ih =>
      obtain ⟨run, all, some_⟩ := ih
      exact ⟨(pick, false) :: run, by simp [all], by simpa using some_⟩
  | cons_cons pick _ ih =>
      obtain ⟨run, all, some_⟩ := ih
      exact ⟨(pick, true) :: run, by simp [all], by simpa using some_⟩

theorem safe_of_sublist (picks tasks done : List Pick) (safe : SafeRestore sys place picks)
    (listed : Tasks picks tasks) (part : done.Sublist tasks) :
    ∀ made ∈ (done.foldl (fun s pick => restoreTask sys place s (pick, true)) ⟨[], []⟩).made,
      Below (place made.pick.root) made.at_ ∧ made.throughLink = false := by
  obtain ⟨run, rfl, rfl⟩ := run_of_sublist tasks done part
  have kept := safe run listed
  rwa [restore, restore_done] at kept

theorem safe_below (picks : List Pick) (safe : SafeRestore sys place picks) (pick : Pick)
    (member : pick ∈ picks) (makes : restorable pick = true) :
    Below (place pick.root) (destOf sys place pick) := by
  obtain ⟨tasks, listed⟩ := some_tasks picks
  have there := (mem_tasks picks tasks listed pick).mpr member
  have kept := safe_of_sublist picks tasks [pick] safe listed (List.singleton_sublist.mpr there)
  have made := kept ⟨pick, destOf sys place pick, false⟩ (by simp [restoreTask, makes])
  exact made.1

theorem safe_links_aside (picks : List Pick) (safe : SafeRestore sys place picks) :
    LinksAside sys place picks := by
  intro tasks listed
  rw [List.pairwise_iff_forall_sublist]
  intro link pick pair isLink makesLink makes
  have kept := safe_of_sublist picks tasks [link, pick] safe listed pair
  have made := kept ⟨pick, destOf sys place pick,
    through pick (destOf sys place pick) (destOf sys place link)⟩ ?_
  · exact made.2
  · have notFolder : link.isFolder = false := by
      simp only [Pick.isLink, Bool.and_eq_true, Bool.not_eq_true'] at isLink
      exact isLink.1
    simp [restoreTask, makesLink, makes, isLink]

/-- Nothing leads through a link made so far, nor through one made later. -/
theorem restore_safe (run : List (Pick × Bool)) (s : Restored)
    (made : ∀ made ∈ s.made, Below (place made.pick.root) made.at_ ∧ made.throughLink = false)
    (links : ∀ link ∈ s.links, ∀ task ∈ run, restorable task.1 = true →
      through task.1 (destOf sys place task.1) link = false)
    (aside : (run.map Prod.fst).Pairwise (Aside sys place))
    (below : ∀ task ∈ run, restorable task.1 = true →
      Below (place task.1.root) (destOf sys place task.1)) :
    ∀ made ∈ (run.foldl (restoreTask sys place) s).made,
      Below (place made.pick.root) made.at_ ∧ made.throughLink = false := by
  induction run generalizing s with
  | nil => exact made
  | cons task rest ih =>
      rw [List.map_cons, List.pairwise_cons] at aside
      rw [List.foldl_cons]
      have laterLinks : ∀ link ∈ s.links, ∀ task ∈ rest, restorable task.1 = true →
          through task.1 (destOf sys place task.1) link = false :=
        fun link member task later => links link member task (List.mem_cons_of_mem _ later)
      have laterBelow : ∀ task ∈ rest, restorable task.1 = true →
          Below (place task.1.root) (destOf sys place task.1) :=
        fun task later => below task (List.mem_cons_of_mem _ later)
      unfold restoreTask
      simp only
      split
      · next both =>
          simp only [Bool.and_eq_true] at both
          have makes := both.2
          refine ih _ ?_ ?_ aside.2 laterBelow
          · intro m member
            rcases List.mem_append.mp member with old | new
            · exact made m old
            · rw [List.mem_singleton.mp new]
              refine ⟨below task (List.mem_cons_self ..) makes, ?_⟩
              rw [List.any_eq_false]
              intro link member
              simpa using links link member task (List.mem_cons_self ..) makes
          · intro link member later there makesLater
            have old : link ∈ s.links ∨ (task.1.isLink = true ∧ link = destOf sys place task.1) := by
              revert member
              cases task.1.isLink <;> cases task.1.isFolder <;> simp <;> tauto
            rcases old with old | ⟨isLink, rfl⟩
            · exact laterLinks link old later there makesLater
            · exact aside.1 later.1 (List.mem_map_of_mem there) isLink makes makesLater
      · exact ih s made laterLinks aside.2 laterBelow

end restoring

/-- A root folder holding the file "../../x", a link "a" and a file "a/x". -/
def hostileImage : Ext where
  blockSize := 1024
  filetype := true
  inode ino :=
    let file := ExtInode.mk ino .reg false none none
    if ino = 2 then
      some ⟨2, .dir, false, some (dirent 12 [dot, dot, slash, dot, dot, slash, 0x78] ++
        dirent 13 [0x61] ++ dirent 14 [0x61, slash, 0x78]), none⟩
    else if ino = 13 then some ⟨13, .symlink, false, none, some [slash, 0x65]⟩
    else some file

def everything : Options := ⟨.alternate .alternateAbs, [], none, none⟩

def hostileRun (entries : List Entry) : List (Pick × Bool) :=
  let sorted := (restoredPicks everything [⟨[0x56], entries⟩] fun _ => none).insertionSort recordOrder
  (sorted.filter Pick.isLink ++ sorted.filter Pick.isFolder ++ sorted.filter Pick.isFile).map
    fun pick => (pick, true)

end ProxmoxBackup.ImageRestore
