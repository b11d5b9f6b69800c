import ProxmoxBackup.SetCompare
import ProxmoxBackup.TransitionSystem

/-! applyRollbackMoves of gui/undelete_rollback.go as a run of operations: the
safety folders, the first rollback.json, then for each folder of the set its
missing files, the moves aside and the emptied folders, and the closing write.
Any operation may fail and the roll back may be cancelled between any two. The
record on disk and the one in memory are both part of the state. Of the record
only what Undo reads is kept: not the names, times and messages shown to the
user. Locking the safety folder down is part of making it. -/

namespace ProxmoxBackup.RollbackMoves

open FileTree SetCompare TransitionSystem

inductive Policy where
  | replace
  | missing
  | exact
  deriving DecidableEq

inductive Status where
  | moving
  | restoring
  | done
  | failed
  | undone
  deriving DecidableEq

inductive MoveKind where
  | replaced
  | removed
  deriving DecidableEq

structure RollbackMove where
  fromPath : Path
  toPath : Path
  kind : MoveKind
  deriving DecidableEq

structure Manifest where
  status : Status := .moving
  moved : List RollbackMove := []
  moveFailed : List Path := []
  restored : List Path := []
  createdDirs : List Path := []
  removedDirs : List Path := []
  deriving DecidableEq

def Manifest.movedFrom (m : Manifest) : List Path := m.moved.map (·.fromPath)

/-- A folder of the set: where it is, its safety folder `top` on the same
volume with `place` (the set's name and the time) and `sub` (the folder's own
name) below it, and its archive in the snapshot. -/
structure Folder where
  dir : Path
  archive : String
  top : Path
  place : Path
  sub : String
  snapshot : FileSystem
  walker : Walker

def Folder.root (f : Folder) : Path := f.top ++ f.place

def Folder.safety (f : Folder) : Path := f.root ++ [f.sub]

/-- What planRollback hands over. The safety folders are left out of every
backup, so no path of an archive or of a walk leads into one; each folder of
the set has an archive and a subfolder of the safety folder of its own. -/
structure Plan where
  before : FileSystem
  folders : List Folder
  policy : Policy
  present : folders ≠ []
  walked : ∀ f ∈ folders, before.lstat f.dir = some .dir
  volume : ∀ f ∈ folders, before.lstat f.top.dropLast = some .dir
  unseen : ∀ f ∈ folders, ∀ g ∈ folders, ∀ rel, g.top <+: f.dir ++ rel →
    f.walker.skips rel = true ∧ f.snapshot.lstat rel = none
  separate : ∀ f ∈ folders, ∀ g ∈ folders,
    f.archive = g.archive ∨ f.safety <+: g.safety → f = g

namespace Plan

/-- A path outside every safety folder. -/
def Live (plan : Plan) (p : Path) : Prop := ∀ f ∈ plan.folders, ¬ f.top <+: p

def compare (plan : Plan) (f : Folder) : CompareResult :=
  compareIndexes (snapshotIndex f.snapshot) (walkLiveFolder f.walker plan.before f.dir)

end Plan

inductive Op where
  | safety (f : Folder)
  | record
  | missing (f : Folder) (rel : Path)
  | move (f : Folder) (rel : Path) (kind : MoveKind)
  | removeDir (f : Folder) (rel : Path)
  | folderDone
  | close

/-- The length of the path as a string. -/
def pathLength : Path → Nat
  | [] => 0
  | name :: rest => name.utf8ByteSize + 1 + pathLength rest

theorem pathLength_append (p q : Path) : pathLength (p ++ q) = pathLength p + pathLength q := by
  induction p with
  | nil => simp [pathLength]
  | cons name rest ih =>
      simp only [List.cons_append, pathLength, ih]
      omega

def deepestFirst (dirs : List Path) : List Path :=
  dirs.insertionSort fun a b => pathLength b ≤ pathLength a

def folderOps (plan : Plan) (f : Folder) : List Op :=
  let c := plan.compare f
  c.missing.map (fun e => .missing f e.path) ++
    (if plan.policy = .missing then []
      else c.changed.map fun ch => .move f ch.snap.path .replaced) ++
    (if plan.policy = .exact then
        c.new.map (fun e => .move f e.path .removed) ++
          (deepestFirst (c.newDirs.map (·.path))).map (.removeDir f)
      else []) ++ [.folderDone]

def mainOps (plan : Plan) : List Op := plan.folders.flatMap (folderOps plan)

/-- How an operation fails: MkdirAll after some levels, or the call after it. -/
inductive Fault where
  | mkdir (made : Nat)
  | last
  deriving DecidableEq

structure Moves where
  fs : FileSystem
  memory : Manifest
  disk : Option Manifest
  restore : List (String × Path)
  cancelled : Bool
  aborted : Bool
  todo : List Op

def Moves.start (plan : Plan) : Moves where
  fs := plan.before
  memory := {}
  disk := none
  restore := []
  cancelled := false
  aborted := false
  todo := plan.folders.map .safety ++ .record :: (mainOps plan ++ [.close])

/-- What a failing MkdirAll leaves behind. -/
def mkdirPartly (fs : FileSystem) (p : Path) (made : Nat) : FileSystem :=
  (fs.mkdirAll (p.take made)).getD fs

/-- Up from the folder of the first `depth` names of `rel`, while it is not there. -/
def missingFrom (fs : FileSystem) (dir rel : Path) : Nat → List Path
  | 0 => []
  | depth + 1 =>
      let cur := dir ++ rel.take (depth + 1)
      if (fs.stat cur).isSome then [] else cur :: missingFrom fs dir rel depth

def missingParents (fs : FileSystem) (dir rel : Path) : List Path :=
  missingFrom fs dir rel (rel.length - 1)

/-- MkdirAll, and whether it succeeded. -/
def makeFolder (fault : Option Fault) (fs : FileSystem) (p : Path) : FileSystem × Bool :=
  match fault with
  | some (.mkdir made) => (mkdirPartly fs p made, false)
  | _ =>
      match fs.mkdirAll p with
      | some ready => (ready, true)
      | none => (fs, false)

def moveAside (fault : Option Fault) (fs : FileSystem) (fromPath toPath : Path) :
    FileSystem × Bool :=
  match makeFolder fault fs toPath.dropLast with
  | (fs, false) => (fs, false)
  | (ready, true) =>
      if fault.isSome then (ready, false)
      else match ready.rename fromPath toPath with
        | some moved => (moved, true)
        | none => (ready, false)

def abort (s : Moves) (fs : FileSystem) : Moves :=
  { s with fs := fs, aborted := true, todo := [] }

def makeSafety (fault : Option Fault) (s : Moves) (f : Folder) : Moves :=
  match fault with
  | some (.mkdir made) => abort s (mkdirPartly s.fs f.root made)
  | some .last => abort s ((s.fs.mkdirAll f.top).getD s.fs)
  | none =>
      match s.fs.mkdirAll f.root with
      | some fs => { s with fs := fs }
      | none => abort s s.fs

def listMissing (s : Moves) (f : Folder) (rel : Path) : Moves :=
  let parents := missingParents s.fs f.dir rel
  { s with
    restore := s.restore ++ [(f.archive, rel)]
    memory := { s.memory with createdDirs := s.memory.createdDirs ++ parents } }

def move (fault : Option Fault) (s : Moves) (f : Folder) (rel : Path) (kind : MoveKind) : Moves :=
  let fromPath := f.dir ++ rel
  let toPath := f.safety ++ rel
  match moveAside fault s.fs fromPath toPath with
  | (fs, true) =>
      { s with
        fs := fs
        memory := { s.memory with moved := s.memory.moved ++ [⟨fromPath, toPath, kind⟩] }
        restore := if kind = .replaced then s.restore ++ [(f.archive, rel)] else s.restore }
  | (fs, false) =>
      { s with
        fs := fs, memory := { s.memory with moveFailed := s.memory.moveFailed ++ [fromPath] } }

def removeDir (fault : Option Fault) (s : Moves) (full : Path) : Moves :=
  if fault.isSome then s
  else match s.fs.remove full with
    | some fs =>
        { s with
          fs := fs, memory := { s.memory with removedDirs := s.memory.removedDirs ++ [full] } }
    | none => s

/-- The last manifest applyRollbackMoves makes. -/
def closing (m : Manifest) : Manifest :=
  { m with createdDirs := m.createdDirs.eraseDups, status := .restoring }

def close (fault : Option Fault) (s : Moves) : Moves :=
  let memory := closing s.memory
  { s with memory := memory, disk := if fault.isSome then s.disk else some memory }

def runOp (fault : Option Fault) (s : Moves) : Op → Moves
  | .safety f => makeSafety fault s f
  | .record => if fault.isSome then abort s s.fs else { s with disk := some s.memory }
  | .missing f rel => listMissing s f rel
  | .move f rel kind => if s.cancelled then s else move fault s f rel kind
  | .removeDir f rel => removeDir fault s (f.dir ++ rel)
  | .folderDone => if s.cancelled then { s with todo := [.close] } else s
  | .close => close fault s

inductive MoveAction where
  | cancel
  | op (fault : Option Fault)

def movesStep (s : Moves) : MoveAction → Option Moves
  | .cancel => some { s with cancelled := true }
  | .op fault =>
      match s.todo with
      | [] => none
      | op :: rest => some (runOp fault { s with todo := rest } op)

def movesSystem (plan : Plan) : System Moves MoveAction where
  start := (· = Moves.start plan)
  step s action after := movesStep s action = some after

/-! What the operations of one plan are about. -/

theorem live_above (plan : Plan) (p q : Path) (live : plan.Live p) (above : q <+: p) :
    plan.Live q :=
  fun f folder within => live f folder (within.trans above)

def Leaf (fs : FileSystem) (p : Path) : Prop :=
  ∃ node, node ≠ .dir ∧ fs.lstat p = some node

theorem Leaf.not_none {fs : FileSystem} {p : Path} (leaf : Leaf fs p) : fs.lstat p ≠ none := by
  obtain ⟨node, _, found⟩ := leaf
  simp [found]

theorem Leaf.not_dir {fs : FileSystem} {p : Path} (leaf : Leaf fs p) :
    fs.lstat p ≠ some .dir := by
  obtain ⟨node, notDir, found⟩ := leaf
  simpa [found] using notDir

theorem Leaf.named {fs : FileSystem} {p : Path} (leaf : Leaf fs p) : p ≠ [] := by
  rintro rfl
  exact leaf.not_dir fs.lstat_root

theorem Leaf.same {fs after : FileSystem} {p : Path} (leaf : Leaf fs p)
    (same : after.lstat p = fs.lstat p) : Leaf after p := by
  obtain ⟨node, notDir, found⟩ := leaf
  exact ⟨node, notDir, same.trans found⟩

def Work (plan : Plan) : Op → Prop
  | .missing f rel =>
      f ∈ plan.folders ∧ plan.Live (f.dir ++ rel) ∧ Leaf f.snapshot rel
  | .move f rel kind =>
      f ∈ plan.folders ∧ plan.Live (f.dir ++ rel) ∧ Leaf plan.before (f.dir ++ rel) ∧
        (kind = .replaced → Leaf f.snapshot rel)
  | .removeDir f rel =>
      f ∈ plan.folders ∧ plan.Live (f.dir ++ rel) ∧ plan.before.lstat (f.dir ++ rel) = some .dir
  | .folderDone => True
  | _ => False

theorem live_snapshot (plan : Plan) (f : Folder) (folder : f ∈ plan.folders) (rel : Path)
    (present : f.snapshot.lstat rel ≠ none) : plan.Live (f.dir ++ rel) :=
  fun g other within => present (plan.unseen f folder g other rel within).2

theorem live_walked (plan : Plan) (f : Folder) (folder : f ∈ plan.folders) (rel : Path)
    (reached : f.walker.skips rel = false) : plan.Live (f.dir ++ rel) := by
  intro g other within
  have skipped := (plan.unseen f folder g other rel within).1
  rw [reached] at skipped
  cases skipped

theorem snapshot_leaf (f : Folder) (e : IndexEntry) (listed : e ∈ snapshotIndex f.snapshot)
    (file : e.isDir = false) : Leaf f.snapshot e.path := by
  obtain ⟨_, node, found, kind⟩ := mem_snapshotIndex f.snapshot e listed
  refine ⟨node, ?_, found⟩
  intro folder
  rw [kind.mpr folder] at file
  cases file

theorem walked_leaf (plan : Plan) (f : Folder) (folder : f ∈ plan.folders) (e : IndexEntry)
    (listed : e ∈ (walkLiveFolder f.walker plan.before f.dir).entries) (file : e.isDir = false) :
    plan.Live (f.dir ++ e.path) ∧ Leaf plan.before (f.dir ++ e.path) := by
  obtain ⟨_, reached, node, found, kind⟩ := mem_walkLiveFolder _ _ _ e listed
  refine ⟨live_walked plan f folder e.path reached, node, ?_, found⟩
  intro dir
  rw [kind.mpr dir] at file
  cases file

theorem folderOps_work (plan : Plan) (f : Folder) (folder : f ∈ plan.folders) (op : Op)
    (member : op ∈ folderOps plan f) : Work plan op := by
  have classified : Classified _ _ (plan.compare f) := compareIndexes_classified _ _
  unfold folderOps at member
  simp only [List.mem_append] at member
  rcases member with ((missing | changed) | exact_) | done
  · obtain ⟨e, listed, rfl⟩ := List.mem_map.mp missing
    obtain ⟨known, file⟩ := classified.missing e listed
    obtain ⟨node, notDir, found⟩ := snapshot_leaf f e known file
    exact ⟨folder, live_snapshot plan f folder e.path (by simp [found]), node, notDir, found⟩
  · split at changed
    · cases changed
    · obtain ⟨c, listed, rfl⟩ := List.mem_map.mp changed
      obtain ⟨known, file, walked, liveFile, same⟩ := classified.changed c listed
      obtain ⟨live, leaf⟩ := walked_leaf plan f folder c.live walked liveFile
      rw [← same] at live leaf
      exact ⟨folder, live, leaf, fun _ => snapshot_leaf f c.snap known file⟩
  · split at exact_
    · rcases List.mem_append.mp exact_ with new | folders
      · obtain ⟨e, listed, rfl⟩ := List.mem_map.mp new
        obtain ⟨walked, file⟩ := classified.new e listed
        obtain ⟨live, leaf⟩ := walked_leaf plan f folder e walked file
        refine ⟨folder, live, leaf, ?_⟩
        intro kind
        cases kind
      · obtain ⟨rel, listed, rfl⟩ := List.mem_map.mp folders
        obtain ⟨e, new, rfl⟩ := List.mem_map.mp ((List.mem_insertionSort _).mp listed)
        obtain ⟨walked, dir⟩ := classified.newDirs e new
        obtain ⟨_, reached, node, found, kind⟩ := mem_walkLiveFolder _ _ _ e walked
        rw [kind.mp dir] at found
        exact ⟨folder, live_walked plan f folder e.path reached, found⟩
    · cases exact_
  · rw [List.mem_singleton.mp done]
    trivial

theorem mainOps_work (plan : Plan) (op : Op) (member : op ∈ mainOps plan) : Work plan op := by
  obtain ⟨f, folder, listed⟩ := List.mem_flatMap.mp member
  exact folderOps_work plan f folder op listed

/-! What is true at every point of the run: what the moves have done to the
file system, and how far the record on disk has come. -/

/-- A leaf of the live tree and the place it was moved to. -/
structure Placed (plan : Plan) (mv : RollbackMove) : Prop where
  place : ∃ f ∈ plan.folders, ∃ rel, mv.fromPath = f.dir ++ rel ∧ mv.toPath = f.safety ++ rel
  live : plan.Live mv.fromPath
  leaf : Leaf plan.before mv.fromPath

structure Aside (plan : Plan) (fs : FileSystem) (m : Manifest) : Prop where
  same : ∀ p, plan.Live p → p ∉ m.movedFrom → p ∉ m.removedDirs →
    fs.lstat p = plan.before.lstat p
  placed : ∀ mv ∈ m.moved, Placed plan mv
  kept : ∀ mv ∈ m.moved, fs.lstat mv.toPath = plan.before.lstat mv.fromPath
  gone : ∀ p ∈ m.movedFrom, fs.lstat p = none
  once : ∀ a ∈ m.moved, ∀ b ∈ m.moved, a.fromPath = b.fromPath → a = b
  removed : ∀ d ∈ m.removedDirs,
    plan.Live d ∧ plan.before.lstat d = some .dir ∧ fs.lstat d = none
  created : ∀ d ∈ m.createdDirs, plan.Live d
  restored : m.restored = []

inductive Progress (plan : Plan) (s : Moves) : Prop where
  | setup (left : List Folder)
      (todo : s.todo = left.map .safety ++ .record :: (mainOps plan ++ [.close]))
      (memory : s.memory = {}) (disk : s.disk = none) (restore : s.restore = [])
      (running : s.aborted = false)
      (volumes : ∀ f ∈ plan.folders, s.fs.lstat f.top.dropLast = some .dir)
      (made : ∀ f ∈ plan.folders, f ∈ left ∨ s.fs.lstat f.top = some .dir)
      (known : ∀ f ∈ left, f ∈ plan.folders)
  | working (left : List Op) (todo : s.todo = left ++ [.close])
      (work : ∀ op ∈ left, Work plan op) (disk : s.disk = some {}) (running : s.aborted = false)
      (status : s.memory.status = .moving)
      (made : ∀ f ∈ plan.folders, s.fs.lstat f.top = some .dir)
  | returned (todo : s.todo = []) (running : s.aborted = false)
      (disk : s.disk = some {} ∨ s.disk = some s.memory) (status : s.memory.status = .restoring)
      (made : ∀ f ∈ plan.folders, s.fs.lstat f.top = some .dir)
  | aborted (todo : s.todo = []) (stopped : s.aborted = true)
      (memory : s.memory = {}) (disk : s.disk = none)

theorem top_named (plan : Plan) (f : Folder) (folder : f ∈ plan.folders) : f.top ≠ [] := by
  intro root
  obtain ⟨g, other⟩ := List.exists_mem_of_ne_nil _ plan.present
  have absent := (plan.unseen g other f folder [] (by simp [root])).2
  simp at absent

theorem safety_within (f : Folder) (rel : Path) : f.top <+: f.safety ++ rel := by
  simp [Folder.safety, Folder.root, List.append_assoc]

theorem safety_not_live (plan : Plan) (f : Folder) (folder : f ∈ plan.folders) (rel : Path) :
    ¬ plan.Live (f.safety ++ rel) :=
  fun live => live f folder (safety_within f rel)

theorem Placed.kept_not_live {plan : Plan} {mv : RollbackMove} (placed : Placed plan mv) :
    ¬ plan.Live mv.toPath := by
  obtain ⟨f, folder, rel, _, target⟩ := placed.place
  rw [target]
  exact safety_not_live plan f folder rel

/-- Two moves to one place are moves of one file. -/
theorem Placed.apart {plan : Plan} {a b : RollbackMove} (first : Placed plan a)
    (second : Placed plan b) (same : a.toPath = b.toPath) : a.fromPath = b.fromPath := by
  obtain ⟨f, folder, rel, source, target⟩ := first.place
  obtain ⟨g, other, rel', source', target'⟩ := second.place
  rw [target, target'] at same
  have first : f.safety <+: f.safety ++ rel := List.prefix_append _ _
  have second : g.safety <+: f.safety ++ rel := by
    rw [same]
    exact List.prefix_append _ _
  have comparable := List.prefix_or_prefix_of_prefix first second
  have one : f = g := by
    rcases comparable with within | within
    · exact plan.separate f folder g other (Or.inr within)
    · exact (plan.separate g other f folder (Or.inr within)).symm
  subst one
  rw [source, source', List.append_cancel_left same]

theorem Placed.named {plan : Plan} {mv : RollbackMove} (placed : Placed plan mv) :
    mv.fromPath ≠ [] := by
  obtain ⟨node, notDir, found⟩ := placed.leaf
  intro root
  rw [root, Tree.lstat_root, Option.some.injEq] at found
  exact notDir found.symm

theorem Placed.closed {plan : Plan} {mv : RollbackMove} (placed : Placed plan mv) :
    plan.before.lstat mv.fromPath ≠ some .dir := by
  obtain ⟨node, notDir, found⟩ := placed.leaf
  simpa [found] using notDir

/-- Of two moved files neither is above the other. -/
theorem Placed.unrelated {plan : Plan} {a b : RollbackMove} (first : Placed plan a)
    (second : Placed plan b) : ¬ Tree.Below a.fromPath b.fromPath := by
  intro below
  obtain ⟨node, _, found⟩ := second.leaf
  rw [plan.before.lstat_below _ _ below first.closed] at found
  cases found

/-- A moved file is not above a safety folder, whose volume is a folder. -/
theorem Placed.not_above {plan : Plan} {mv : RollbackMove} (placed : Placed plan mv) (f : Folder)
    (folder : f ∈ plan.folders) : ¬ mv.fromPath <+: f.top := by
  rintro ⟨rest, joined⟩
  cases rest using List.reverseRecOn with
  | nil =>
      rw [List.append_nil] at joined
      exact placed.live f folder (joined ▸ List.prefix_refl _)
  | append_singleton rest last =>
      have volume := plan.volume f folder
      rw [← joined, ← List.append_assoc, List.dropLast_concat] at volume
      by_cases here : rest = []
      · rw [here, List.append_nil] at volume
        exact placed.closed volume
      · have below : Tree.Below mv.fromPath (mv.fromPath ++ rest) :=
          ⟨by simp, by simpa using here⟩
        rw [plan.before.lstat_below _ _ below placed.closed] at volume
        cases volume

/-- Below a standing safety folder nothing live is made. -/
theorem grows_live (plan : Plan) (fs after : FileSystem) (p : Path) (f : Folder)
    (folder : f ∈ plan.folders) (within : f.top <+: p)
    (volume : fs.lstat f.top.dropLast = some .dir) (grown : fs.Grows after p)
    (q : Path) (live : plan.Live q) : after.lstat q = fs.lstat q := by
  rcases grown q with same | ⟨absent, _, above⟩
  · exact same
  · exfalso
    have shorter : q <+: f.top := by
      rcases List.prefix_or_prefix_of_prefix above within with up | down
      · exact up
      · exact absurd down (live f folder)
    have different : q ≠ f.top := by
      rintro rfl
      exact live f folder (List.prefix_refl _)
    have parent : q <+: f.top.dropLast := by
      obtain ⟨rest, joined⟩ := shorter
      rw [← joined]
      have nonempty : rest ≠ [] := by
        rintro rfl
        exact different (by simpa using joined)
      rw [List.dropLast_append_of_ne_nil nonempty]
      simp
    have standing : fs.lstat q = some .dir := by
      by_cases here : q = f.top.dropLast
      · rw [here]
        exact volume
      · exact fs.lstat_above q f.top.dropLast ⟨parent, here⟩ (by simp [volume])
    rw [absent] at standing
    cases standing

theorem volume_of_top (plan : Plan) (f : Folder) (folder : f ∈ plan.folders) (fs : FileSystem)
    (standing : fs.lstat f.top = some .dir) : fs.lstat f.top.dropLast = some .dir := by
  have named := top_named plan f folder
  have joined : f.top.dropLast ++ [f.top.getLast named] = f.top := List.dropLast_append_getLast named
  exact fs.lstat_parent f.top.dropLast (f.top.getLast named) (by simp [joined, standing])

/-- The folder MkdirAll is asked for, or the one above it where it stops. -/
def folderMade (fault : Option Fault) (p : Path) : Path :=
  match fault with
  | some (.mkdir made) => p.take made
  | _ => p

theorem folderMade_above (fault : Option Fault) (p : Path) : folderMade fault p <+: p := by
  unfold folderMade
  split
  · exact List.take_prefix _ _
  · exact List.prefix_refl _

theorem mkdirPartly_cases (fs : FileSystem) (p : Path) (made : Nat) :
    mkdirPartly fs p made = fs ∨ fs.mkdirAll (p.take made) = some (mkdirPartly fs p made) := by
  unfold mkdirPartly
  cases fs.mkdirAll (p.take made) with
  | none => exact Or.inl rfl
  | some after => exact Or.inr rfl

theorem makeFolder_cases (fault : Option Fault) (fs after : FileSystem) (p : Path) (made : Bool)
    (done : makeFolder fault fs p = (after, made)) :
    after = fs ∧ made = false ∨ fs.mkdirAll (folderMade fault p) = some after := by
  unfold makeFolder at done
  unfold folderMade
  split at done
  · cases done
    exact (mkdirPartly_cases fs p _).imp_left fun same => ⟨same, rfl⟩
  · split at done
    · next ready whole =>
        cases done
        exact Or.inr whole
    · cases done
      exact Or.inl ⟨rfl, rfl⟩

theorem mkdirPartly_grows (fs : FileSystem) (p : Path) (made : Nat) :
    fs.Grows (mkdirPartly fs p made) p := by
  rcases mkdirPartly_cases fs p made with same | whole
  · rw [same]
    exact fs.grows_refl p
  · exact fs.grows_mkdirAll _ p _ whole (List.take_prefix _ _)

theorem makeFolder_grows (fault : Option Fault) (fs after : FileSystem) (p : Path) (made : Bool)
    (done : makeFolder fault fs p = (after, made)) : fs.Grows after p := by
  rcases makeFolder_cases fault fs after p made done with ⟨same, _⟩ | whole
  · rw [same]
    exact fs.grows_refl p
  · exact fs.grows_mkdirAll after p _ whole (folderMade_above fault p)

theorem moveAside_cases (fault : Option Fault) (fs after : FileSystem) (source target : Path)
    (moved : Bool) (done : moveAside fault fs source target = (after, moved)) :
    ∃ ready, fs.Grows ready target ∧
      (moved = false ∧ after = ready ∨ moved = true ∧ ready.rename source target = some after) := by
  unfold moveAside at done
  split at done
  · next ready made =>
      cases done
      exact ⟨_, (makeFolder_grows _ _ _ _ _ made).further (List.dropLast_prefix _), Or.inl ⟨rfl, rfl⟩⟩
  · next ready made =>
      refine ⟨ready, (makeFolder_grows _ _ _ _ _ made).further (List.dropLast_prefix _), ?_⟩
      split at done
      · cases done
        exact Or.inl ⟨rfl, rfl⟩
      · split at done
        · next renamed =>
            cases done
            exact Or.inr ⟨rfl, renamed⟩
        · cases done
          exact Or.inl ⟨rfl, rfl⟩

theorem aside_start (plan : Plan) : Aside plan plan.before {} :=
  ⟨fun _ _ _ _ => rfl, by simp, by simp, by simp [Manifest.movedFrom], by simp, by simp, by simp, rfl⟩

theorem Aside.live_of_gone {plan : Plan} {fs : FileSystem} {m : Manifest}
    (held : Aside plan fs m) {p : Path} (moved : p ∈ m.movedFrom) : plan.Live p := by
  obtain ⟨mv, member, rfl⟩ := List.mem_map.mp moved
  exact (held.placed mv member).live

theorem aside_grows (plan : Plan) (fs after : FileSystem) (m : Manifest) (p : Path) (f : Folder)
    (held : Aside plan fs m) (folder : f ∈ plan.folders) (within : f.top <+: p)
    (volume : fs.lstat f.top.dropLast = some .dir) (grown : fs.Grows after p) :
    Aside plan after m := by
  have live := grows_live plan fs after p f folder within volume grown
  refine ⟨?_, held.placed, ?_, ?_, held.once, ?_, held.created, held.restored⟩
  · intro q alive unmoved unremoved
    rw [live q alive]
    exact held.same q alive unmoved unremoved
  · intro mv member
    obtain ⟨node, _, found⟩ := (held.placed mv member).leaf
    rw [found]
    exact grown.present ((held.kept mv member).trans found)
  · intro q moved
    rw [live q (held.live_of_gone moved)]
    exact held.gone q moved
  · intro d removed
    obtain ⟨alive, folderBefore, absent⟩ := held.removed d removed
    exact ⟨alive, folderBefore, (live d alive).trans absent⟩

theorem aside_moved (plan : Plan) (ready after : FileSystem) (m : Manifest) (f : Folder)
    (rel : Path) (kind : MoveKind) (held : Aside plan ready m) (folder : f ∈ plan.folders)
    (live : plan.Live (f.dir ++ rel)) (leaf : Leaf plan.before (f.dir ++ rel))
    (renamed : ready.rename (f.dir ++ rel) (f.safety ++ rel) = some after) :
    Aside plan after
      { m with moved := m.moved ++ [⟨f.dir ++ rel, f.safety ++ rel, kind⟩] } := by
  obtain ⟨node, notDir, found, result⟩ := ready.lstat_rename after _ _ renamed
  have dead := safety_not_live plan f folder rel
  have apart : f.dir ++ rel ≠ f.safety ++ rel := by
    intro same
    rw [same] at live
    exact dead live
  have placed : Placed plan ⟨f.dir ++ rel, f.safety ++ rel, kind⟩ :=
    ⟨⟨f, folder, rel, rfl, rfl⟩, live, leaf⟩
  have unmoved : f.dir ++ rel ∉ m.movedFrom := by
    intro moved
    rw [held.gone _ moved] at found
    cases found
  have unremoved : f.dir ++ rel ∉ m.removedDirs := by
    intro removed
    rw [(held.removed _ removed).2.2] at found
    cases found
  refine ⟨?_, ?_, ?_, ?_, ?_, ?_, held.created, held.restored⟩
  · intro p alive outside kept
    obtain ⟨old, other⟩ : p ∉ m.movedFrom ∧ p ≠ f.dir ++ rel := by
      simpa [Manifest.movedFrom, not_or] using outside
    have elsewhere : p ≠ f.safety ++ rel := fun same => dead (same ▸ alive)
    rw [result, if_neg elsewhere, if_neg other]
    exact held.same p alive old kept
  · intro mv member
    rcases List.mem_append.mp member with old | new
    · exact held.placed mv old
    · rw [List.mem_singleton.mp new]
      exact placed
  · intro mv member
    rcases List.mem_append.mp member with old | new
    · have elsewhere : mv.toPath ≠ f.safety ++ rel := by
        intro same
        have source : mv.fromPath = f.dir ++ rel := (held.placed mv old).apart placed same
        exact unmoved (source ▸ List.mem_map.mpr ⟨mv, old, rfl⟩)
      have dropped : mv.toPath ≠ f.dir ++ rel := by
        intro same
        exact (held.placed mv old).kept_not_live (same ▸ live)
      rw [result, if_neg elsewhere, if_neg dropped]
      exact held.kept mv old
    · rw [List.mem_singleton.mp new]
      show after.lstat (f.safety ++ rel) = plan.before.lstat (f.dir ++ rel)
      rw [result, if_pos rfl, ← held.same _ live unmoved unremoved, found]
  · intro p moved
    have alive : plan.Live p ∧ (p = f.dir ++ rel ∨ ready.lstat p = none) := by
      rcases (by simpa [Manifest.movedFrom] using moved :
          (∃ mv ∈ m.moved, mv.fromPath = p) ∨ p = f.dir ++ rel) with ⟨mv, old, rfl⟩ | rfl
      · exact ⟨(held.placed mv old).live, Or.inr (held.gone _ (List.mem_map.mpr ⟨mv, old, rfl⟩))⟩
      · exact ⟨live, Or.inl rfl⟩
    have elsewhere : p ≠ f.safety ++ rel := fun same => dead (same ▸ alive.1)
    rw [result, if_neg elsewhere]
    rcases alive.2 with rfl | absent
    · rw [if_pos rfl]
    · rw [absent, ite_self]
  · intro a first b second same
    rcases List.mem_append.mp first with oldA | newA <;> rcases List.mem_append.mp second with oldB | newB
    · exact held.once a oldA b oldB same
    · rw [List.mem_singleton.mp newB] at same
      exact absurd (List.mem_map.mpr ⟨a, oldA, same⟩) unmoved
    · rw [List.mem_singleton.mp newA] at same
      exact absurd (List.mem_map.mpr ⟨b, oldB, same.symm⟩) unmoved
    · rw [List.mem_singleton.mp newA, List.mem_singleton.mp newB]
  · intro d removed
    obtain ⟨alive, folderBefore, absent⟩ := held.removed d removed
    refine ⟨alive, folderBefore, ?_⟩
    have elsewhere : d ≠ f.safety ++ rel := fun same => dead (same ▸ alive)
    rw [result, if_neg elsewhere, absent, ite_self]

theorem aside_removed (plan : Plan) (fs after : FileSystem) (m : Manifest) (full : Path)
    (held : Aside plan fs m) (live : plan.Live full)
    (folder : plan.before.lstat full = some .dir) (removed : fs.remove full = some after) :
    Aside plan after { m with removedDirs := m.removedDirs ++ [full] } := by
  have result := fs.lstat_remove after full removed
  refine ⟨?_, held.placed, ?_, ?_, held.once, ?_, held.created, held.restored⟩
  · intro p alive unmoved kept
    obtain ⟨old, other⟩ : p ∉ m.removedDirs ∧ p ≠ full := by simpa [not_or] using kept
    rw [result, if_neg other]
    exact held.same p alive unmoved old
  · intro mv member
    have elsewhere : mv.toPath ≠ full := fun same => (held.placed mv member).kept_not_live (same ▸ live)
    rw [result, if_neg elsewhere]
    exact held.kept mv member
  · intro p moved
    rw [result, held.gone p moved, ite_self]
  · intro d member
    rcases List.mem_append.mp member with old | new
    · obtain ⟨alive, folderBefore, absent⟩ := held.removed d old
      exact ⟨alive, folderBefore, by rw [result, absent, ite_self]⟩
    · rw [List.mem_singleton.mp new]
      exact ⟨live, folder, by rw [result, if_pos rfl]⟩

theorem mem_missingFrom (fs : FileSystem) (dir rel d : Path) (depth : Nat)
    (member : d ∈ missingFrom fs dir rel depth) :
    ∃ k, 0 < k ∧ k ≤ depth ∧ d = dir ++ rel.take k ∧ fs.stat d = none := by
  induction depth with
  | zero => simp [missingFrom] at member
  | succ depth ih =>
      rw [missingFrom] at member
      split at member
      · cases member
      · next absent =>
          rcases List.mem_cons.mp member with rfl | higher
          · exact ⟨depth + 1, by omega, le_refl _, rfl, by simpa using absent⟩
          · obtain ⟨k, positive, bound, shape, missing⟩ := ih higher
            exact ⟨k, positive, by omega, shape, missing⟩

theorem missingFrom_complete (fs : FileSystem) (dir rel : Path) (depth k : Nat)
    (short : depth ≤ rel.length) (positive : 0 < k) (bound : k ≤ depth)
    (absent : fs.lstat (dir ++ rel.take k) = none) :
    dir ++ rel.take k ∈ missingFrom fs dir rel depth := by
  induction depth with
  | zero => omega
  | succ depth ih =>
      have above : dir ++ rel.take k <+: dir ++ rel.take (depth + 1) := by
        rw [List.prefix_append_right_inj, List.prefix_take_iff]
        refine ⟨List.take_prefix _ _, ?_⟩
        rw [List.length_take]
        omega
      have missing : fs.stat (dir ++ rel.take (depth + 1)) = none := by
        apply fs.lstat_of_stat
        by_cases here : dir ++ rel.take k = dir ++ rel.take (depth + 1)
        · rw [← here, absent]
        · exact fs.lstat_below _ _ ⟨above, here⟩ (by simp [absent])
      rw [missingFrom, if_neg (by simp [missing])]
      by_cases here : k = depth + 1
      · rw [here]
        exact List.mem_cons_self
      · exact List.mem_cons_of_mem _ (ih (by omega) (by omega))

theorem aside_listed (plan : Plan) (s : Moves) (f : Folder) (rel : Path)
    (held : Aside plan s.fs s.memory) (live : plan.Live (f.dir ++ rel)) :
    Aside plan (listMissing s f rel).fs (listMissing s f rel).memory := by
  refine { held with created := ?_ }
  intro d member
  rcases List.mem_append.mp member with old | new
  · exact held.created d old
  · obtain ⟨k, _, _, rfl, _⟩ := mem_missingFrom _ _ _ _ _ new
    exact live_above plan _ _ live (by
      rw [List.prefix_append_right_inj]
      exact List.take_prefix _ _)

theorem aside_closing (plan : Plan) (fs : FileSystem) (m : Manifest) (held : Aside plan fs m) :
    Aside plan fs (closing m) :=
  { held with created := fun d member => held.created d (List.mem_eraseDups.mp member) }

/-- A move either leaves a copy in the safety folder and a line in the record,
or makes at most folders on the way there. -/
theorem move_cases (fault : Option Fault) (s : Moves) (f : Folder) (rel : Path) (kind : MoveKind) :
    (∃ ready after, s.fs.Grows ready (f.safety ++ rel) ∧
        ready.rename (f.dir ++ rel) (f.safety ++ rel) = some after ∧
        move fault s f rel kind =
          { s with
            fs := after
            memory := { s.memory with
              moved := s.memory.moved ++ [⟨f.dir ++ rel, f.safety ++ rel, kind⟩] }
            restore := if kind = .replaced then s.restore ++ [(f.archive, rel)] else s.restore }) ∨
      ∃ after, s.fs.Grows after (f.safety ++ rel) ∧
        move fault s f rel kind =
          { s with
            fs := after
            memory := { s.memory with moveFailed := s.memory.moveFailed ++ [f.dir ++ rel] } } := by
  cases outcome : moveAside fault s.fs (f.dir ++ rel) (f.safety ++ rel) with
  | mk after moved =>
      obtain ⟨ready, grown, ⟨rfl, rfl⟩ | ⟨rfl, renamed⟩⟩ := moveAside_cases _ _ _ _ _ _ outcome
      · exact Or.inr ⟨after, grown, by simp only [move, outcome]⟩
      · exact Or.inl ⟨ready, after, grown, renamed, by simp only [move, outcome]⟩

theorem removeDir_cases (fault : Option Fault) (s : Moves) (full : Path) :
    removeDir fault s full = s ∨
      ∃ after, s.fs.remove full = some after ∧
        removeDir fault s full =
          { s with
            fs := after
            memory := { s.memory with removedDirs := s.memory.removedDirs ++ [full] } } := by
  unfold removeDir
  split
  · exact Or.inl rfl
  · split
    · next after removed => exact Or.inr ⟨after, removed, rfl⟩
    · exact Or.inl rfl

theorem aside_move (plan : Plan) (fault : Option Fault) (s : Moves) (f : Folder) (rel : Path)
    (kind : MoveKind) (held : Aside plan s.fs s.memory) (folder : f ∈ plan.folders)
    (live : plan.Live (f.dir ++ rel)) (leaf : Leaf plan.before (f.dir ++ rel))
    (standing : s.fs.lstat f.top = some .dir) :
    Aside plan (move fault s f rel kind).fs (move fault s f rel kind).memory := by
  have volume := volume_of_top plan f folder s.fs standing
  have within := safety_within f rel
  rcases move_cases fault s f rel kind with ⟨ready, after, grown, renamed, done⟩ | ⟨after, grown, done⟩
  · rw [done]
    exact aside_moved plan ready after s.memory f rel kind
      (aside_grows plan _ _ _ _ f held folder within volume grown) folder live leaf renamed
  · rw [done]
    exact { aside_grows plan _ _ _ _ f held folder within volume grown with }

theorem aside_removeDir (plan : Plan) (fault : Option Fault) (s : Moves) (full : Path)
    (held : Aside plan s.fs s.memory) (live : plan.Live full)
    (folder : plan.before.lstat full = some .dir) :
    Aside plan (removeDir fault s full).fs (removeDir fault s full).memory := by
  rcases removeDir_cases fault s full with same | ⟨after, removed, done⟩
  · rw [same]
    exact held
  · rw [done]
    exact aside_removed plan s.fs after s.memory full held live folder removed

/-- A folder that stands stays through a move aside: only leaves are moved. -/
theorem rename_standing (fs after : FileSystem) (source target d : Path)
    (renamed : fs.rename source target = some after) (standing : fs.lstat d = some .dir) :
    after.lstat d = some .dir := by
  obtain ⟨node, notDir, found, result⟩ := fs.lstat_rename after _ _ renamed
  have free := (fs.rename_room after _ _ renamed).2
  rw [result]
  split
  · next same => exact absurd (same ▸ standing) free
  · split
    · next same =>
        rw [← same, standing, Option.some.injEq] at found
        exact absurd found.symm notDir
    · exact standing

def Sound (plan : Plan) (s : Moves) : Prop :=
  Aside plan s.fs s.memory ∧ Progress plan s

theorem sound_safety (plan : Plan) (fault : Option Fault) (s : Moves) (f : Folder)
    (left : List Folder) (held : Aside plan s.fs s.memory)
    (todo : s.todo = left.map .safety ++ .record :: (mainOps plan ++ [.close]))
    (memory : s.memory = {}) (disk : s.disk = none) (restore : s.restore = [])
    (running : s.aborted = false)
    (volumes : ∀ g ∈ plan.folders, s.fs.lstat g.top.dropLast = some .dir)
    (made : ∀ g ∈ plan.folders, g ∈ f :: left ∨ s.fs.lstat g.top = some .dir)
    (known : ∀ g ∈ f :: left, g ∈ plan.folders) :
    Sound plan (makeSafety fault s f) := by
  have folder := known f List.mem_cons_self
  have within : f.top <+: f.root := by simp [Folder.root]
  have stopped : ∀ after : FileSystem, s.fs.Grows after f.root → Sound plan (abort s after) :=
    fun after grown =>
      ⟨aside_grows plan _ _ _ _ f held folder within (volumes f folder) grown,
        .aborted rfl rfl memory disk⟩
  unfold makeSafety
  split
  · exact stopped _ (mkdirPartly_grows _ _ _)
  · cases top : s.fs.mkdirAll f.top with
    | none => exact stopped _ (s.fs.grows_refl _)
    | some after => exact stopped _ (s.fs.grows_mkdirAll after f.root f.top top within)
  · split
    · next fs whole =>
        have grown := s.fs.grows_mkdirAll fs f.root f.root whole (List.prefix_refl _)
        refine ⟨aside_grows plan _ _ _ _ f held folder within (volumes f folder) grown, ?_⟩
        refine .setup left todo memory disk restore running
          (fun g other => grown.present (volumes g other)) ?_
          (fun g member => known g (List.mem_cons_of_mem _ member))
        intro g other
        rcases made g other with waiting | standing
        · rcases List.mem_cons.mp waiting with rfl | later
          · exact Or.inr (s.fs.mkdirAll_dir fs g.root g.top whole within)
          · exact Or.inl later
        · exact Or.inr (grown.present standing)
    · exact stopped _ (s.fs.grows_refl _)

theorem sound_work (plan : Plan) (fault : Option Fault) (s : Moves) (op : Op) (left : List Op)
    (held : Aside plan s.fs s.memory) (todo : s.todo = left ++ [.close])
    (work : ∀ op ∈ left, Work plan op) (now : Work plan op) (disk : s.disk = some {})
    (running : s.aborted = false) (status : s.memory.status = .moving)
    (made : ∀ f ∈ plan.folders, s.fs.lstat f.top = some .dir) :
    Sound plan (runOp fault s op) := by
  cases op with
  | safety f => cases now
  | record => cases now
  | close => cases now
  | missing f rel =>
      exact ⟨aside_listed plan s f rel held now.2.1, .working left todo work disk running status made⟩
  | move f rel kind =>
      obtain ⟨folder, live, leaf, _⟩ := now
      unfold runOp
      dsimp only
      split
      · exact ⟨held, .working left todo work disk running status made⟩
      · refine ⟨aside_move plan fault s f rel kind held folder live leaf (made f folder), ?_⟩
        rcases move_cases fault s f rel kind with
          ⟨ready, after, grown, renamed, done⟩ | ⟨after, grown, done⟩
        · rw [done]
          exact .working left todo work disk running status fun g other =>
            rename_standing ready after _ _ _ renamed (grown.present (made g other))
        · rw [done]
          exact .working left todo work disk running status fun g other =>
            grown.present (made g other)
  | removeDir f rel =>
      obtain ⟨folder, live, there⟩ := now
      refine ⟨aside_removeDir plan fault s _ held live there, ?_⟩
      unfold runOp
      dsimp only
      rcases removeDir_cases fault s (f.dir ++ rel) with same | ⟨after, removed, done⟩
      · rw [same]
        exact .working left todo work disk running status made
      · rw [done]
        refine .working left todo work disk running status ?_
        intro g other
        have elsewhere : g.top ≠ f.dir ++ rel := by
          intro same
          exact live g other (same ▸ List.prefix_refl _)
        show after.lstat g.top = some .dir
        rw [s.fs.lstat_remove after _ removed, if_neg elsewhere, made g other]
  | folderDone =>
      unfold runOp
      dsimp only
      split
      · exact ⟨held, .working [] rfl (by simp) disk running status made⟩
      · exact ⟨held, .working left todo work disk running status made⟩

theorem moves_invariant (plan : Plan) : Invariant (movesSystem plan) (Sound plan) where
  start := by
    rintro s rfl
    refine ⟨aside_start plan, .setup plan.folders rfl rfl rfl rfl rfl plan.volume ?_ (fun _ => id)⟩
    exact fun f folder => Or.inl folder
  step := by
    rintro s action after ⟨held, progress⟩ taken
    cases action with
    | cancel =>
        cases taken
        refine ⟨held, ?_⟩
        cases progress with
        | setup left todo memory disk restore running volumes made known =>
            exact .setup left todo memory disk restore running volumes made known
        | working left todo work disk running status made =>
            exact .working left todo work disk running status made
        | returned todo running disk status made => exact .returned todo running disk status made
        | aborted todo stopped memory disk => exact .aborted todo stopped memory disk
    | op fault =>
        cases progress with
        | setup left todo memory disk restore running volumes made known =>
            cases left with
            | nil =>
                have taken : movesStep s (.op fault) = some after := taken
                rw [movesStep, todo] at taken
                cases taken
                show Sound plan (runOp fault _ .record)
                unfold runOp
                dsimp only
                split
                · exact ⟨held, .aborted rfl rfl memory disk⟩
                · refine ⟨held, .working (mainOps plan) rfl (mainOps_work plan) ?_ running ?_ ?_⟩
                  · simp [memory]
                  · simp [memory]
                  · intro f folder
                    rcases made f folder with waiting | standing
                    · cases waiting
                    · exact standing
            | cons f left =>
                have taken : movesStep s (.op fault) = some after := taken
                rw [movesStep, todo] at taken
                cases taken
                exact sound_safety plan fault _ f left held rfl memory disk restore running volumes
                  made known
        | working left todo work disk running status made =>
            cases left with
            | nil =>
                have taken : movesStep s (.op fault) = some after := taken
                rw [movesStep, todo] at taken
                cases taken
                refine ⟨aside_closing plan _ _ held, .returned rfl running ?_ rfl made⟩
                cases faulted : fault.isSome with
                | true => exact Or.inl (by simpa [runOp, close, faulted] using disk)
                | false => exact Or.inr (by simp [runOp, close, faulted])
            | cons op left =>
                have taken : movesStep s (.op fault) = some after := taken
                rw [movesStep, todo] at taken
                cases taken
                exact sound_work plan fault _ op left held rfl
                  (fun other member => work other (List.mem_cons_of_mem _ member))
                  (work op List.mem_cons_self) disk running status made
        | returned todo running disk status made =>
            have taken : movesStep s (.op fault) = some after := taken
            rw [movesStep, todo] at taken
            cases taken
        | aborted todo stopped memory disk =>
            have taken : movesStep s (.op fault) = some after := taken
            rw [movesStep, todo] at taken
            cases taken

end ProxmoxBackup.RollbackMoves
