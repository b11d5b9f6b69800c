import ProxmoxBackup.UndoComplete

/-! A roll back from its first move to its last undo: the moves aside, the
restore of what is missing or was moved, the Finish that records what the
restore reports, and undos of the record on disk, any number of them, each of
which may stop anywhere. An extraction first walks only the selected entries
and, when that fails, starts again over the whole archive and forgets what it
had reported (walkIncludes); a restore that fails reports nothing at all
(RestoreSnapshotInline calls OnExtracted after the last archive). Files are
written one at a time, as they are without ParallelRestore, and a restored
file is put in place by one rename, so a failed one leaves only folders. -/

namespace ProxmoxBackup.RollbackRestore

open FileTree SetCompare TransitionSystem RollbackMoves UndoRollback UndoComplete

/-- pathMatches: a selected entry, or one above or below it. -/
def pathMatches (rel : Path) (includes : List Path) : Bool :=
  includes.any fun inc => rel = inc || inc.isPrefixOf rel || rel.isPrefixOf inc

/-- The entries a walk hands over: those of the selected spans, or all. -/
def walked (f : Folder) (includes : List Path) (span : Bool) : List Path :=
  f.snapshot.paths.filter fun rel => if span then rel ∈ includes else pathMatches rel includes

structure Walk where
  folder : Folder
  includes : List Path
  span : Bool
  entries : List Path
  results : List Path

structure Restore where
  fs : FileSystem
  memory : Manifest
  disk : Option Manifest
  archives : List (Folder × List Path)
  walk : Option Walk
  extracted : List Path
  failed : Bool

def Restore.results (r : Restore) : List Path :=
  match r.walk with
  | some w => w.results
  | none => []

inductive Rollback where
  | moving (s : Moves)
  | restoring (r : Restore)
  | idle (fs : FileSystem) (disk : Option Manifest)
  | undoing (m : Manifest) (u : Undo) (todo : List UndoOp) (silent : Bool)

def includesOf (s : Moves) (f : Folder) : List Path :=
  (s.restore.filter fun e => e.1 = f.archive).map Prod.snd

/-- The restores still to run; none when the roll back was cancelled. -/
def restores (plan : Plan) (s : Moves) : List (Folder × List Path) :=
  if s.cancelled then []
  else (plan.folders.map fun f => (f, includesOf s f)).filter fun a => a.2 ≠ []

/-- An entry that is already there is skipped: a file by stat, a link by lstat. -/
def alreadyThere (fs : FileSystem) (full : Path) : FileNode → Bool
  | .link _ _ => (fs.lstat full).isSome
  | _ => (fs.stat full).isSome

/-- The folder an entry asks for. -/
def entryFolder (full : Path) : FileNode → Path
  | .dir => full
  | _ => full.dropLast

/-- ExtractWithRewriter on one entry: the files after it, and what it reports. -/
def extractEntry (fault : Option Fault) (fs : FileSystem) (full : Path) (node : FileNode) :
    FileSystem × Option Path :=
  match node, makeFolder fault fs (entryFolder full node) with
  | .dir, (fs, _) => (fs, none)
  | _, (fs, false) => (fs, none)
  | node, (ready, true) =>
      if alreadyThere ready full node || fault.isSome then (ready, none)
      else match ready.write full node with
        | some after => (after, some full)
        | none => (ready, none)

inductive Action where
  | moves (action : MoveAction)
  | begin
  | startArchive (span : Bool)
  | extract (fault : Option Fault)
  | restart
  | archiveDone
  | fail
  | finish (success write : Bool)
  | undo
  | undoOp (fault : Option UndoFault)
  | undoStops
  | undoDone (write : Bool)

def Restore.start (plan : Plan) (s : Moves) : Restore where
  fs := s.fs
  memory := s.memory
  disk := s.disk
  archives := restores plan s
  walk := none
  extracted := []
  failed := s.cancelled

def beginRestore (plan : Plan) (s : Moves) : Option Rollback :=
  if s.todo.isEmpty then
    some (if s.aborted then .idle s.fs none else .restoring (Restore.start plan s))
  else none

def Walk.start (f : Folder) (includes : List Path) (span : Bool) : Walk :=
  { folder := f, includes := includes, span := span
    entries := walked f includes span, results := [] }

def startArchive (r : Restore) (span : Bool) : Option Restore :=
  match r.walk, r.archives with
  | none, (f, includes) :: rest =>
      some { r with archives := rest, walk := some (Walk.start f includes span) }
  | _, _ => none

def extract (r : Restore) (fault : Option Fault) : Option Restore :=
  match r.walk with
  | none => none
  | some w =>
      match w.entries with
      | [] => none
      | rel :: rest =>
          match w.folder.snapshot.lstat rel with
          | none => none
          | some node =>
              let (fs, reported) := extractEntry fault r.fs (w.folder.dir ++ rel) node
              some { r with
                fs := fs
                walk := some { w with entries := rest, results := w.results ++ reported.toList } }

/-- A walk of the selected spans that failed starts again over the whole archive. -/
def restart (r : Restore) : Option Restore :=
  match r.walk with
  | some w =>
      if w.span then some { r with walk := some (Walk.start w.folder w.includes false) } else none
  | none => none

def archiveDone (r : Restore) : Option Restore :=
  match r.walk with
  | some w =>
      if w.entries.isEmpty then
        some { r with walk := none, extracted := r.extracted ++ w.results }
      else none
  | none => none

def fail (r : Restore) : Restore :=
  { r with archives := [], walk := none, extracted := [], failed := true }

/-- Finish: what the restore reported is recorded. A restore that failed before
it could report has nothing in `extracted`. -/
def finished (r : Restore) (success : Bool) : Manifest :=
  { r.memory with
    restored := r.memory.restored ++ r.extracted
    status := if success && !r.failed then .done else .failed }

def finish (r : Restore) (success write : Bool) : Option Rollback :=
  match r.walk, r.archives with
  | none, [] => some (.idle r.fs (if write then some (finished r success) else r.disk))
  | _, _ => none

/-- Neither a folder made again nor one removed again counts as a problem. -/
def quiet : UndoOp → Bool
  | .remake _ | .unmake _ => true
  | _ => false

def undone (m : Manifest) (u : Undo) : Manifest :=
  if u.problems.isEmpty then { m with status := .undone } else m

def rollbackStep (plan : Plan) : Rollback → Action → Option Rollback
  | .moving s, .moves action => (movesStep s action).map .moving
  | .moving s, .begin => beginRestore plan s
  | .restoring r, .startArchive span => (startArchive r span).map .restoring
  | .restoring r, .extract fault => (extract r fault).map .restoring
  | .restoring r, .restart => (restart r).map .restoring
  | .restoring r, .archiveDone => (archiveDone r).map .restoring
  | .restoring r, .fail => some (.restoring (fail r))
  | .restoring r, .finish success write => finish r success write
  | .idle fs (some m), .undo =>
      if m.status = .undone then none else some (.undoing m ⟨fs, []⟩ (undoOps m) false)
  | .undoing m u (op :: rest) silent, .undoOp fault =>
      some (.undoing m (runUndoOp fault u op) rest (silent || fault.isSome && quiet op))
  | .undoing m u _ _, .undoStops => some (.idle u.fs (some m))
  | .undoing m u [] _, .undoDone write =>
      some (.idle u.fs (some (if write then undone m u else m)))
  | _, _ => none

def rollbackSystem (plan : Plan) : System Rollback Action where
  start := (· = .moving (Moves.start plan))
  step s action after := rollbackStep plan s action = some after

/-! The steps after which an undo can still put everything back. -/

/-- The folders that the next operation lists as to be created. -/
def listedNext (s : Moves) : List Path :=
  match s.todo with
  | .missing f rel :: _ => missingParents s.fs f.dir rel
  | _ => []

/-- A folder listed as to be created was not there, or was one that held something. -/
def ListingMeets (plan : Plan) (s : Moves) : Prop :=
  ∀ d ∈ listedNext s, plan.before.lstat d = none ∨
    plan.before.lstat d = some .dir ∧ plan.before.occupied d = true

/-- The entry to be extracted next, at its place in the live tree. -/
def Restore.next (r : Restore) : Option (Path × FileNode) :=
  match r.walk with
  | none => none
  | some w =>
      match w.entries with
      | [] => none
      | rel :: _ => (w.folder.snapshot.lstat rel).map fun node => (w.folder.dir ++ rel, node)

def isFile : FileNode → Bool
  | .file _ => true
  | _ => false

/-- No folder is made inside the place of a moved file, and no file is written
over a link of the live tree that leads nowhere. -/
def EntryMeets (plan : Plan) (r : Restore) (fault : Option Fault) (full : Path)
    (node : FileNode) : Prop :=
  ((r.fs.mkdirAll (folderMade fault (entryFolder full node))).isSome = true →
      ∀ mv ∈ r.memory.moved, ¬ Tree.Below mv.fromPath (folderMade fault (entryFolder full node))) ∧
    (isFile node = true → fault = none → plan.before.stat full = none →
      plan.before.lstat full = none ∨ full ∈ r.memory.movedFrom)

/-- The record on disk already says what Finish fails to write. -/
def OnDisk (r : Restore) : Prop :=
  ∃ m ∈ r.disk, m.moved = r.memory.moved ∧ m.removedDirs = r.memory.removedDirs ∧
    (∀ d ∈ r.memory.createdDirs, d ∈ m.createdDirs ∨ r.fs.lstat d = none) ∧
    ∀ p ∈ r.extracted, p ∈ r.memory.movedFrom

instance (p q : Path) : Decidable (Tree.Below p q) :=
  inferInstanceAs (Decidable (p <+: q ∧ p ≠ q))

instance (plan : Plan) (s : Moves) : Decidable (ListingMeets plan s) :=
  inferInstanceAs (Decidable (∀ d ∈ listedNext s, _ ∨ _))

instance (plan : Plan) (r : Restore) (fault : Option Fault) (full : Path) (node : FileNode) :
    Decidable (EntryMeets plan r fault full node) :=
  inferInstanceAs (Decidable (_ ∧ _))

instance (r : Restore) : Decidable (OnDisk r) :=
  inferInstanceAs (Decidable (∃ m ∈ r.disk, _ ∧ _))

def meets (plan : Plan) : Rollback → Action → Bool
  | .moving s, .moves (.op _) => ListingMeets plan s
  | .restoring r, .extract fault =>
      r.next.all fun entry => EntryMeets plan r fault entry.1 entry.2
  | .restoring r, .restart => decide (∀ p ∈ r.results, p ∈ r.memory.movedFrom)
  | .restoring r, .fail => decide (∀ p ∈ r.extracted ++ r.results, p ∈ r.memory.movedFrom)
  | .restoring r, .finish _ false => OnDisk r
  | .undoing _ u _ silent, .undoDone true => decide (u.problems = [] → silent = false)
  | _, _ => true

def Meets (plan : Plan) (state : Rollback) (action : Action) : Prop :=
  meets plan state action = true

instance (plan : Plan) (state : Rollback) (action : Action) :
    Decidable (Meets plan state action) :=
  inferInstanceAs (Decidable (_ = true))

/-! While files are moved aside: what is listed to be restored, and the folders
listed as to be created. -/

def Wanted (plan : Plan) (m : Manifest) (f : Folder) (rel : Path) : Prop :=
  plan.Live (f.dir ++ rel) ∧ Leaf f.snapshot rel ∧
    ∀ q, q <+: (f.dir ++ rel).dropLast → plan.before.lstat q ≠ none ∨ q ∈ m.createdDirs

structure Noted (plan : Plan) (s : Moves) : Prop where
  created : ∀ d ∈ s.memory.createdDirs, Fresh plan s.memory d
  listed : ∀ e ∈ s.restore, ∃ f ∈ plan.folders, f.archive = e.1 ∧ Wanted plan s.memory f e.2

theorem Wanted.more {plan : Plan} {m later : Manifest} {f : Folder} {rel : Path}
    (wanted : Wanted plan m f rel) (kept : ∀ p ∈ m.createdDirs, p ∈ later.createdDirs) :
    Wanted plan later f rel :=
  ⟨wanted.1, wanted.2.1, fun q above => (wanted.2.2 q above).imp_right (kept q)⟩

/-- What the moves change at most: no folder is taken off the lists. -/
theorem Noted.more {plan : Plan} {s after : Moves} (noted : Noted plan s)
    (created : ∀ d, d ∈ after.memory.createdDirs ↔ d ∈ s.memory.createdDirs)
    (removed : ∀ d ∈ s.memory.removedDirs, d ∈ after.memory.removedDirs)
    (restore : after.restore = s.restore) : Noted plan after where
  created := fun d member => (noted.created d ((created d).mp member)).more removed
  listed := by
    intro e member
    obtain ⟨f, folder, archive, wanted⟩ := noted.listed e (restore ▸ member)
    exact ⟨f, folder, archive, wanted.more fun d known => (created d).mpr known⟩

theorem above_rel (dir rel q : Path) (named : rel ≠ []) (above : q <+: (dir ++ rel).dropLast) :
    q <+: dir ∨ ∃ k, 0 < k ∧ k ≤ rel.length - 1 ∧ q = dir ++ rel.take k := by
  rw [List.dropLast_append_of_ne_nil named] at above
  rcases List.prefix_or_prefix_of_prefix above (List.prefix_append dir rel.dropLast) with
    short | ⟨rest, joined⟩
  · exact Or.inl short
  · rw [← joined, List.prefix_append_right_inj] at above
    cases rest with
    | nil => exact Or.inl (by simp [← joined])
    | cons first more =>
        right
        have size := above.length_le
        rw [List.length_dropLast] at size
        refine ⟨(first :: more).length, by simp, size, ?_⟩
        have within : first :: more <+: rel := above.trans (List.dropLast_prefix rel)
        rw [← joined, List.prefix_iff_eq_take.mp within, List.length_take]
        congr 2
        have := within.length_le
        omega

theorem noted_missing (plan : Plan) (s : Moves) (f : Folder) (rel : Path)
    (held : Aside plan s.fs s.memory) (noted : Noted plan s) (folder : f ∈ plan.folders)
    (live : plan.Live (f.dir ++ rel)) (leaf : Leaf f.snapshot rel)
    (made : ∀ g ∈ plan.folders, s.fs.lstat g.top = some .dir)
    (meets : ∀ d ∈ missingParents s.fs f.dir rel, plan.before.lstat d = none ∨
      plan.before.lstat d = some .dir ∧ plan.before.occupied d = true) :
    Noted plan (listMissing s f rel) := by
  have liveAbove : ∀ k, plan.Live (f.dir ++ rel.take k) := fun k =>
    live_above plan _ _ live (by
      rw [List.prefix_append_right_inj]
      exact List.take_prefix _ _)
  constructor
  · intro d member
    rcases List.mem_append.mp member with old | new
    · exact (noted.created d old).more fun _ => id
    · obtain ⟨k, _, _, shape, absent⟩ := mem_missingFrom _ _ _ _ _ new
      have liveDir : plan.Live d := shape ▸ liveAbove k
      have notDir : s.fs.lstat d ≠ some .dir := by
        intro there
        rw [Tree.stat, there] at absent
        cases absent
      refine ⟨?_, ?_⟩
      · rcases meets d new with fresh | ⟨there, holds⟩
        · exact Or.inl fresh
        · refine Or.inr ⟨there, ?_, (plan.before.occupied_iff d).mp holds⟩
          by_contra kept
          apply notDir
          rw [held.same d liveDir ?_ kept, there]
          intro moved
          obtain ⟨mv, known, same⟩ := List.mem_map.mp moved
          have closed := (held.placed mv known).closed
          rw [same, there] at closed
          exact closed rfl
      · intro g other above
        apply notDir
        by_cases here : d = g.top
        · rw [here, made g other]
        · exact s.fs.lstat_above d g.top ⟨above, here⟩ (by simp [made g other])
  · intro e member
    rcases List.mem_append.mp member with old | new
    · obtain ⟨g, other, archive, wanted⟩ := noted.listed e old
      exact ⟨g, other, archive, wanted.more fun d known => List.mem_append_left _ known⟩
    · rw [List.mem_singleton.mp new]
      refine ⟨f, folder, rfl, live, leaf, ?_⟩
      intro q above
      rcases above_rel f.dir rel q leaf.named above with short | ⟨k, positive, bound, rfl⟩
      · left
        by_cases here : q = f.dir
        · simp [here, plan.walked f folder]
        · simp [plan.before.lstat_above q f.dir ⟨short, here⟩ (by simp [plan.walked f folder])]
      · by_cases absent : s.fs.lstat (f.dir ++ rel.take k) = none
        · exact Or.inr (List.mem_append_right _
            (missingFrom_complete s.fs f.dir rel _ k (by omega) positive bound absent))
        · left
          have unmoved : f.dir ++ rel.take k ∉ s.memory.movedFrom :=
            fun moved => absent (held.gone _ moved)
          have kept : f.dir ++ rel.take k ∉ s.memory.removedDirs :=
            fun removed => absent (held.removed _ removed).2.2
          rwa [← held.same _ (liveAbove k) unmoved kept]

theorem noted_move (plan : Plan) (fault : Option Fault) (s : Moves) (f : Folder) (rel : Path)
    (kind : MoveKind) (noted : Noted plan s) (folder : f ∈ plan.folders)
    (live : plan.Live (f.dir ++ rel)) (leaf : Leaf plan.before (f.dir ++ rel))
    (kept : kind = .replaced → Leaf f.snapshot rel) : Noted plan (move fault s f rel kind) := by
  rcases move_cases fault s f rel kind with ⟨ready, after, _, _, done⟩ | ⟨after, _, done⟩
  · rw [done]
    refine ⟨fun d member => (noted.created d member).more fun _ => id, ?_⟩
    intro e member
    by_cases replaced : kind = .replaced
    · rw [show (if kind = .replaced then s.restore ++ [(f.archive, rel)] else s.restore) = _ from
        if_pos replaced] at member
      rcases List.mem_append.mp member with old | new
      · exact noted.listed e old
      · rw [List.mem_singleton.mp new]
        refine ⟨f, folder, rfl, live, kept replaced, ?_⟩
        intro q above
        left
        simp [plan.before.lstat_above q _
          (below_of_dropLast _ _ leaf.named above) leaf.not_none]
    · rw [show (if kind = .replaced then s.restore ++ [(f.archive, rel)] else s.restore) = _ from
        if_neg replaced] at member
      exact noted.listed e member
  · rw [done]
    exact noted.more (fun _ => Iff.rfl) (fun _ => id) rfl

theorem noted_removeDir (plan : Plan) (fault : Option Fault) (s : Moves) (full : Path)
    (noted : Noted plan s) : Noted plan (removeDir fault s full) := by
  rcases removeDir_cases fault s full with same | ⟨after, _, done⟩
  · rw [same]
    exact noted
  · rw [done]
    exact noted.more (fun _ => Iff.rfl) (fun d member => List.mem_append_left _ member) rfl

/-- The head of the list of operations is set-up, the last write, or work on a
folder whose safety folder stands. -/
theorem sound_head (plan : Plan) (s : Moves) (op : Op) (rest : List Op) (sound : Sound plan s)
    (todo : s.todo = op :: rest) :
    (∃ f, op = .safety f) ∨ op = .record ∨ op = .close ∨
      Work plan op ∧ ∀ f ∈ plan.folders, s.fs.lstat f.top = some .dir := by
  cases sound.2 with
  | setup left shape =>
      rw [shape] at todo
      cases left with
      | nil => exact Or.inr (Or.inl (List.cons.inj todo).1.symm)
      | cons f left => exact Or.inl ⟨f, (List.cons.inj todo).1.symm⟩
  | working left shape work disk running status made =>
      rw [shape] at todo
      cases left with
      | nil => exact Or.inr (Or.inr (Or.inl (List.cons.inj todo).1.symm))
      | cons first left =>
          rw [← (List.cons.inj todo).1]
          exact Or.inr (Or.inr (Or.inr ⟨work first List.mem_cons_self, made⟩))
  | returned shape =>
      rw [shape] at todo
      cases todo
  | aborted shape =>
      rw [shape] at todo
      cases todo

theorem noted_abort (plan : Plan) (s : Moves) (fs : FileSystem) (noted : Noted plan s) :
    Noted plan (abort s fs) :=
  noted.more (fun _ => Iff.rfl) (fun _ => id) rfl

theorem noted_safety (plan : Plan) (fault : Option Fault) (s : Moves) (f : Folder)
    (noted : Noted plan s) : Noted plan (makeSafety fault s f) := by
  unfold makeSafety
  split
  · exact noted_abort plan s _ noted
  · exact noted_abort plan s _ noted
  · split
    · exact noted.more (fun _ => Iff.rfl) (fun _ => id) rfl
    · exact noted_abort plan s _ noted

theorem noted_step (plan : Plan) (s after : Moves) (action : MoveAction) (sound : Sound plan s)
    (noted : Noted plan s) (meets : Meets plan (.moving s) (.moves action))
    (taken : movesStep s action = some after) : Noted plan after := by
  cases action with
  | cancel =>
      cases taken
      exact noted.more (fun _ => Iff.rfl) (fun _ => id) rfl
  | op fault =>
      cases todo : s.todo with
      | nil => simp [movesStep, todo] at taken
      | cons op rest =>
          simp only [movesStep, todo, Option.some.injEq] at taken
          subst taken
          have started : Noted plan { s with todo := rest } :=
            noted.more (fun _ => Iff.rfl) (fun _ => id) rfl
          have held : Aside plan s.fs s.memory := sound.1
          rcases sound_head plan s op rest sound todo with
            ⟨f, rfl⟩ | rfl | rfl | ⟨work, made⟩
          · exact noted_safety plan fault _ f started
          · show Noted plan (if fault.isSome then _ else _)
            split
            · exact noted_abort plan _ _ started
            · exact started.more (fun _ => Iff.rfl) (fun _ => id) rfl
          · exact started.more (fun _ => List.mem_eraseDups) (fun _ => id) rfl
          · cases op with
            | safety f => cases work
            | record => cases work
            | close => cases work
            | missing f rel =>
                obtain ⟨folder, live, leaf⟩ := work
                have listing : ListingMeets plan s := of_decide_eq_true meets
                rw [ListingMeets, listedNext, todo] at listing
                exact noted_missing plan { s with todo := rest } f rel held started folder live leaf
                  made listing
            | move f rel kind =>
                obtain ⟨folder, live, leaf, kept⟩ := work
                show Noted plan (if s.cancelled then _ else _)
                split
                · exact started
                · exact noted_move plan fault { s with todo := rest } f rel kind started folder live
                    leaf kept
            | removeDir f rel => exact noted_removeDir plan fault { s with todo := rest } _ started
            | folderDone =>
                show Noted plan (if s.cancelled then _ else _)
                split
                · exact started.more (fun _ => Iff.rfl) (fun _ => id) rfl
                · exact started

/-! While the restore runs. -/

/-- The record Finish would make if the restore reported now. -/
def reported (r : Restore) : Manifest :=
  { r.memory with restored := r.extracted ++ r.results }

def ArchiveOk (plan : Plan) (m : Manifest) (f : Folder) (includes : List Path) : Prop :=
  f ∈ plan.folders ∧ ∀ rel ∈ includes, Wanted plan m f rel

def WalkOk (plan : Plan) (m : Manifest) (w : Walk) : Prop :=
  ArchiveOk plan m w.folder w.includes ∧
    ∀ rel ∈ w.entries, w.folder.snapshot.lstat rel ≠ none ∧ pathMatches rel w.includes = true

structure Restoring (plan : Plan) (r : Restore) : Prop where
  sincere : Sincere plan (reported r)
  owed : Owed plan (reported r) r.fs
  waiting : ∀ mv ∈ r.memory.moved, Waiting plan mv r.fs
  empty : r.memory.restored = []
  status : r.memory.status = .restoring
  disk : r.disk = some {} ∨ r.disk = some r.memory
  archives : ∀ a ∈ r.archives, ArchiveOk plan r.memory a.1 a.2
  walk : ∀ w, r.walk = some w → WalkOk plan r.memory w

/-- Fewer files on record as restored, where the others were moved from, and
fewer folders to remove, where the others are not there. -/
theorem owed_fewer (plan : Plan) (m less : Manifest) (fs : FileSystem) (record : Record plan m)
    (owed : Owed plan m fs) (moved : less.moved = m.moved)
    (removed : less.removedDirs = m.removedDirs)
    (restored : ∀ p ∈ m.restored, p ∈ less.restored ∨ p ∈ m.movedFrom)
    (created : ∀ d ∈ m.createdDirs, d ∈ less.createdDirs ∨ fs.lstat d = none) :
    Owed plan less fs := by
  have source : less.movedFrom = m.movedFrom := by simp [Manifest.movedFrom, moved]
  refine ⟨?_, ?_, ?_⟩
  · rw [moved]
    exact owed.held
  · intro p live unmoved
    rw [source] at unmoved
    rcases owed.rest p live unmoved with
      same | ⟨absent, dropped⟩ | ⟨leaf, known, new⟩ | ⟨folder, new, listed⟩
    · exact Or.inl same
    · exact Or.inr (Or.inl ⟨absent, removed ▸ dropped⟩)
    · refine Or.inr (Or.inr (Or.inl ⟨leaf, ?_, removed ▸ new⟩))
      exact (restored p known).resolve_right unmoved
    · rcases created p listed with still | absent
      · exact Or.inr (Or.inr (Or.inr ⟨folder, new, still⟩))
      · exact Or.inl (absent.trans new.symm)
  · rw [moved]
    intro mv member q below
    rcases owed.inside mv member q below with absent | ⟨known, leaf⟩
    · exact Or.inl absent
    · refine Or.inr ⟨(restored q known).resolve_right ?_, leaf⟩
      intro again
      obtain ⟨other, listed, rfl⟩ := List.mem_map.mp again
      exact (record.placed mv member).unrelated (record.placed other listed) below

theorem sincere_fewer (plan : Plan) (m less : Manifest) (sincere : Sincere plan m)
    (moved : less.moved = m.moved) (removed : less.removedDirs = m.removedDirs)
    (restored : ∀ p ∈ less.restored, p ∈ m.restored)
    (created : ∀ d ∈ less.createdDirs, d ∈ m.createdDirs) : Sincere plan less := by
  have source : less.movedFrom = m.movedFrom := by simp [Manifest.movedFrom, moved]
  have record := sincere.record
  refine ⟨⟨?_, ?_, ?_, ?_, ?_⟩, ?_, ?_⟩
  · rw [moved]
    exact record.placed
  · rw [moved]
    exact record.once
  · rw [removed]
    exact record.removed
  · rw [source]
    exact fun d member => record.created d (created d member)
  · exact fun p member => record.restored p (restored p member)
  · exact fun d member => (sincere.created d (created d member)).more fun _ known => removed ▸ known
  · rw [source, removed]
    exact fun p member => sincere.restored p (restored p member)

/-- An entry makes folders at most, or also writes one file that was not there. -/
theorem extractEntry_cases (fault : Option Fault) (fs after : FileSystem) (full : Path)
    (node : FileNode) (written : Option Path)
    (done : extractEntry fault fs full node = (after, written)) :
    written = none ∧ after = fs ∨
      ∃ ready, fs.mkdirAll (folderMade fault (entryFolder full node)) = some ready ∧
        (written = none ∧ after = ready ∨
          written = some full ∧ node ≠ .dir ∧ fault = none ∧
            alreadyThere ready full node = false ∧ ready.write full node = some after) := by
  have folders : ∀ ready made, makeFolder fault fs (entryFolder full node) = (ready, made) →
      ready = fs ∨ fs.mkdirAll (folderMade fault (entryFolder full node)) = some ready :=
    fun ready made whole => (makeFolder_cases fault fs ready _ made whole).imp_left And.left
  have onlyFolders : ∀ ready made, makeFolder fault fs (entryFolder full node) = (ready, made) →
      written = none → after = ready → written = none ∧ after = fs ∨
        ∃ ready, fs.mkdirAll (folderMade fault (entryFolder full node)) = some ready ∧
          (written = none ∧ after = ready ∨ written = some full ∧ node ≠ .dir ∧ fault = none ∧
            alreadyThere ready full node = false ∧ ready.write full node = some after) := by
    intro ready made whole nothing same
    rcases folders ready made whole with unchanged | grown
    · exact Or.inl ⟨nothing, same.trans unchanged⟩
    · exact Or.inr ⟨ready, grown, Or.inl ⟨nothing, same⟩⟩
  unfold extractEntry at done
  split at done
  · next ready made whole =>
      cases done
      exact onlyFolders _ made whole rfl rfl
  · next ready notDir whole =>
      cases done
      exact onlyFolders _ false whole rfl rfl
  · next entry _ _ ready notDir whole =>
      split at done
      · cases done
        exact onlyFolders _ true whole rfl rfl
      · next free =>
          obtain ⟨absent, unfaulted⟩ : alreadyThere ready full entry = false ∧ fault = none := by
            simpa using free
          split at done
          · next put =>
              cases done
              rcases makeFolder_cases _ _ _ _ _ whole with ⟨_, impossible⟩ | grown
              · cases impossible
              · exact Or.inr ⟨ready, grown, Or.inr ⟨rfl, notDir, unfaulted, absent, put⟩⟩
          · cases done
            exact onlyFolders _ true whole rfl rfl

theorem matched (f : Folder) (includes : List Path) (rel : Path) (node : FileNode)
    (leaves : ∀ inc ∈ includes, Leaf f.snapshot inc) (found : f.snapshot.lstat rel = some node)
    (matching : pathMatches rel includes = true) :
    (node = .dir ∧ ∃ inc ∈ includes, Tree.Below rel inc) ∨ node ≠ .dir ∧ rel ∈ includes := by
  obtain ⟨inc, listed, near⟩ := List.any_eq_true.mp matching
  have leaf := leaves inc listed
  have near : rel = inc ∨ inc <+: rel ∨ rel <+: inc := by simpa [or_assoc] using near
  by_cases same : rel = inc
  · right
    subst same
    refine ⟨?_, listed⟩
    rintro rfl
    exact leaf.not_dir found
  · rcases near with equal | above | below
    · exact absurd equal same
    · have absent := f.snapshot.lstat_below inc rel ⟨above, Ne.symm same⟩ leaf.not_dir
      rw [absent] at found
      cases found
    · have folder := f.snapshot.lstat_above rel inc ⟨below, same⟩ leaf.not_none
      rw [folder, Option.some.injEq] at found
      exact Or.inl ⟨found.symm, inc, listed, below, same⟩

/-- Every folder an entry asks for was there, or is listed to be removed again. -/
theorem entry_covered (plan : Plan) (m : Manifest) (f : Folder) (includes : List Path)
    (rel : Path) (node : FileNode) (archive : ArchiveOk plan m f includes)
    (found : f.snapshot.lstat rel = some node) (matching : pathMatches rel includes = true)
    (q : Path) (above : q <+: entryFolder (f.dir ++ rel) node) :
    plan.before.lstat q ≠ none ∨ q ∈ m.createdDirs := by
  have leaves : ∀ inc ∈ includes, Leaf f.snapshot inc :=
    fun inc listed => (archive.2 inc listed).2.1
  rcases matched f includes rel node leaves found matching with
    ⟨rfl, inc, listed, below, different⟩ | ⟨notDir, listed⟩
  · refine (archive.2 inc listed).2.2 q (above.trans (dropLast_of_below _ _ ⟨?_, ?_⟩))
    · exact (List.prefix_append_right_inj _).mpr below
    · intro same
      exact different (List.append_cancel_left same)
  · refine (archive.2 rel listed).2.2 q ?_
    cases node with
    | dir => exact absurd rfl notDir
    | file content => exact above
    | link target resolves => exact above

theorem owed_made (plan : Plan) (m : Manifest) (record : Record plan m) (fs after : FileSystem)
    (p : Path) (owed : Owed plan m fs) (waiting : ∀ mv ∈ m.moved, Waiting plan mv fs)
    (live : plan.Live p) (made : fs.mkdirAll p = some after)
    (covered : ∀ q, q <+: p → plan.before.lstat q ≠ none ∨ q ∈ m.createdDirs)
    (outside : ∀ mv ∈ m.moved, ¬ Tree.Below mv.fromPath p) :
    Owed plan m after ∧ ∀ mv ∈ m.moved, Waiting plan mv after := by
  have grown := fs.grows_mkdirAll after p p made (List.prefix_refl _)
  have still : ∀ mv ∈ m.moved, Waiting plan mv after := by
    intro mv moved
    refine (grown.aside ?_).trans (waiting mv moved)
    intro within
    exact (record.placed mv moved).kept_not_live (live_above plan _ _ live within)
  refine ⟨⟨fun mv moved => Or.inl (still mv moved), ?_, ?_⟩, still⟩
  · intro q liveHere unmoved
    rcases grown q with same | ⟨absent, new, above⟩
    · exact (owed.rest q liveHere unmoved).same same
    · rcases owed.rest q liveHere unmoved with
        equal | ⟨_, removed⟩ | ⟨leaf, _⟩ | ⟨folder, _⟩
      · have fresh : plan.before.lstat q = none := equal.symm.trans absent
        refine Or.inr (Or.inr (Or.inr ⟨new, fresh, ?_⟩))
        exact (covered q above).resolve_left (by simp [fresh])
      · exact Or.inl (new.trans (record.removed q removed).2.symm)
      · exact absurd absent leaf.not_none
      · rw [absent] at folder
        cases folder
  · intro mv moved q below
    rcases grown q with same | ⟨_, _, above⟩
    · rcases owed.inside mv moved q below with absent | ⟨restored, leaf⟩
      · exact Or.inl (same.trans absent)
      · exact Or.inr ⟨restored, leaf.same same⟩
    · exfalso
      apply outside mv moved
      refine ⟨below.1.trans above, ?_⟩
      rintro rfl
      exact below.2 (below.1.eq_of_length_le above.length_le)

/-- A file written where nothing was, and recorded as restored. -/
theorem owed_written (plan : Plan) (m : Manifest) (sincere : Sincere plan m)
    (fs after : FileSystem) (full : Path) (node : FileNode) (owed : Owed plan m fs)
    (waiting : ∀ mv ∈ m.moved, Waiting plan mv fs) (live : plan.Live full) (notDir : node ≠ .dir)
    (written : fs.write full node = some after)
    (absent : fs.lstat full = none ∨
      ∃ target, fs.lstat full = some (.link target false) ∧
        (plan.before.lstat full = some (.link target false) → full ∈ m.movedFrom)) :
    let more : Manifest := { m with restored := m.restored ++ [full] }
    Sincere plan more ∧ Owed plan more after ∧ ∀ mv ∈ m.moved, Waiting plan mv after := by
  intro more
  have result := fs.lstat_write after full node written
  have still : ∀ mv ∈ m.moved, Waiting plan mv after := by
    intro mv moved
    have apart : mv.toPath ≠ full := by
      intro same
      exact (sincere.record.placed mv moved).kept_not_live (same ▸ live)
    exact Eq.trans (by rw [result, if_neg apart]) (waiting mv moved)
  have fresh : full ∉ m.movedFrom →
      plan.before.lstat full = none ∨ full ∈ m.removedDirs := by
    intro unmoved
    rcases owed.rest full live unmoved with
      same | ⟨_, removed⟩ | ⟨_, _, new⟩ | ⟨folder, _⟩
    · rcases absent with none_ | ⟨target, found, kept⟩
      · exact Or.inl (same.symm.trans none_)
      · exact absurd (kept (same.symm.trans found)) unmoved
    · exact Or.inr removed
    · exact new
    · rcases absent with none_ | ⟨target, found, _⟩
      · rw [none_] at folder
        cases folder
      · rw [found] at folder
        cases folder
  have leaf : Leaf after full := ⟨node, notDir, by rw [result, if_pos rfl]⟩
  refine ⟨⟨?_, sincere.created, ?_⟩, ⟨fun mv moved => Or.inl (still mv moved), ?_, ?_⟩, still⟩
  · refine { sincere.record with restored := ?_ }
    intro p member
    rcases List.mem_append.mp member with old | new
    · exact sincere.record.restored p old
    · rw [List.mem_singleton.mp new]
      exact live
  · intro p member
    rcases List.mem_append.mp member with old | new
    · exact sincere.restored p old
    · rw [List.mem_singleton.mp new]
      by_cases moved : full ∈ m.movedFrom
      · exact Or.inl moved
      · exact Or.inr (fresh moved)
  · intro p liveHere unmoved
    by_cases here : p = full
    · subst here
      exact Or.inr (Or.inr (Or.inl ⟨leaf, List.mem_append_right _ List.mem_cons_self,
        fresh unmoved⟩))
    · have same : after.lstat p = fs.lstat p := by rw [result, if_neg here]
      rcases (owed.rest p liveHere unmoved).same same with
        equal | removed | ⟨there, known, new⟩ | created
      · exact Or.inl equal
      · exact Or.inr (Or.inl removed)
      · exact Or.inr (Or.inr (Or.inl ⟨there, List.mem_append_left _ known, new⟩))
      · exact Or.inr (Or.inr (Or.inr created))
  · intro mv moved q below
    by_cases here : q = full
    · subst here
      exact Or.inr ⟨List.mem_append_right _ List.mem_cons_self, leaf⟩
    · have same : after.lstat q = fs.lstat q := by rw [result, if_neg here]
      rcases owed.inside mv moved q below with none_ | ⟨known, there⟩
      · exact Or.inl (same.trans none_)
      · exact Or.inr ⟨List.mem_append_left _ known, there.same same⟩

theorem absent_of_free (fs : FileSystem) (full : Path) (node : FileNode)
    (free : alreadyThere fs full node = false) : fs.lstat full = none ∨
      ∃ target, fs.lstat full = some (.link target false) ∧
        ∀ aim resolves, node ≠ .link aim resolves := by
  cases node with
  | link target resolves => exact Or.inl (by simpa [alreadyThere] using free)
  | dir =>
      rcases (fs.stat_eq_none_iff full).mp (by simpa [alreadyThere] using free) with
        absent | ⟨target, found⟩
      · exact Or.inl absent
      · exact Or.inr ⟨target, found, by simp⟩
  | file content =>
      rcases (fs.stat_eq_none_iff full).mp (by simpa [alreadyThere] using free) with
        absent | ⟨target, found⟩
      · exact Or.inl absent
      · exact Or.inr ⟨target, found, by simp⟩

theorem walkOk_start (plan : Plan) (m : Manifest) (f : Folder) (includes : List Path)
    (span : Bool) (archive : ArchiveOk plan m f includes) :
    WalkOk plan m (Walk.start f includes span) := by
  refine ⟨archive, ?_⟩
  intro rel member
  obtain ⟨listed, chosen⟩ := List.mem_filter.mp member
  refine ⟨(f.snapshot.mem_paths rel listed).2, ?_⟩
  show pathMatches rel includes = true
  cases span with
  | false => exact chosen
  | true => exact List.any_eq_true.mpr ⟨rel, of_decide_eq_true chosen, by simp⟩

theorem restoring_extract (plan : Plan) (r after : Restore) (fault : Option Fault)
    (held : Restoring plan r) (meets : Meets plan (.restoring r) (.extract fault))
    (taken : extract r fault = some after) : Restoring plan after := by
  unfold extract at taken
  split at taken
  · cases taken
  · next w walking =>
      split at taken
      · cases taken
      · next rel rest entries =>
          split at taken
          · cases taken
          · next node found =>
              obtain ⟨archive, listed⟩ := held.walk w walking
              obtain ⟨_, matching⟩ := listed rel (by simp [entries])
              have next : r.next = some (w.folder.dir ++ rel, node) := by
                simp [Restore.next, walking, entries, found]
              obtain ⟨outside, notOver⟩ : EntryMeets plan r fault (w.folder.dir ++ rel) node := by
                simpa [Meets, RollbackRestore.meets, next] using meets
              have live : plan.Live (w.folder.dir ++ rel) :=
                live_snapshot plan w.folder archive.1 rel (by simp [found])
              have walkOk : WalkOk plan r.memory { w with entries := rest } :=
                ⟨archive, fun other member => listed other (by simp [entries, member])⟩
              have results : r.results = w.results := by simp [Restore.results, walking]
              obtain ⟨fs, written, done⟩ : ∃ fs written,
                  extractEntry fault r.fs (w.folder.dir ++ rel) node = (fs, written) := ⟨_, _, rfl⟩
              rw [done] at taken
              have folderLive : plan.Live (folderMade fault (entryFolder (w.folder.dir ++ rel) node)) := by
                refine live_above plan _ _ live ((folderMade_above _ _).trans ?_)
                cases node with
                | dir => exact List.prefix_refl _
                | file content => exact List.dropLast_prefix _
                | link target resolves => exact List.dropLast_prefix _
              have grown : ∀ ready,
                  r.fs.mkdirAll (folderMade fault (entryFolder (w.folder.dir ++ rel) node)) = some ready →
                  Owed plan (reported r) ready ∧ ∀ mv ∈ r.memory.moved, Waiting plan mv ready :=
                fun ready made =>
                  owed_made plan (reported r) held.sincere.record r.fs ready _ held.owed held.waiting
                    folderLive made
                    (fun q above => entry_covered plan r.memory w.folder w.includes rel node archive
                      found matching q (above.trans (folderMade_above _ _)))
                    (outside (by simp [made]))
              have walkAfter : ∀ results v, some { w with entries := rest, results := results } = some v →
                  WalkOk plan r.memory v := by
                rintro results v shape
                cases shape
                exact walkOk
              rcases extractEntry_cases _ _ _ _ _ _ done with
                ⟨rfl, rfl⟩ | ⟨ready, made, ⟨rfl, rfl⟩ | ⟨rfl, notDir, unfaulted, free, put⟩⟩
              · cases taken
                have same : reported { r with walk := some { w with
                    entries := rest, results := w.results ++ [] } } = reported r := by
                  simp [reported, Restore.results, walking]
                exact ⟨same ▸ held.sincere, same ▸ held.owed, held.waiting, held.empty, held.status, held.disk,
                  held.archives, walkAfter _⟩
              · cases taken
                obtain ⟨owed, waiting⟩ := grown _ made
                have same : reported { r with fs := fs, walk := some { w with
                    entries := rest, results := w.results ++ [] } } = reported r := by
                  simp [reported, Restore.results, walking]
                exact ⟨same ▸ held.sincere, same ▸ owed, waiting, held.empty, held.status, held.disk,
                  held.archives, walkAfter _⟩
              · cases taken
                obtain ⟨owed, waiting⟩ := grown _ made
                have absent : ready.lstat (w.folder.dir ++ rel) = none ∨
                    ∃ target, ready.lstat (w.folder.dir ++ rel) = some (.link target false) ∧
                      (plan.before.lstat (w.folder.dir ++ rel) = some (.link target false) →
                        w.folder.dir ++ rel ∈ (reported r).movedFrom) := by
                  rcases absent_of_free _ _ _ free with none_ | ⟨target, there, notLink⟩
                  · exact Or.inl none_
                  · refine Or.inr ⟨target, there, ?_⟩
                    cases node with
                    | dir => exact absurd rfl notDir
                    | link aim resolves => exact absurd rfl (notLink aim resolves)
                    | file content =>
                        intro before
                        have dangling := (plan.before.stat_eq_none_iff _).mpr (Or.inr ⟨target, before⟩)
                        refine (notOver rfl unfaulted dangling).resolve_left ?_
                        simp [before]
                obtain ⟨sincere, owed, waiting⟩ := owed_written plan (reported r) held.sincere ready fs
                  _ node owed waiting live notDir put absent
                have same : reported { r with fs := fs, walk := some { w with
                    entries := rest, results := w.results ++ [w.folder.dir ++ rel] } } =
                    { reported r with restored := (reported r).restored ++ [w.folder.dir ++ rel] } := by
                  simp [reported, Restore.results, walking]
                exact ⟨same ▸ sincere, same ▸ owed, waiting, held.empty, held.status, held.disk,
                  held.archives, walkAfter _⟩

/-- Results that are forgotten are of files that were moved aside. -/
theorem restoring_forget (plan : Plan) (r after : Restore) (held : Restoring plan r)
    (fs : after.fs = r.fs) (memory : after.memory = r.memory) (disk : after.disk = r.disk)
    (fewer : ∀ p ∈ after.extracted ++ after.results, p ∈ r.extracted ++ r.results)
    (lost : ∀ p ∈ r.extracted ++ r.results,
      p ∈ after.extracted ++ after.results ∨ p ∈ r.memory.movedFrom)
    (archives : ∀ a ∈ after.archives, ArchiveOk plan r.memory a.1 a.2)
    (walk : ∀ w, after.walk = some w → WalkOk plan r.memory w) : Restoring plan after where
  sincere := by
    refine sincere_fewer plan (reported r) (reported after) held.sincere ?_ ?_ fewer ?_
    · simp [reported, memory]
    · simp [reported, memory]
    · simp [reported, memory]
  owed := by
    rw [fs]
    refine owed_fewer plan (reported r) (reported after) r.fs held.sincere.record held.owed
      ?_ ?_ lost ?_
    · simp [reported, memory]
    · simp [reported, memory]
    · intro d member
      exact Or.inl (by simpa [reported, memory] using member)
  waiting := by
    rw [fs, memory]
    exact held.waiting
  empty := memory ▸ held.empty
  status := memory ▸ held.status
  disk := by
    rw [disk, memory]
    exact held.disk
  archives := by
    rw [memory]
    exact archives
  walk := by
    rw [memory]
    exact walk

end ProxmoxBackup.RollbackRestore
