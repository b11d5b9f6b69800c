import ProxmoxBackup.UndoRollback

/-! A roll back that stops part-way: what an undo from the record on disk puts
back, at every point of applyRollbackMoves. The record is written when nothing
has been moved and again when everything has, so between the two writes it
names no move. -/

namespace ProxmoxBackup.CrashSafety

open FileTree SetCompare TransitionSystem RollbackMoves UndoRollback

/-- The files as an undo leaves them that reads the record now on disk. -/
def undoFromDisk (s : Moves) : FileSystem :=
  match s.disk with
  | some m => (undoRollback m s.fs).fs
  | none => s.fs

def Recorded (s : Moves) : Prop :=
  ∀ mv ∈ s.memory.moved, ∃ m, s.disk = some m ∧ mv ∈ m.moved

def PutsBack (plan : Plan) (s : Moves) : Prop :=
  ∀ mv ∈ s.memory.moved, (undoFromDisk s).lstat mv.fromPath = plan.before.lstat mv.fromPath

/-- The closing write of the record has succeeded. -/
def Closed (s : Moves) : Prop := ∃ m, s.disk = some m ∧ m.status = .restoring

theorem unmake_lstat (u : Undo) (d q : Path) :
    (unmake none u d).fs.lstat q = u.fs.lstat q ∨ q = d ∧ (unmake none u d).fs.lstat q = none := by
  unfold unmake
  rw [if_neg (by simp)]
  cases removed : u.fs.remove d with
  | none => exact Or.inl rfl
  | some after =>
      show after.lstat q = _ ∨ q = d ∧ after.lstat q = none
      rw [u.fs.lstat_remove after d removed]
      by_cases here : q = d
      · exact Or.inr ⟨here, if_pos here⟩
      · exact Or.inl (if_neg here)

theorem unmake_leaf (u : Undo) (d : Path) (leaf : Leaf u.fs d) :
    (unmake none u d).fs.lstat d = none := by
  obtain ⟨node, notDir, found⟩ := leaf
  have named : d ≠ [] := by
    rintro rfl
    rw [Tree.lstat_root, Option.some.injEq] at found
    exact notDir found.symm
  obtain ⟨after, removed⟩ := u.fs.remove_succeeds d named (by simp [found])
    (fun q below => u.fs.lstat_below d q below (by simpa [found] using notDir))
  simp [unmake, removed, u.fs.lstat_remove after d removed]

/-- os.Remove takes a link for an emptied folder: what is listed is gone. -/
theorem unmakes_gone (ds : List Path) (u : Undo) (x : Path)
    (leafless : u.fs.lstat x = none ∨ Leaf u.fs x ∧ x ∈ ds) :
    ((ds.map UndoOp.unmake).foldl (runUndoOp none) u).fs.lstat x = none := by
  induction ds generalizing u with
  | nil =>
      rcases leafless with absent | ⟨_, listed⟩
      · exact absent
      · cases listed
  | cons d rest ih =>
      apply ih
      show (unmake none u d).fs.lstat x = none ∨ Leaf (unmake none u d).fs x ∧ x ∈ rest
      rcases leafless with absent | ⟨leaf, listed⟩
      · left
        rcases unmake_lstat u d x with same | ⟨_, gone⟩
        · rw [same, absent]
        · exact gone
      · by_cases here : x = d
        · left
          subst here
          exact unmake_leaf u x leaf
        · right
          rcases unmake_lstat u d x with same | ⟨own, _⟩
          · refine ⟨?_, by simpa [here] using listed⟩
            obtain ⟨node, notDir, found⟩ := leaf
            exact ⟨node, notDir, same.trans found⟩
          · exact absurd own here

/-- After the moves alone, an undo puts every file back that is not also listed
as a folder to remove again. -/
theorem undo_moves (plan : Plan) (fs : FileSystem) (m : Manifest) (held : Aside plan fs m) :
    (∀ mv ∈ m.moved, (undoRollback m fs).fs.lstat mv.fromPath = plan.before.lstat mv.fromPath) ↔
      ∀ mv ∈ m.moved, mv.fromPath ∉ m.createdDirs := by
  let kept : Manifest := { m with createdDirs := [] }
  have record : Record plan kept :=
    record_of_aside plan fs kept { held with created := by simp [kept] } (by simp [kept])
  have clear : Clear kept fs :=
    ⟨(clear_of_aside plan fs m held).way, (clear_of_aside plan fs m held).room⟩
  obtain ⟨returned, _⟩ := putBacks_clean plan kept record m.moved (fun _ => id) ⟨fs, []⟩ clear
    (fun mv member => Or.inl (held.kept mv member))
  have split : (undoRollback m fs) = ((deepestFirst m.createdDirs).map UndoOp.unmake).foldl
      (runUndoOp none) ((m.removedDirs.map UndoOp.remake).foldl (runUndoOp none)
        ((m.moved.map UndoOp.putBack).foldl (runUndoOp none) ⟨fs, []⟩)) := by
    simp [undoRollback, undoOps, held.restored, List.foldl_append]
  have standing : ∀ mv ∈ m.moved, Back plan mv ((m.removedDirs.map UndoOp.remake).foldl
      (runUndoOp none) ((m.moved.map UndoOp.putBack).foldl (runUndoOp none) ⟨fs, []⟩)).fs := by
    intro mv member
    refine undo_keeps (back_stays plan kept record mv member) _ ?_ _ (returned mv member)
    intro op listed
    obtain ⟨d, removed, rfl⟩ := List.mem_map.mp listed
    simpa [undoOps, kept] using removed
  rw [split]
  constructor
  · intro all mv member created
    have leaf := (held.placed mv member).leaf
    obtain ⟨node, notDir, found⟩ := leaf
    have gone := unmakes_gone (deepestFirst m.createdDirs) _ mv.fromPath
      (Or.inr ⟨⟨node, notDir, (standing mv member).2.trans found⟩,
        (List.mem_insertionSort _).mpr created⟩)
    rw [all mv member, found] at gone
    cases gone
  · intro apart mv member
    have whole : Record plan m := by
      refine record_of_aside plan fs m held ?_
      intro d created moved
      obtain ⟨other, known, rfl⟩ := List.mem_map.mp moved
      exact apart other known created
    refine (undo_keeps (back_stays plan m whole mv member) _ ?_ _ (standing mv member)).2
    intro op listed
    obtain ⟨d, created, rfl⟩ := List.mem_map.mp listed
    simpa [undoOps] using created

theorem undo_nothing (fs : FileSystem) : (undoRollback {} fs).fs = fs := by
  simp [undoRollback, undoOps, deepestFirst]

/-- At every point of the moves, what is moved aside is on record exactly when
nothing has been moved or the closing write has succeeded; an undo from disk
then puts it back, but for a moved link that stood where a folder is missing. -/
theorem recorded_from_close (plan : Plan) (s : Moves) (reached : Reachable (movesSystem plan) s) :
    (Recorded s ↔ s.memory.moved = [] ∨ Closed s) ∧
      (PutsBack plan s ↔ s.memory.moved = [] ∨
        Closed s ∧ ∀ mv ∈ s.memory.moved, mv.fromPath ∉ s.memory.createdDirs) := by
  obtain ⟨held, progress⟩ := (moves_invariant plan).reachable reached
  have empty : s.memory.moved = [] → Recorded s ∧ PutsBack plan s := by
    intro none_
    exact ⟨by simp [Recorded, none_], by simp [PutsBack, none_]⟩
  have unwritten : s.disk = some {} → s.memory.moved ≠ [] →
      ¬ Recorded s ∧ ¬ PutsBack plan s ∧ ¬ Closed s := by
    intro disk some_
    obtain ⟨mv, member⟩ := List.exists_mem_of_ne_nil _ some_
    refine ⟨?_, ?_, ?_⟩
    · intro recorded
      obtain ⟨m, found, listed⟩ := recorded mv member
      rw [disk, Option.some.injEq] at found
      subst found
      cases listed
    · intro putsBack
      have back := putsBack mv member
      obtain ⟨node, _, found⟩ := (held.placed mv member).leaf
      simp only [undoFromDisk, disk] at back
      rw [undo_nothing, held.gone _ (List.mem_map.mpr ⟨mv, member, rfl⟩), found] at back
      cases back
    · rintro ⟨m, found, status⟩
      rw [disk, Option.some.injEq] at found
      subst found
      cases status
  have open_ : s.disk = some {} →
      (Recorded s ↔ s.memory.moved = [] ∨ Closed s) ∧
      (PutsBack plan s ↔ s.memory.moved = [] ∨
        Closed s ∧ ∀ mv ∈ s.memory.moved, mv.fromPath ∉ s.memory.createdDirs) := by
    intro disk
    by_cases none_ : s.memory.moved = []
    · simp [none_, empty none_]
    · simp [none_, unwritten disk none_]
  cases progress with
  | setup left todo memory disk restore running volumes made known =>
      have none_ : s.memory.moved = [] := by simp [memory]
      simp [none_, empty none_]
  | working left todo work disk running status made => exact open_ disk
  | returned todo running disk status made =>
      rcases disk with initial | closed
      · exact open_ initial
      · have done : Closed s := ⟨s.memory, closed, status⟩
        refine ⟨⟨fun _ => Or.inr done, fun _ mv member => ⟨s.memory, closed, member⟩⟩, ?_⟩
        have undone := undo_moves plan s.fs s.memory held
        simp only [PutsBack, undoFromDisk, closed]
        rw [undone]
        constructor
        · exact fun apart => Or.inr ⟨done, apart⟩
        · rintro (none_ | ⟨_, apart⟩)
          · simp [none_]
          · exact apart
  | aborted todo stopped memory disk =>
      have none_ : s.memory.moved = [] := by simp [memory]
      simp [none_, empty none_]

/-! One changed file: where the roll back may stop. -/

def docsBefore : FileSystem :=
  .build [(["home"], .dir), (["home", "docs"], .dir), (["home", "docs", "a"], .file ⟨[1], 1⟩)]

def docsFolder : Folder where
  dir := ["home", "docs"]
  archive := "home_docs"
  top := ["home", ".pbs-rollback"]
  place := ["docs", "20260101-120000"]
  sub := "home_docs"
  snapshot := .build [(["a"], .file ⟨[2], 2⟩)]
  walker := ⟨fun _ => false, fun _ => false, true⟩

def docsPlan : Plan where
  before := docsBefore
  folders := [docsFolder]
  policy := .replace
  present := by simp
  walked := by
    intro f member
    rw [List.mem_singleton.mp member]
    rfl
  volume := by
    intro f member
    rw [List.mem_singleton.mp member]
    rfl
  unseen := by
    intro f first g second rel within
    rw [List.mem_singleton.mp first, List.mem_singleton.mp second] at within
    simp [docsFolder] at within
  separate := by
    intro f first g second _
    rw [List.mem_singleton.mp first, List.mem_singleton.mp second]

theorem docs_run (actions : List MoveAction) (s : Moves)
    (executed : actions.foldlM movesStep (Moves.start docsPlan) = some s) :
    Reachable (movesSystem docsPlan) s :=
  ⟨_, actions, rfl, run_of_foldlM movesStep (fun _ _ _ taken => taken) executed⟩

theorem stop_after_move_loses_file :
    ∃ s, Reachable (movesSystem docsPlan) s ∧ ¬ Recorded s ∧ ¬ PutsBack docsPlan s := by
  have outcome : (([.op none, .op none, .op none] : List MoveAction).foldlM movesStep
      (Moves.start docsPlan)).map (fun s =>
        (s.memory.moved.map (·.fromPath), s.disk.map (·.moved),
          ((undoFromDisk s).lstat ["home", "docs", "a"]).isNone)) =
      some ([["home", "docs", "a"]], some [], true) := by decide +kernel
  obtain ⟨s, executed, seen⟩ := Option.map_eq_some_iff.mp outcome
  simp only [Prod.mk.injEq] at seen
  obtain ⟨moved, disk, gone⟩ := seen
  obtain ⟨mv, member, source⟩ : ∃ mv ∈ s.memory.moved, mv.fromPath = ["home", "docs", "a"] :=
    List.mem_map.mp (by simp [moved])
  refine ⟨s, docs_run _ s executed, ?_, ?_⟩
  · intro recorded
    obtain ⟨m, found, listed⟩ := recorded mv member
    rw [found, Option.map_some, Option.some.injEq] at disk
    rw [disk] at listed
    cases listed
  · intro putsBack
    have back := putsBack mv member
    rw [source, Option.isNone_iff_eq_none.mp gone] at back
    cases back

theorem closed_docs_put_back :
    ∃ s, Reachable (movesSystem docsPlan) s ∧ s.memory.moved.length = 1 ∧ Recorded s ∧
      PutsBack docsPlan s := by
  have outcome : (([.op none, .op none, .op none, .op none, .op none] :
      List MoveAction).foldlM movesStep (Moves.start docsPlan)).map (fun s =>
        (s.memory.moved.length, s.disk.map (·.status), s.memory.createdDirs)) =
      some (1, some .restoring, []) := by decide +kernel
  obtain ⟨s, executed, seen⟩ := Option.map_eq_some_iff.mp outcome
  simp only [Prod.mk.injEq] at seen
  obtain ⟨moved, disk, created⟩ := seen
  have reached := docs_run _ s executed
  have closed : Closed s := Option.map_eq_some_iff.mp disk
  obtain ⟨recorded, putsBack⟩ := recorded_from_close docsPlan s reached
  exact ⟨s, reached, moved, recorded.mpr (Or.inr closed),
    putsBack.mpr (Or.inr ⟨closed, by simp [created]⟩)⟩

end ProxmoxBackup.CrashSafety
