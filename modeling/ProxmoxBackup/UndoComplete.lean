import ProxmoxBackup.UndoRollback

/-! When an undo puts everything back. `Owed` says of every path outside the
safety folders how it may still differ from the tree before the roll back, in
terms of what the record lists; no change an undo makes leaves it, so it holds
after any number of attempts that failed anywhere, and an undo in which nothing
fails settles all of it: the restored files go first, then the moved files come
back, then the removed folders, and the created ones are removed deepest first. -/

namespace ProxmoxBackup.UndoComplete

open FileTree SetCompare RollbackMoves UndoRollback

/-- A folder to remove again was not there, or was a folder that held something
and that the roll back removed. -/
def Fresh (plan : Plan) (m : Manifest) (d : Path) : Prop :=
  (plan.before.lstat d = none ∨
      plan.before.lstat d = some .dir ∧ d ∈ m.removedDirs ∧
        ∃ c, Tree.Below d c ∧ plan.before.lstat c ≠ none) ∧
    ∀ f ∈ plan.folders, ¬ d <+: f.top

theorem Fresh.more {plan : Plan} {m later : Manifest} {d : Path} (fresh : Fresh plan m d)
    (kept : ∀ p ∈ m.removedDirs, p ∈ later.removedDirs) : Fresh plan later d := by
  obtain ⟨new | ⟨folder, removed, held⟩, apart⟩ := fresh
  · exact ⟨Or.inl new, apart⟩
  · exact ⟨Or.inr ⟨folder, kept d removed, held⟩, apart⟩

structure Sincere (plan : Plan) (m : Manifest) : Prop where
  record : Record plan m
  created : ∀ d ∈ m.createdDirs, Fresh plan m d
  restored : ∀ p ∈ m.restored,
    p ∈ m.movedFrom ∨ plan.before.lstat p = none ∨ p ∈ m.removedDirs

/-- How a path that was not moved may differ from before. -/
def Differs (plan : Plan) (m : Manifest) (fs : FileSystem) (p : Path) : Prop :=
  fs.lstat p = plan.before.lstat p ∨
    fs.lstat p = none ∧ p ∈ m.removedDirs ∨
    Leaf fs p ∧ p ∈ m.restored ∧ (plan.before.lstat p = none ∨ p ∈ m.removedDirs) ∨
    fs.lstat p = some .dir ∧ plan.before.lstat p = none ∧ p ∈ m.createdDirs

structure Owed (plan : Plan) (m : Manifest) (fs : FileSystem) : Prop where
  held : ∀ mv ∈ m.moved, Waiting plan mv fs ∨ Back plan mv fs
  rest : ∀ p, plan.Live p → p ∉ m.movedFrom → Differs plan m fs p
  inside : ∀ mv ∈ m.moved, ∀ q, Tree.Below mv.fromPath q →
    fs.lstat q = none ∨ q ∈ m.restored ∧ Leaf fs q

def AsBefore (plan : Plan) (fs : FileSystem) : Prop :=
  ∀ p, plan.Live p → fs.lstat p = plan.before.lstat p

theorem Differs.same {plan : Plan} {m : Manifest} {fs after : FileSystem} {p : Path}
    (differs : Differs plan m fs p) (same : after.lstat p = fs.lstat p) :
    Differs plan m after p := by
  rcases differs with equal | ⟨absent, removed⟩ | ⟨leaf, restored, new⟩ | ⟨folder, new, created⟩
  · exact Or.inl (same.trans equal)
  · exact Or.inr (Or.inl ⟨same.trans absent, removed⟩)
  · exact Or.inr (Or.inr (Or.inl ⟨leaf.same same, restored, new⟩))
  · exact Or.inr (Or.inr (Or.inr ⟨same.trans folder, new, created⟩))

/-- The folders an undo makes are folders of the tree before. -/
theorem wanted_folder (plan : Plan) (m : Manifest) (record : Record plan m) (p : Path)
    (wanted : p ∈ m.removedDirs ∨ ∃ mv ∈ m.moved, p = mv.fromPath.dropLast) (q : Path)
    (above : q <+: p) : plan.before.lstat q = some .dir := by
  have here : plan.before.lstat p = some .dir := by
    rcases wanted with removed | ⟨mv, moved, rfl⟩
    · exact (record.removed p removed).2
    · have placed := record.placed mv moved
      obtain ⟨node, _, found⟩ := placed.leaf
      exact plan.before.lstat_above _ _
        (below_of_dropLast _ _ placed.named (List.prefix_refl _)) (by simp [found])
  by_cases same : q = p
  · rw [same, here]
  · exact plan.before.lstat_above q p ⟨above, same⟩ (by simp [here])

theorem moved_not_dir (plan : Plan) (m : Manifest) (record : Record plan m) (p : Path)
    (folder : plan.before.lstat p = some .dir) : p ∉ m.movedFrom := by
  intro moved
  obtain ⟨mv, member, rfl⟩ := List.mem_map.mp moved
  exact (record.placed mv member).closed folder

theorem below_moved_absent (plan : Plan) (m : Manifest) (record : Record plan m)
    (mv : RollbackMove) (moved : mv ∈ m.moved) (q : Path) (below : Tree.Below mv.fromPath q) :
    plan.before.lstat q = none :=
  plan.before.lstat_below _ _ below (record.placed mv moved).closed

theorem below_moved_live (plan : Plan) (m : Manifest) (record : Record plan m)
    (mv : RollbackMove) (moved : mv ∈ m.moved) (q : Path) (below : Tree.Below mv.fromPath q) :
    plan.Live q := by
  have placed := record.placed mv moved
  intro f folder within
  rcases List.prefix_or_prefix_of_prefix below.1 within with above | inside
  · exact placed.not_above f folder above
  · exact placed.live f folder inside

theorem owed_erased (plan : Plan) (m : Manifest) (fs after : FileSystem) (d : Path)
    (owed : Owed plan m fs) (held : ∀ mv ∈ m.moved, Waiting plan mv after ∨ Back plan mv after)
    (removed : fs.remove d = some after)
    (free : d ∉ m.movedFrom → plan.before.lstat d = none ∨ d ∈ m.removedDirs) :
    Owed plan m after := by
  have result := fs.lstat_remove after d removed
  refine ⟨held, ?_, ?_⟩
  · intro p live unmoved
    by_cases here : p = d
    · subst here
      have absent : after.lstat p = none := by rw [result, if_pos rfl]
      rcases free unmoved with new | dropped
      · exact Or.inl (absent.trans new.symm)
      · exact Or.inr (Or.inl ⟨absent, dropped⟩)
    · exact (owed.rest p live unmoved).same (by rw [result, if_neg here])
  · intro mv moved q below
    by_cases here : q = d
    · left
      rw [result, if_pos here]
    · have same : after.lstat q = fs.lstat q := by rw [result, if_neg here]
      rcases owed.inside mv moved q below with absent | ⟨restored, leaf⟩
      · exact Or.inl (same.trans absent)
      · exact Or.inr ⟨restored, leaf.same same⟩

theorem owed_change (plan : Plan) (m : Manifest) (sincere : Sincere plan m)
    (fs after : FileSystem) (owed : Owed plan m fs) (change : Change m fs after) :
    Owed plan m after := by
  have record := sincere.record
  have held : ∀ mv ∈ m.moved, Waiting plan mv after ∨ Back plan mv after :=
    fun mv moved => held_stays plan m record mv moved fs after (owed.held mv moved) change
  cases change with
  | grow p wanted grown =>
      refine ⟨held, ?_, ?_⟩
      · intro q live unmoved
        rcases grown q with same | ⟨_, new, above⟩
        · exact (owed.rest q live unmoved).same same
        · exact Or.inl (new.trans (wanted_folder plan m record p wanted q above).symm)
      · intro mv moved q below
        rcases grown q with same | ⟨_, _, above⟩
        · rcases owed.inside mv moved q below with absent | ⟨restored, leaf⟩
          · exact Or.inl (same.trans absent)
          · exact Or.inr ⟨restored, leaf.same same⟩
        · have folder := wanted_folder plan m record p wanted q above
          rw [below_moved_absent plan m record mv moved q below] at folder
          cases folder
  | delete p restored unmoved removed =>
      refine owed_erased plan m fs after p owed held removed ?_
      intro _
      rcases sincere.restored p restored with moved | new
      · exact absurd moved unmoved
      · exact new
  | unmake d created removed =>
      refine owed_erased plan m fs after d owed held removed ?_
      intro _
      rcases (sincere.created d created).1 with new | ⟨_, dropped, _⟩
      · exact Or.inl new
      · exact Or.inr dropped
  | clear mv moved kept removed =>
      refine owed_erased plan m fs after _ owed held removed ?_
      intro unmoved
      exact absurd (List.mem_map.mpr ⟨mv, moved, rfl⟩) unmoved
  | back mv moved renamed =>
      obtain ⟨node, notDir, found, result⟩ := fs.lstat_rename after _ _ renamed
      have placed := record.placed mv moved
      refine ⟨held, ?_, ?_⟩
      · intro p live unmoved
        have place : p ≠ mv.fromPath := by
          rintro rfl
          exact unmoved (List.mem_map.mpr ⟨mv, moved, rfl⟩)
        have copy : p ≠ mv.toPath := by
          rintro rfl
          exact placed.kept_not_live live
        exact (owed.rest p live unmoved).same (by rw [result, if_neg place, if_neg copy])
      · intro other member q below
        have place : q ≠ mv.fromPath := by
          rintro rfl
          exact (record.placed other member).unrelated placed below
        have copy : q ≠ mv.toPath := by
          rintro rfl
          exact placed.kept_not_live (below_moved_live plan m record other member _ below)
        have same : after.lstat q = fs.lstat q := by rw [result, if_neg place, if_neg copy]
        rcases owed.inside other member q below with absent | ⟨restored, leaf⟩
        · exact Or.inl (same.trans absent)
        · exact Or.inr ⟨restored, leaf.same same⟩

/-! The four passes of an undo in which nothing fails. -/

def Unrestored (m : Manifest) (fs : FileSystem) : Prop :=
  ∀ p ∈ m.restored, p ∉ m.movedFrom → ¬ Leaf fs p

theorem remove_leaf (fs : FileSystem) (p : Path) (leaf : Leaf fs p) :
    ∃ after, fs.remove p = some after ∧ after.lstat p = none := by
  obtain ⟨after, removed⟩ := fs.remove_succeeds p leaf.named leaf.not_none
    (fun q below => fs.lstat_below p q below leaf.not_dir)
  exact ⟨after, removed, by rw [fs.lstat_remove after p removed, if_pos rfl]⟩

theorem unrestored_change (plan : Plan) (m : Manifest) (record : Record plan m)
    (fs after : FileSystem) (held : Unrestored m fs) (change : Change m fs after) :
    Unrestored m after := by
  intro p restored unmoved leaf
  have erased : ∀ d, fs.remove d = some after → False := by
    intro d removed
    have result := fs.lstat_remove after d removed p
    by_cases here : p = d
    · exact leaf.not_none (result.trans (if_pos here))
    · exact held p restored unmoved (leaf.same (result.trans (if_neg here)).symm)
  cases change with
  | grow d wanted grown =>
      rcases grown p with same | ⟨_, new, _⟩
      · exact held p restored unmoved (leaf.same same.symm)
      · exact leaf.not_dir new
  | delete d known other removed => exact erased d removed
  | unmake d created removed => exact erased d removed
  | clear mv moved kept removed => exact erased _ removed
  | back mv moved renamed =>
      obtain ⟨node, _, _, result⟩ := fs.lstat_rename after _ _ renamed
      have place : p ≠ mv.fromPath := by
        rintro rfl
        exact unmoved (List.mem_map.mpr ⟨mv, moved, rfl⟩)
      have copy : p ≠ mv.toPath := by
        rintro rfl
        exact (record.placed mv moved).kept_not_live (record.restored _ restored)
      refine held p restored unmoved (leaf.same ?_)
      rw [result, if_neg place, if_neg copy]

theorem delete_lstat (u : Undo) (p q : Path) :
    (delete none u p).fs.lstat q = u.fs.lstat q ∨ (delete none u p).fs.lstat q = none := by
  unfold delete
  split
  · next after done =>
      rcases removeFileForce_cases _ _ _ _ done with ⟨same, _⟩ | removed
      · exact Or.inl (by rw [same])
      · show after.lstat q = _ ∨ after.lstat q = none
        rw [u.fs.lstat_remove after p removed]
        by_cases here : q = p
        · exact Or.inr (if_pos here)
        · exact Or.inl (if_neg here)
  · exact Or.inl rfl

theorem delete_leaf (u : Undo) (p : Path) : ¬ Leaf (delete none u p).fs p := by
  by_cases leaf : Leaf u.fs p
  · obtain ⟨after, removed, gone⟩ := remove_leaf u.fs p leaf
    have done : (delete none u p).fs = after := by simp [delete, removeFileForce, removed]
    rw [done]
    exact fun still => still.not_none gone
  · intro still
    rcases delete_lstat u p p with same | gone
    · exact leaf (still.same same.symm)
    · exact still.not_none gone

theorem deletes_clean (ps : List Path) (u : Undo) :
    ∀ p ∈ ps, ¬ Leaf ((ps.map UndoOp.delete).foldl (runUndoOp none) u).fs p := by
  have stays : ∀ (ps : List Path) (u : Undo) (p : Path), ¬ Leaf u.fs p →
      ¬ Leaf ((ps.map UndoOp.delete).foldl (runUndoOp none) u).fs p := by
    intro ps
    induction ps with
    | nil => exact fun _ _ held => held
    | cons d rest ih =>
        intro u p held
        apply ih
        intro leaf
        rcases delete_lstat u d p with same | gone
        · exact held (leaf.same same.symm)
        · exact leaf.not_none gone
  induction ps generalizing u with
  | nil => simp
  | cons d rest ih =>
      intro p member
      rcases List.mem_cons.mp member with rfl | later
      · exact stays rest _ p (delete_leaf u p)
      · exact ih _ p later

theorem clear_of_owed (plan : Plan) (m : Manifest) (record : Record plan m) (fs : FileSystem)
    (owed : Owed plan m fs) (unrestored : Unrestored m fs) : Clear m fs where
  way := by
    intro mv moved q within
    have folder := wanted_folder plan m record _ (Or.inr ⟨mv, moved, rfl⟩) q within
    have unmoved := moved_not_dir plan m record q folder
    have live := live_above plan _ _ (record.placed mv moved).live
      (within.trans (List.dropLast_prefix _))
    rcases owed.rest q live unmoved with same | ⟨absent, _⟩ | ⟨leaf, restored, _⟩ | ⟨there, _⟩
    · exact Or.inr (same.trans folder)
    · exact Or.inl absent
    · exact absurd leaf (unrestored q restored unmoved)
    · exact Or.inr there
  room := by
    intro mv moved q below
    rcases owed.inside mv moved q below with absent | ⟨restored, leaf⟩
    · exact absent
    · have unmoved : q ∉ m.movedFrom := by
        intro again
        obtain ⟨other, member, rfl⟩ := List.mem_map.mp again
        exact (record.placed mv moved).unrelated (record.placed other member) below
      exact absurd leaf (unrestored q restored unmoved)

/-- The state an undo keeps once the restored files are gone and the moved back. -/
structure Returned (plan : Plan) (m : Manifest) (fs : FileSystem) : Prop where
  owed : Owed plan m fs
  unrestored : Unrestored m fs
  back : ∀ mv ∈ m.moved, Back plan mv fs

theorem returned_change (plan : Plan) (m : Manifest) (sincere : Sincere plan m)
    (fs after : FileSystem) (held : Returned plan m fs) (change : Change m fs after) :
    Returned plan m after where
  owed := owed_change plan m sincere fs after held.owed change
  unrestored := unrestored_change plan m sincere.record fs after held.unrestored change
  back := fun mv moved =>
    back_stays plan m sincere.record mv moved fs after (held.back mv moved) change

theorem remake_clean (plan : Plan) (m : Manifest) (record : Record plan m) (u : Undo) (d : Path)
    (removed : d ∈ m.removedDirs) (held : Returned plan m u.fs) :
    (remake none u d).fs.lstat d = some .dir := by
  obtain ⟨live, _⟩ := record.removed d removed
  have clear : ∀ q, q <+: d → u.fs.lstat q = none ∨ u.fs.lstat q = some .dir := by
    intro q above
    have folder := wanted_folder plan m record d (Or.inl removed) q above
    have unmoved := moved_not_dir plan m record q folder
    rcases held.owed.rest q (live_above plan d q live above) unmoved with
      same | ⟨absent, _⟩ | ⟨leaf, restored, _⟩ | ⟨there, _⟩
    · exact Or.inr (same.trans folder)
    · exact Or.inl absent
    · exact absurd leaf (held.unrestored q restored unmoved)
    · exact Or.inr there
  obtain ⟨after, made⟩ := u.fs.mkdirAll_succeeds d clear
  have done : (remake none u d).fs = after := by simp [remake, made]
  rw [done]
  exact u.fs.mkdirAll_dir after d d made (List.prefix_refl _)

theorem remake_standing (u : Undo) (d q : Path) (standing : u.fs.lstat q = some .dir) :
    (remake none u d).fs.lstat q = some .dir := by
  unfold remake
  cases made : u.fs.mkdirAll d with
  | none => exact standing
  | some after =>
      exact (u.fs.grows_mkdirAll after d d made (List.prefix_refl _)).present standing

theorem remakes_clean (plan : Plan) (m : Manifest) (sincere : Sincere plan m) (ds : List Path)
    (listed : ∀ d ∈ ds, d ∈ m.removedDirs) (u : Undo) (held : Returned plan m u.fs) :
    ∀ d, d ∈ ds ∨ u.fs.lstat d = some .dir →
      ((ds.map UndoOp.remake).foldl (runUndoOp none) u).fs.lstat d = some .dir := by
  induction ds generalizing u with
  | nil =>
      rintro d (member | standing)
      · cases member
      · exact standing
  | cons first rest ih =>
      have known := listed first List.mem_cons_self
      have after := changes_keep (returned_change plan m sincere)
        (remake_changes m none u first known) held
      intro d found
      apply ih (fun other member => listed other (List.mem_cons_of_mem _ member)) _ after
      rcases found with member | standing
      · rcases List.mem_cons.mp member with rfl | later
        · exact Or.inr (remake_clean plan m sincere.record u d known held)
        · exact Or.inl later
      · exact Or.inr (remake_standing u first d standing)

/-- All is as before but for folders still to be removed again. -/
def Leftover (plan : Plan) (m : Manifest) (fs : FileSystem) : Prop :=
  ∀ p, plan.Live p → fs.lstat p = plan.before.lstat p ∨
    fs.lstat p = some .dir ∧ plan.before.lstat p = none ∧ p ∈ m.createdDirs

theorem leftover_of_returned (plan : Plan) (m : Manifest) (fs : FileSystem)
    (held : Returned plan m fs) (made : ∀ d ∈ m.removedDirs, fs.lstat d = some .dir) :
    Leftover plan m fs := by
  intro p live
  by_cases moved : p ∈ m.movedFrom
  · obtain ⟨mv, member, rfl⟩ := List.mem_map.mp moved
    exact Or.inl (held.back mv member).2
  · rcases held.owed.rest p live moved with
      same | ⟨absent, removed⟩ | ⟨leaf, restored, _⟩ | created
    · exact Or.inl same
    · have there := made p removed
      rw [absent] at there
      cases there
    · exact absurd leaf (held.unrestored p restored moved)
    · exact Or.inr created

theorem pathLength_below (p q : Path) (below : Tree.Below p q) : pathLength p < pathLength q := by
  obtain ⟨⟨rest, rfl⟩, different⟩ := below
  cases rest with
  | nil => simp at different
  | cons name more =>
      rw [pathLength_append, pathLength]
      omega

theorem below_created_live (plan : Plan) (m : Manifest) (d q : Path) (live : plan.Live d)
    (fresh : Fresh plan m d) (below : Tree.Below d q) : plan.Live q := by
  intro f folder within
  rcases List.prefix_or_prefix_of_prefix below.1 within with above | inside
  · exact fresh.2 f folder above
  · exact live f folder inside

/-- A folder that was there before holds what it held, so it stays. -/
theorem leftover_unmake (plan : Plan) (m : Manifest) (sincere : Sincere plan m) (u : Undo)
    (d : Path) (created : d ∈ m.createdDirs) (held : Leftover plan m u.fs) :
    Leftover plan m (unmake none u d).fs := by
  unfold unmake
  rw [if_neg (by simp)]
  cases removed : u.fs.remove d with
  | none => exact held
  | some after =>
      have result := u.fs.lstat_remove after d removed
      obtain ⟨_, empty⟩ := u.fs.remove_empty after d removed
      have fresh := sincere.created d created
      have liveDir := (sincere.record.created d created).1
      intro p live
      show after.lstat p = _ ∨ after.lstat p = _ ∧ _
      rw [result]
      by_cases here : p = d
      · left
        rw [if_pos here, here]
        rcases fresh.1 with new | ⟨_, _, c, below, there⟩
        · exact new.symm
        · exfalso
          have gone := empty c below
          rcases held c (below_created_live plan m d c liveDir fresh below) with same | ⟨folder, _⟩
          · exact there (same.symm.trans gone)
          · rw [gone] at folder
            cases folder
      · rw [if_neg here]
        exact held p live

/-- Deepest first, a created folder is empty when its turn comes. -/
theorem unmakes_clean (plan : Plan) (m : Manifest) (sincere : Sincere plan m) (ds : List Path)
    (listed : ∀ d ∈ ds, d ∈ m.createdDirs)
    (ordered : ds.Pairwise fun a b => pathLength b ≤ pathLength a) (u : Undo)
    (held : Leftover plan m u.fs)
    (later : ∀ d ∈ m.createdDirs, plan.before.lstat d = none → u.fs.lstat d ≠ none → d ∈ ds) :
    AsBefore plan ((ds.map UndoOp.unmake).foldl (runUndoOp none) u).fs := by
  induction ds generalizing u with
  | nil =>
      intro p live
      rcases held p live with same | ⟨folder, new, created⟩
      · exact same
      · have waiting := later p created new (by simp [folder])
        cases waiting
  | cons d rest ih =>
      obtain ⟨deepest, ordered⟩ := List.pairwise_cons.mp ordered
      have created := listed d List.mem_cons_self
      have fresh := sincere.created d created
      have liveDir := (sincere.record.created d created).1
      apply ih (fun other member => listed other (List.mem_cons_of_mem _ member)) ordered
      · exact leftover_unmake plan m sincere u d created held
      · intro q known new there
        have before : u.fs.lstat q ≠ none := by
          intro absent
          apply there
          show (unmake none u d).fs.lstat q = none
          unfold unmake
          rw [if_neg (by simp)]
          cases removed : u.fs.remove d with
          | none => exact absent
          | some after =>
              show after.lstat q = none
              rw [u.fs.lstat_remove after d removed, absent, ite_self]
        rcases List.mem_cons.mp (later q known new before) with rfl | more
        · exfalso
          have named : q ≠ [] := by
            rintro rfl
            rw [plan.before.lstat_root] at new
            cases new
          have empty : ∀ c, Tree.Below q c → u.fs.lstat c = none := by
            intro c below
            by_contra present
            have absent := plan.before.lstat_below q c below (by simp [new])
            rcases held c (below_created_live plan m q c liveDir fresh below) with
              same | ⟨_, _, inner⟩
            · exact present (same.trans absent)
            · rcases List.mem_cons.mp (later c inner absent present) with same | after
              · exact below.2 same.symm
              · have shallow := deepest c after
                have deeper := pathLength_below q c below
                omega
          obtain ⟨after, removed⟩ := u.fs.remove_succeeds q named before empty
          apply there
          simp [runUndoOp, unmake, removed, u.fs.lstat_remove after q removed]
        · exact more

/-- From every state that only owes what the record lists, an undo in which
nothing fails puts the live files and folders back as they were. -/
theorem undo_completes (plan : Plan) (m : Manifest) (sincere : Sincere plan m) (fs : FileSystem)
    (owed : Owed plan m fs) : AsBefore plan (undoRollback m fs).fs := by
  have record := sincere.record
  let unmoved := m.restored.filter fun p => p ∉ m.movedFrom
  let deleted := (unmoved.map UndoOp.delete).foldl (runUndoOp none) ⟨fs, []⟩
  let moved := (m.moved.map UndoOp.putBack).foldl (runUndoOp none) deleted
  let remade := (m.removedDirs.map UndoOp.remake).foldl (runUndoOp none) moved
  have split : undoRollback m fs =
      ((deepestFirst m.createdDirs).map UndoOp.unmake).foldl (runUndoOp none) remade := by
    simp only [undoRollback, undoOps, List.foldl_append]
    rfl
  have owedDeleted : Owed plan m deleted.fs := by
    refine undo_keeps (owed_change plan m sincere) _ ?_ ⟨fs, []⟩ owed
    intro op listed
    obtain ⟨p, member, rfl⟩ := List.mem_map.mp listed
    have known := List.mem_filter.mp member
    simpa [undoOps] using known
  have unrestored : Unrestored m deleted.fs := by
    intro p restored notMoved
    refine deletes_clean unmoved ⟨fs, []⟩ p ?_
    exact List.mem_filter.mpr ⟨restored, by simpa using notMoved⟩
  obtain ⟨back, _, _⟩ := putBacks_clean plan m record m.moved (fun _ => id) deleted
    (clear_of_owed plan m record _ owedDeleted unrestored) owedDeleted.held
  have movesListed : ∀ op ∈ m.moved.map UndoOp.putBack, op ∈ undoOps m := by
    intro op listed
    obtain ⟨mv, member, rfl⟩ := List.mem_map.mp listed
    exact putBack_listed m mv member
  have returned : Returned plan m moved.fs :=
    ⟨undo_keeps (owed_change plan m sincere) _ movesListed deleted owedDeleted,
      undo_keeps (unrestored_change plan m record) _ movesListed deleted unrestored, back⟩
  have remakesListed : ∀ op ∈ m.removedDirs.map UndoOp.remake, op ∈ undoOps m := by
    intro op listed
    obtain ⟨d, member, rfl⟩ := List.mem_map.mp listed
    simpa [undoOps] using member
  have still : Returned plan m remade.fs :=
    undo_keeps (returned_change plan m sincere) _ remakesListed moved returned
  have made : ∀ d ∈ m.removedDirs, remade.fs.lstat d = some .dir := fun d member =>
    remakes_clean plan m sincere m.removedDirs (fun _ => id) moved returned d (Or.inl member)
  rw [split]
  refine unmakes_clean plan m sincere _ ?_ ?_ remade
    (leftover_of_returned plan m _ still made) ?_
  · intro d member
    exact (List.mem_insertionSort _).mp member
  · exact List.pairwise_insertionSort _ _
  · intro d created _ _
    exact (List.mem_insertionSort _).mpr created

end ProxmoxBackup.UndoComplete
