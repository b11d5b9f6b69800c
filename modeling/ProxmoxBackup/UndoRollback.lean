import ProxmoxBackup.RollbackMoves

/-! UndoRollback of gui/undelete_rollback.go: the operations it makes from the
record it has read, each of which may fail, and what they do to a file that was
moved aside. A file that is back stays back; one that is not is still in the
safety folder. The texts of the problems are left out, as is tidying away the
emptied safety folder, and the checks that refuse a record of another set. -/

namespace ProxmoxBackup.UndoRollback

open FileTree SetCompare RollbackMoves

inductive UndoOp where
  | delete (p : Path)
  | putBack (mv : RollbackMove)
  | remake (d : Path)
  | unmake (d : Path)

def undoOps (m : Manifest) : List UndoOp :=
  (m.restored.filter fun p => p ∉ m.movedFrom).map .delete ++ m.moved.map .putBack ++
    m.removedDirs.map .remake ++ (deepestFirst m.createdDirs).map .unmake

inductive UndoFault where
  | mkdir (made : Nat)
  | remove
  | rename
  deriving DecidableEq

structure Undo where
  fs : FileSystem
  problems : List Path

def Undo.problem (u : Undo) (p : Path) : Undo := { u with problems := u.problems ++ [p] }

/-- os.IsNotExist of removing `p`: nothing there, and no file on the way. -/
def notExist (fs : FileSystem) (p : Path) : Bool :=
  (fs.lstat p).isNone &&
    p.inits.all fun q => q = p || (fs.lstat q).isNone || fs.lstat q = some .dir

/-- removeFileForce, where a file that is not there is no failure. -/
def removeFileForce (fails : Bool) (fs : FileSystem) (p : Path) : Option FileSystem :=
  if fails then none
  else match fs.remove p with
    | some after => some after
    | none => if notExist fs p then some fs else none

def delete (fault : Option UndoFault) (u : Undo) (p : Path) : Undo :=
  match removeFileForce fault.isSome u.fs p with
  | some fs => { u with fs := fs }
  | none => u.problem p

/-- Past the making of the folder the file goes back to. -/
def replaceFile (fault : Option UndoFault) (u : Undo) (ready : FileSystem) (mv : RollbackMove) :
    Undo :=
  match removeFileForce (fault = some .remove) ready mv.fromPath with
  | none => Undo.problem { u with fs := ready } mv.fromPath
  | some cleared =>
      match if fault = some .rename then none else cleared.rename mv.toPath mv.fromPath with
      | none => Undo.problem { u with fs := cleared } mv.fromPath
      | some after => { u with fs := after }

def putBack (fault : Option UndoFault) (u : Undo) (mv : RollbackMove) : Undo :=
  if (u.fs.lstat mv.toPath).isNone then u.problem mv.fromPath
  else match fault with
    | some (.mkdir made) =>
        Undo.problem { u with fs := mkdirPartly u.fs mv.fromPath.dropLast made } mv.fromPath
    | other =>
        match u.fs.mkdirAll mv.fromPath.dropLast with
        | none => u.problem mv.fromPath
        | some ready => replaceFile other u ready mv

/-- Neither of the two steps with folders reports a failure. -/
def remake (fault : Option UndoFault) (u : Undo) (d : Path) : Undo :=
  match fault with
  | some (.mkdir made) => { u with fs := mkdirPartly u.fs d made }
  | some _ => u
  | none => { u with fs := (u.fs.mkdirAll d).getD u.fs }

def unmake (fault : Option UndoFault) (u : Undo) (d : Path) : Undo :=
  if fault.isSome then u else { u with fs := (u.fs.remove d).getD u.fs }

def runUndoOp (fault : Option UndoFault) (u : Undo) : UndoOp → Undo
  | .delete p => delete fault u p
  | .putBack mv => putBack fault u mv
  | .remake d => remake fault u d
  | .unmake d => unmake fault u d

/-- An undo in which nothing fails by itself. -/
def undoRollback (m : Manifest) (fs : FileSystem) : Undo :=
  (undoOps m).foldl (runUndoOp none) ⟨fs, []⟩

/-! What a record says, whatever has become of the files since. -/

structure Record (plan : Plan) (m : Manifest) : Prop where
  placed : ∀ mv ∈ m.moved, Placed plan mv
  once : ∀ a ∈ m.moved, ∀ b ∈ m.moved, a.fromPath = b.fromPath → a = b
  removed : ∀ d ∈ m.removedDirs, plan.Live d ∧ plan.before.lstat d = some .dir
  created : ∀ d ∈ m.createdDirs, plan.Live d ∧ d ∉ m.movedFrom
  restored : ∀ p ∈ m.restored, plan.Live p

theorem Record.apart {plan : Plan} {m : Manifest} (record : Record plan m) {a b : RollbackMove}
    (first : a ∈ m.moved) (second : b ∈ m.moved) (same : a.toPath = b.toPath) : a = b :=
  record.once a first b second ((record.placed a first).apart (record.placed b second) same)

theorem record_of_aside (plan : Plan) (fs : FileSystem) (m : Manifest) (held : Aside plan fs m)
    (apart : ∀ d ∈ m.createdDirs, d ∉ m.movedFrom) : Record plan m where
  placed := held.placed
  once := held.once
  removed := fun d member => ⟨(held.removed d member).1, (held.removed d member).2.1⟩
  created := fun d member => ⟨held.created d member, apart d member⟩
  restored := by simp [held.restored]

/-- The single changes an undo makes to the file system. -/
inductive Change (m : Manifest) (fs after : FileSystem) : Prop where
  | grow (p : Path) (wanted : p ∈ m.removedDirs ∨ ∃ mv ∈ m.moved, p = mv.fromPath.dropLast)
      (grown : fs.Grows after p)
  | delete (p : Path) (restored : p ∈ m.restored) (unmoved : p ∉ m.movedFrom)
      (removed : fs.remove p = some after)
  | unmake (d : Path) (created : d ∈ m.createdDirs) (removed : fs.remove d = some after)
  | clear (mv : RollbackMove) (moved : mv ∈ m.moved) (kept : fs.lstat mv.toPath ≠ none)
      (removed : fs.remove mv.fromPath = some after)
  | back (mv : RollbackMove) (moved : mv ∈ m.moved)
      (renamed : fs.rename mv.toPath mv.fromPath = some after)

theorem removeFileForce_cases (fails : Bool) (fs after : FileSystem) (p : Path)
    (done : removeFileForce fails fs p = some after) :
    after = fs ∧ fs.lstat p = none ∨ fs.remove p = some after := by
  unfold removeFileForce at done
  split at done
  · cases done
  · split at done
    · next removed => exact Or.inr (done ▸ removed)
    · split at done
      · next absent =>
          left
          cases done
          exact ⟨rfl, by simp [notExist] at absent; exact absent.1⟩
      · cases done

theorem delete_changes (m : Manifest) (fault : Option UndoFault) (u : Undo) (p : Path)
    (restored : p ∈ m.restored) (unmoved : p ∉ m.movedFrom) :
    Relation.ReflTransGen (Change m) u.fs (delete fault u p).fs := by
  unfold delete
  split
  · next fs done =>
      rcases removeFileForce_cases _ _ _ _ done with ⟨same, _⟩ | removed
      · rw [same]
      · exact .single (.delete p restored unmoved removed)
  · exact .refl

theorem replaceFile_changes (m : Manifest) (fault : Option UndoFault) (u : Undo)
    (ready : FileSystem) (mv : RollbackMove) (moved : mv ∈ m.moved)
    (kept : ready.lstat mv.toPath ≠ none) :
    Relation.ReflTransGen (Change m) ready (replaceFile fault u ready mv).fs := by
  unfold replaceFile
  split
  · exact .refl
  · next cleared done =>
      have clearing : Relation.ReflTransGen (Change m) ready cleared := by
        rcases removeFileForce_cases _ _ _ _ done with ⟨same, _⟩ | removed
        · rw [same]
        · exact .single (.clear mv moved kept removed)
      split
      · exact clearing
      · next after returned =>
          split at returned
          · cases returned
          · exact clearing.tail (.back mv moved returned)

theorem putBack_changes (m : Manifest) (fault : Option UndoFault) (u : Undo) (mv : RollbackMove)
    (moved : mv ∈ m.moved) :
    Relation.ReflTransGen (Change m) u.fs (putBack fault u mv).fs := by
  unfold putBack
  split
  · exact .refl
  · next there =>
      have kept : u.fs.lstat mv.toPath ≠ none := by simpa using there
      split
      · exact .single (.grow mv.fromPath.dropLast (Or.inr ⟨mv, moved, rfl⟩) (mkdirPartly_grows _ _ _))
      · split
        · exact .refl
        · next ready made =>
            have grown := u.fs.grows_mkdirAll ready _ _ made (List.prefix_refl _)
            obtain ⟨node, found⟩ := Option.ne_none_iff_exists'.mp kept
            refine .head (.grow mv.fromPath.dropLast (Or.inr ⟨mv, moved, rfl⟩) grown) ?_
            exact replaceFile_changes m _ u ready mv moved (by simp [grown.present found])

theorem remake_changes (m : Manifest) (fault : Option UndoFault) (u : Undo) (d : Path)
    (removed : d ∈ m.removedDirs) :
    Relation.ReflTransGen (Change m) u.fs (remake fault u d).fs := by
  unfold remake
  split
  · exact .single (.grow d (Or.inl removed) (mkdirPartly_grows _ _ _))
  · exact .refl
  · cases made : u.fs.mkdirAll d with
    | none => exact .refl
    | some after =>
        exact .single (.grow d (Or.inl removed)
          (u.fs.grows_mkdirAll after d d made (List.prefix_refl _)))

theorem unmake_changes (m : Manifest) (fault : Option UndoFault) (u : Undo) (d : Path)
    (created : d ∈ m.createdDirs) :
    Relation.ReflTransGen (Change m) u.fs (unmake fault u d).fs := by
  unfold unmake
  split
  · exact .refl
  · cases removed : u.fs.remove d with
    | none => exact .refl
    | some after => exact .single (.unmake d created removed)

theorem undoOp_changes (m : Manifest) (fault : Option UndoFault) (u : Undo) (op : UndoOp)
    (listed : op ∈ undoOps m) :
    Relation.ReflTransGen (Change m) u.fs (runUndoOp fault u op).fs := by
  simp only [undoOps, List.mem_append] at listed
  rcases listed with ((deleted | moved) | removed) | created
  · obtain ⟨p, member, rfl⟩ := List.mem_map.mp deleted
    obtain ⟨restored, unmoved⟩ := List.mem_filter.mp member
    exact delete_changes m fault u p restored (by simpa using unmoved)
  · obtain ⟨mv, member, rfl⟩ := List.mem_map.mp moved
    exact putBack_changes m fault u mv member
  · obtain ⟨d, member, rfl⟩ := List.mem_map.mp removed
    exact remake_changes m fault u d member
  · obtain ⟨d, member, rfl⟩ := List.mem_map.mp created
    exact unmake_changes m fault u d ((List.mem_insertionSort _).mp member)

/-- What every single change keeps, every operation of the undo keeps. -/
theorem changes_keep {m : Manifest} {holds : FileSystem → Prop}
    (step : ∀ fs after, holds fs → Change m fs after → holds after) {fs after : FileSystem}
    (changes : Relation.ReflTransGen (Change m) fs after) (held : holds fs) : holds after := by
  induction changes with
  | refl => exact held
  | tail _ change ih => exact step _ _ ih change

theorem undo_keeps {m : Manifest} {holds : FileSystem → Prop}
    (step : ∀ fs after, holds fs → Change m fs after → holds after) (ops : List UndoOp)
    (listed : ∀ op ∈ ops, op ∈ undoOps m) (u : Undo) (held : holds u.fs) :
    holds (ops.foldl (runUndoOp none) u).fs := by
  induction ops generalizing u with
  | nil => exact held
  | cons op rest ih =>
      exact ih (fun other member => listed other (List.mem_cons_of_mem _ member)) _
        (changes_keep step (undoOp_changes m none u op (listed op List.mem_cons_self)) held)

theorem putBack_listed (m : Manifest) (mv : RollbackMove) (moved : mv ∈ m.moved) :
    .putBack mv ∈ undoOps m := by
  simp [undoOps, moved]

/-! A file that was moved aside: waiting in the safety folder, or back. -/

def Waiting (plan : Plan) (mv : RollbackMove) (fs : FileSystem) : Prop :=
  fs.lstat mv.toPath = plan.before.lstat mv.fromPath

def Back (plan : Plan) (mv : RollbackMove) (fs : FileSystem) : Prop :=
  fs.lstat mv.toPath = none ∧ fs.lstat mv.fromPath = plan.before.lstat mv.fromPath

/-- No change other than of `mv` itself reaches the copy of `mv` or the file put back. -/
theorem change_elsewhere (plan : Plan) (m : Manifest) (record : Record plan m)
    (fs after : FileSystem) (mv : RollbackMove) (moved : mv ∈ m.moved)
    (change : Change m fs after) :
    (after.lstat mv.toPath = fs.lstat mv.toPath ∧
        (Leaf fs mv.fromPath → after.lstat mv.fromPath = fs.lstat mv.fromPath)) ∨
      (fs.lstat mv.toPath ≠ none ∧ after.lstat mv.toPath = fs.lstat mv.toPath) ∨
      fs.rename mv.toPath mv.fromPath = some after := by
  have placed := record.placed mv moved
  have apart : ∀ p, plan.Live p → mv.toPath ≠ p := by
    rintro p live rfl
    exact placed.kept_not_live live
  cases change with
  | grow p wanted grown =>
      left
      have live : plan.Live p := by
        rcases wanted with removed | ⟨other, member, rfl⟩
        · exact (record.removed p removed).1
        · exact live_above plan _ _ (record.placed other member).live (List.dropLast_prefix _)
      refine ⟨grown.aside ?_, ?_⟩
      · intro within
        exact placed.kept_not_live (live_above plan _ _ live within)
      · rintro ⟨node, _, found⟩
        rw [found, grown.present found]
  | delete p restored unmoved removed =>
      left
      have result := fs.lstat_remove after p removed
      have other : mv.fromPath ≠ p := by
        rintro rfl
        exact unmoved (List.mem_map.mpr ⟨mv, moved, rfl⟩)
      exact ⟨by rw [result, if_neg (apart p (record.restored p restored))],
        fun _ => by rw [result, if_neg other]⟩
  | unmake d created removed =>
      left
      have result := fs.lstat_remove after d removed
      obtain ⟨live, unmoved⟩ := record.created d created
      have other : mv.fromPath ≠ d := by
        rintro rfl
        exact unmoved (List.mem_map.mpr ⟨mv, moved, rfl⟩)
      exact ⟨by rw [result, if_neg (apart d live)], fun _ => by rw [result, if_neg other]⟩
  | clear other member kept removed =>
      have result := fs.lstat_remove after _ removed
      have same := apart other.fromPath (record.placed other member).live
      by_cases own : mv.fromPath = other.fromPath
      · have one := record.once mv moved other member own
        subst one
        exact Or.inr (Or.inl ⟨kept, by rw [result, if_neg same]⟩)
      · exact Or.inl ⟨by rw [result, if_neg same], fun _ => by rw [result, if_neg own]⟩
  | back other member renamed =>
      by_cases own : mv.toPath = other.toPath
      · have one := record.apart moved member own
        subst one
        exact Or.inr (Or.inr renamed)
      · left
        obtain ⟨node, _, _, result⟩ := fs.lstat_rename after _ _ renamed
        have same := apart other.fromPath (record.placed other member).live
        have different : mv.fromPath ≠ other.fromPath := by
          intro equal
          exact own (congrArg RollbackMove.toPath (record.once mv moved other member equal))
        have away : mv.fromPath ≠ other.toPath := by
          intro equal
          exact (record.placed other member).kept_not_live (equal ▸ placed.live)
        exact ⟨by rw [result, if_neg same, if_neg own],
          fun _ => by rw [result, if_neg different, if_neg away]⟩

theorem back_stays (plan : Plan) (m : Manifest) (record : Record plan m) (mv : RollbackMove)
    (moved : mv ∈ m.moved) (fs after : FileSystem) (held : Back plan mv fs)
    (change : Change m fs after) : Back plan mv after := by
  obtain ⟨away, returned⟩ := held
  have leaf : Leaf fs mv.fromPath := by
    obtain ⟨node, notDir, found⟩ := (record.placed mv moved).leaf
    exact ⟨node, notDir, returned.trans found⟩
  rcases change_elsewhere plan m record fs after mv moved change with
    ⟨copy, place⟩ | ⟨kept, _⟩ | renamed
  · exact ⟨copy.trans away, (place leaf).trans returned⟩
  · exact absurd away kept
  · obtain ⟨node, _, found, _⟩ := fs.lstat_rename after _ _ renamed
    rw [away] at found
    cases found

theorem held_stays (plan : Plan) (m : Manifest) (record : Record plan m) (mv : RollbackMove)
    (moved : mv ∈ m.moved) (fs after : FileSystem)
    (held : Waiting plan mv fs ∨ Back plan mv fs) (change : Change m fs after) :
    Waiting plan mv after ∨ Back plan mv after := by
  rcases held with waiting | returned
  · rcases change_elsewhere plan m record fs after mv moved change with
      ⟨copy, _⟩ | ⟨_, copy⟩ | renamed
    · exact Or.inl (copy.trans waiting)
    · exact Or.inl (copy.trans waiting)
    · right
      obtain ⟨node, _, found, result⟩ := fs.lstat_rename after _ _ renamed
      have apart : mv.toPath ≠ mv.fromPath := by
        intro same
        exact (record.placed mv moved).kept_not_live (same ▸ (record.placed mv moved).live)
      exact ⟨by rw [result, if_neg apart, if_pos rfl], by rw [result, if_pos rfl, ← waiting, found]⟩
  · exact Or.inr (back_stays plan m record mv moved fs after returned change)

/-! Putting back where nothing is in the way: every folder above a moved file
is there or can be made, and nothing lies below its place. -/

structure Clear (m : Manifest) (fs : FileSystem) : Prop where
  way : ∀ mv ∈ m.moved, ∀ q, q <+: mv.fromPath.dropLast →
    fs.lstat q = none ∨ fs.lstat q = some .dir
  room : ∀ mv ∈ m.moved, ∀ q, Tree.Below mv.fromPath q → fs.lstat q = none

theorem below_of_dropLast (p q : Path) (named : p ≠ []) (within : q <+: p.dropLast) :
    Tree.Below q p := by
  refine ⟨within.trans (List.dropLast_prefix p), ?_⟩
  rintro rfl
  have shorter := within.length_le
  rw [List.length_dropLast] at shorter
  have := List.length_pos_of_ne_nil named
  omega

/-- What the moves left behind is a clear way back. -/
theorem clear_of_aside (plan : Plan) (fs : FileSystem) (m : Manifest) (held : Aside plan fs m) :
    Clear m fs := by
  have absent : ∀ q, plan.Live q → plan.before.lstat q = none → fs.lstat q = none := by
    intro q live missing
    by_cases moved : q ∈ m.movedFrom
    · exact held.gone q moved
    · by_cases removed : q ∈ m.removedDirs
      · exact (held.removed q removed).2.2
      · rw [held.same q live moved removed, missing]
  constructor
  · intro mv member q within
    have placed := held.placed mv member
    have live := live_above plan _ _ placed.live (within.trans (List.dropLast_prefix _))
    by_cases moved : q ∈ m.movedFrom
    · exact Or.inl (held.gone q moved)
    · by_cases removed : q ∈ m.removedDirs
      · exact Or.inl (held.removed q removed).2.2
      · right
        obtain ⟨node, _, found⟩ := placed.leaf
        rw [held.same q live moved removed]
        exact plan.before.lstat_above q _ (below_of_dropLast _ _ placed.named within) (by simp [found])
  · intro mv member q below
    have placed := held.placed mv member
    refine absent q ?_ (plan.before.lstat_below _ _ below placed.closed)
    intro f folder within
    rcases List.prefix_or_prefix_of_prefix below.1 within with above | inside
    · exact placed.not_above f folder above
    · exact placed.live f folder inside

theorem dropLast_of_below (p q : Path) (below : Tree.Below q p) : q <+: p.dropLast := by
  obtain ⟨⟨rest, rfl⟩, different⟩ := below
  have nonempty : rest ≠ [] := by
    rintro rfl
    simp at different
  rw [List.dropLast_append_of_ne_nil nonempty]
  simp

/-- The place of a moved file, once its folder is there and it is free. -/
theorem notExist_ready (ready : FileSystem) (p : Path) (absent : ready.lstat p = none)
    (way : ∀ q, q <+: p.dropLast → ready.lstat q = some .dir) : notExist ready p = true := by
  unfold notExist
  rw [Bool.and_eq_true]
  refine ⟨by simp [absent], ?_⟩
  rw [List.all_eq_true]
  intro q member
  have above := (List.mem_inits q p).mp member
  by_cases here : q = p
  · simp [here]
  · simp [way q (dropLast_of_below p q ⟨above, here⟩)]

theorem putBack_clean (plan : Plan) (m : Manifest) (record : Record plan m) (u : Undo)
    (mv : RollbackMove) (moved : mv ∈ m.moved) (clear : Clear m u.fs)
    (held : Waiting plan mv u.fs ∨ Back plan mv u.fs) :
    Back plan mv (putBack none u mv).fs ∧ Clear m (putBack none u mv).fs := by
  have placed := record.placed mv moved
  unfold putBack
  split
  · next away =>
      refine ⟨?_, clear⟩
      rcases held with waiting | returned
      · obtain ⟨node, _, found⟩ := placed.leaf
        rw [Waiting, found] at waiting
        simp [waiting] at away
      · exact returned
  · next there =>
      have waiting : Waiting plan mv u.fs := by
        rcases held with waiting | returned
        · exact waiting
        · simp [returned.1] at there
      obtain ⟨node, notDir, found⟩ := placed.leaf
      have copy : u.fs.lstat mv.toPath = some node := waiting.trans found
      obtain ⟨ready, made⟩ := u.fs.mkdirAll_succeeds mv.fromPath.dropLast (clear.way mv moved)
      have grown := u.fs.grows_mkdirAll ready _ _ made (List.prefix_refl _)
      have way : ∀ q, q <+: mv.fromPath.dropLast → ready.lstat q = some .dir :=
        fun q within => u.fs.mkdirAll_dir ready _ q made within
      have outside : ∀ q, Tree.Below mv.fromPath q → ¬ q <+: mv.fromPath.dropLast := by
        intro q below within
        have shorter := (below.1.trans within).length_le
        rw [List.length_dropLast] at shorter
        have := List.length_pos_of_ne_nil placed.named
        omega
      have empty : ∀ q, Tree.Below mv.fromPath q → ready.lstat q = none := by
        intro q below
        rw [grown.aside (outside q below)]
        exact clear.room mv moved q below
      have apart : mv.toPath ≠ mv.fromPath := by
        intro same
        exact placed.kept_not_live (same ▸ placed.live)
      obtain ⟨cleared, clearing, free, others⟩ : ∃ cleared,
          removeFileForce false ready mv.fromPath = some cleared ∧
          cleared.lstat mv.fromPath = none ∧
          ∀ q, q ≠ mv.fromPath → cleared.lstat q = ready.lstat q := by
        by_cases absent : ready.lstat mv.fromPath = none
        · refine ⟨ready, ?_, absent, fun _ _ => rfl⟩
          have nothing : ready.remove mv.fromPath = none := by
            by_contra some_
            obtain ⟨after, removed⟩ := Option.ne_none_iff_exists'.mp some_
            exact (ready.remove_empty after _ removed).1 absent
          simp [removeFileForce, nothing, notExist_ready ready _ absent way]
        · obtain ⟨after, removed⟩ := ready.remove_succeeds _ placed.named absent empty
          have result := ready.lstat_remove after _ removed
          refine ⟨after, by simp [removeFileForce, removed], by rw [result, if_pos rfl], ?_⟩
          intro q other
          rw [result, if_neg other]
      have parent : mv.fromPath.dropLast ≠ mv.fromPath :=
        (below_of_dropLast mv.fromPath _ placed.named (List.prefix_refl _)).2
      obtain ⟨after, renamed⟩ := cleared.rename_succeeds mv.toPath mv.fromPath node
        (by rw [others _ apart, grown.present copy]) notDir placed.named
        (by rw [others _ parent, way _ (List.prefix_refl _)]) (by simp [free])
      obtain ⟨found', _, copied, result⟩ := cleared.lstat_rename after _ _ renamed
      have finished : (replaceFile none u ready mv).fs = after := by
        simp [replaceFile, clearing, renamed]
      simp only [made]
      rw [finished]
      refine ⟨⟨?_, ?_⟩, ?_, ?_⟩
      · rw [result, if_neg apart, if_pos rfl]
      · rw [result, if_pos rfl, ← copied, others _ apart, grown.present copy, found]
      · intro other member q within
        have live : plan.Live q :=
          live_above plan _ _ (record.placed other member).live
            (within.trans (List.dropLast_prefix _))
        have notCopy : q ≠ mv.toPath := by
          rintro rfl
          exact placed.kept_not_live live
        have notPlace : q ≠ mv.fromPath := by
          rintro rfl
          exact placed.unrelated (record.placed other member)
            (below_of_dropLast _ _ (record.placed other member).named within)
        rw [result, if_neg notPlace, if_neg notCopy, others q notPlace]
        rcases grown q with same | ⟨_, new, _⟩
        · rw [same]
          exact clear.way other member q within
        · exact Or.inr new
      · intro other member q below
        have otherPlaced := record.placed other member
        have notPlace : q ≠ mv.fromPath := by
          rintro rfl
          exact otherPlaced.unrelated placed below
        rw [result, if_neg notPlace]
        by_cases copyPlace : q = mv.toPath
        · rw [if_pos copyPlace]
        · rw [if_neg copyPlace, others q notPlace]
          rcases grown q with same | ⟨_, _, within⟩
          · rw [same]
            exact clear.room other member q below
          · exfalso
            refine otherPlaced.unrelated placed ⟨(below.1.trans within).trans (List.dropLast_prefix _), ?_⟩
            intro same
            have shorter := (below.1.trans within).length_le
            rw [same, List.length_dropLast] at shorter
            have := List.length_pos_of_ne_nil placed.named
            omega

/-- A clean pass over the moved files puts every one of them back. -/
theorem putBacks_clean (plan : Plan) (m : Manifest) (record : Record plan m)
    (moves : List RollbackMove) (listed : ∀ mv ∈ moves, mv ∈ m.moved) (u : Undo)
    (clear : Clear m u.fs) (held : ∀ mv ∈ m.moved, Waiting plan mv u.fs ∨ Back plan mv u.fs) :
    let after := ((moves.map UndoOp.putBack).foldl (runUndoOp none) u).fs
    (∀ mv ∈ moves, Back plan mv after) ∧ Clear m after ∧
      ∀ mv ∈ m.moved, Waiting plan mv after ∨ Back plan mv after := by
  induction moves generalizing u with
  | nil => exact ⟨by simp, clear, held⟩
  | cons mv rest ih =>
      have moved := listed mv List.mem_cons_self
      obtain ⟨returned, cleared⟩ := putBack_clean plan m record u mv moved clear (held mv moved)
      have changes := putBack_changes m none u mv moved
      have kept : ∀ other ∈ m.moved, Waiting plan other (putBack none u mv).fs ∨
          Back plan other (putBack none u mv).fs :=
        fun other member => changes_keep (held_stays plan m record other member) changes
          (held other member)
      obtain ⟨others, clearAfter, heldAfter⟩ :=
        ih (fun other member => listed other (List.mem_cons_of_mem _ member)) _ cleared kept
      refine ⟨?_, clearAfter, heldAfter⟩
      intro other member
      rcases List.mem_cons.mp member with rfl | later
      · refine undo_keeps (back_stays plan m record other moved) (rest.map .putBack) ?_
          (runUndoOp none u (.putBack other)) returned
        intro op inside
        obtain ⟨x, known, rfl⟩ := List.mem_map.mp inside
        exact putBack_listed m x (listed x (List.mem_cons_of_mem _ known))
      · exact others other later

end ProxmoxBackup.UndoRollback
