import ProxmoxBackup.RollbackRestore

/-! Undo as the inverse of a roll back: whatever was moved, restored or failed,
the record on disk and the files always fit together so that an undo in which
nothing fails ends at the tree before the roll back, however many undos failed
part-way before it. -/

namespace ProxmoxBackup.RollbackInverse

open FileTree SetCompare TransitionSystem RollbackMoves UndoRollback UndoComplete RollbackRestore

theorem created_unmoved (plan : Plan) (m : Manifest) (placed : ∀ mv ∈ m.moved, Placed plan mv)
    (created : ∀ d ∈ m.createdDirs, Fresh plan m d) : ∀ d ∈ m.createdDirs, d ∉ m.movedFrom := by
  intro d listed moved
  obtain ⟨mv, member, rfl⟩ := List.mem_map.mp moved
  have leaf := (placed mv member).leaf
  rcases (created _ listed).1 with absent | ⟨folder, _⟩
  · exact leaf.not_none absent
  · exact leaf.not_dir folder

/-- The moves alone leave a record from which all can be put back. -/
theorem owed_of_aside (plan : Plan) (fs : FileSystem) (m : Manifest) (held : Aside plan fs m) :
    Owed plan m fs where
  held := fun mv moved => Or.inl (held.kept mv moved)
  rest := by
    intro p live unmoved
    by_cases removed : p ∈ m.removedDirs
    · exact Or.inr (Or.inl ⟨(held.removed p removed).2.2, removed⟩)
    · exact Or.inl (held.same p live unmoved removed)
  inside := fun mv moved q below => Or.inl ((clear_of_aside plan fs m held).room mv moved q below)

theorem sincere_of_aside (plan : Plan) (fs : FileSystem) (m : Manifest) (held : Aside plan fs m)
    (created : ∀ d ∈ m.createdDirs, Fresh plan m d) : Sincere plan m where
  record := record_of_aside plan fs m held (created_unmoved plan m held.placed created)
  created := created
  restored := by simp [held.restored]

theorem archives_start (plan : Plan) (s : Moves) (noted : Noted plan s) :
    ∀ a ∈ restores plan s, ArchiveOk plan s.memory a.1 a.2 := by
  intro a member
  unfold restores at member
  split at member
  · cases member
  · obtain ⟨f, folder, rfl⟩ := List.mem_map.mp (List.mem_filter.mp member).1
    refine ⟨folder, ?_⟩
    intro rel listed
    obtain ⟨entry, chosen, rfl⟩ := List.mem_map.mp listed
    obtain ⟨known, archive⟩ := List.mem_filter.mp chosen
    obtain ⟨g, other, same, wanted⟩ := noted.listed entry known
    have one : g = f :=
      plan.separate g other f folder (Or.inl (same.trans (of_decide_eq_true archive)))
    exact one ▸ wanted

theorem restoring_start (plan : Plan) (s : Moves) (sound : Sound plan s) (noted : Noted plan s)
    (ended : s.todo = []) (running : s.aborted = false) :
    Restoring plan (Restore.start plan s) := by
  obtain ⟨held, progress⟩ := sound
  have same : reported (Restore.start plan s) = s.memory := by
    have empty : [] = s.memory.restored := held.restored.symm
    simp only [reported, Restore.start, Restore.results, List.append_nil]
    rw [empty]
  cases progress with
  | setup left todo memory disk restore run volumes made known => simp [todo] at ended
  | working left todo work disk run status made => simp [todo] at ended
  | aborted todo stopped memory disk => simp [running] at stopped
  | returned todo run disk status made =>
      refine ⟨?_, ?_, held.kept, held.restored, status, disk, archives_start plan s noted, ?_⟩
      · rw [same]
        exact sincere_of_aside plan s.fs s.memory held noted.created
      · rw [same]
        exact owed_of_aside plan s.fs s.memory held
      · intro w walking
        cases walking

/-! One operation of an undo. -/

theorem op_problems (fault : Option UndoFault) (u : Undo) (op : UndoOp)
    (clean : (runUndoOp fault u op).problems = []) : u.problems = [] := by
  have grows : u.problems <+: (runUndoOp fault u op).problems := by
    have here : u.problems <+: u.problems := List.prefix_refl _
    have more : ∀ p, u.problems <+: u.problems ++ [p] := fun p => List.prefix_append _ _
    cases op with
    | delete p =>
        show u.problems <+: (delete fault u p).problems
        unfold delete
        split
        · exact here
        · exact more p
    | putBack mv =>
        show u.problems <+: (putBack fault u mv).problems
        unfold putBack replaceFile
        repeat' split
        all_goals first | exact here | exact more mv.fromPath
    | remake d =>
        show u.problems <+: (remake fault u d).problems
        unfold remake
        split <;> exact here
    | unmake d =>
        show u.problems <+: (unmake fault u d).problems
        unfold unmake
        split <;> exact here
  exact List.prefix_nil.mp (clean ▸ grows)

/-- What fails is among the problems, but for the two steps with folders. -/
theorem op_fault (fault : UndoFault) (u : Undo) (op : UndoOp) (loud : quiet op = false) :
    (runUndoOp (some fault) u op).problems ≠ [] := by
  cases op with
  | remake d => cases loud
  | unmake d => cases loud
  | delete p => simp [runUndoOp, delete, removeFileForce, Undo.problem]
  | putBack mv =>
      show (putBack (some fault) u mv).problems ≠ []
      unfold putBack
      split
      · simp [Undo.problem]
      · cases fault with
        | mkdir made => simp [Undo.problem]
        | remove =>
            dsimp only
            split
            · simp [Undo.problem]
            · simp [replaceFile, removeFileForce, Undo.problem]
        | rename =>
            dsimp only
            split
            · simp [Undo.problem]
            · unfold replaceFile
              split <;> simp [Undo.problem]

/-! The whole system. -/

inductive Holds (plan : Plan) : Rollback → Prop where
  | moving {s : Moves} (sound : Sound plan s) (noted : Noted plan s) : Holds plan (.moving s)
  | restoring {r : Restore} (held : Restoring plan r) : Holds plan (.restoring r)
  | unrecorded {fs : FileSystem} (same : AsBefore plan fs) : Holds plan (.idle fs none)
  | recorded {fs : FileSystem} {m : Manifest} (sincere : Sincere plan m) (owed : Owed plan m fs)
      (settled : m.status = .undone → AsBefore plan fs) : Holds plan (.idle fs (some m))
  | undoing {m : Manifest} {u : Undo} {todo : List UndoOp} {silent : Bool}
      (sincere : Sincere plan m) (owed : Owed plan m u.fs) (unsettled : m.status ≠ .undone)
      (listed : ∀ op ∈ todo, op ∈ undoOps m)
      (clean : u.problems = [] → silent = false → ∃ fs, Owed plan m fs ∧
        (todo.foldl (runUndoOp none) u).fs = (undoRollback m fs).fs) :
      Holds plan (.undoing m u todo silent)

theorem holds_begin (plan : Plan) (s : Moves) (after : Rollback) (sound : Sound plan s)
    (noted : Noted plan s) (taken : beginRestore plan s = some after) : Holds plan after := by
  unfold beginRestore at taken
  split at taken
  · next ended =>
      cases stopped : s.aborted with
      | false =>
          rw [stopped] at taken
          cases taken
          exact .restoring (restoring_start plan s sound noted (by simpa using ended) stopped)
      | true =>
          rw [stopped] at taken
          cases taken
          refine .unrecorded ?_
          obtain ⟨held, progress⟩ := sound
          have nothing : s.memory = {} := by
            cases progress with
            | setup left todo memory disk restore run volumes made known => exact memory
            | working left todo work disk run status made => simp [run] at stopped
            | returned todo run disk status made => simp [run] at stopped
            | aborted todo stopped memory disk => exact memory
          intro p live
          exact held.same p live (by simp [nothing, Manifest.movedFrom]) (by simp [nothing])
  · cases taken

theorem restoring_startArchive (plan : Plan) (r after : Restore) (span : Bool)
    (held : Restoring plan r) (taken : startArchive r span = some after) :
    Restoring plan after := by
  unfold startArchive at taken
  split at taken
  · next f includes rest idle queued =>
      cases taken
      have first := held.archives (f, includes) (by simp [queued])
      refine restoring_forget plan r _ held rfl rfl rfl ?_ ?_ ?_ ?_
      · intro p known
        exact List.mem_append_left _ (by simpa [Restore.results, Walk.start] using known)
      · intro p known
        left
        simpa [Restore.results, Walk.start, idle] using known
      · exact fun a member => held.archives a (by simp [queued, member])
      · intro w shape
        cases shape
        exact walkOk_start plan r.memory f includes span first
  · cases taken

theorem restoring_restart (plan : Plan) (r after : Restore) (held : Restoring plan r)
    (moved : ∀ p ∈ r.results, p ∈ r.memory.movedFrom) (taken : restart r = some after) :
    Restoring plan after := by
  unfold restart at taken
  split at taken
  · next w walking =>
      split at taken
      · cases taken
        refine restoring_forget plan r _ held rfl rfl rfl ?_ ?_ held.archives ?_
        · intro p known
          exact List.mem_append_left _ (by simpa [Restore.results, Walk.start] using known)
        · intro p known
          rcases List.mem_append.mp known with old | new
          · exact Or.inl (List.mem_append_left _ old)
          · exact Or.inr (moved p new)
        · intro v shape
          cases shape
          exact walkOk_start plan r.memory _ _ _ (held.walk w walking).1
      · cases taken
  · cases taken

theorem restoring_archiveDone (plan : Plan) (r after : Restore) (held : Restoring plan r)
    (taken : archiveDone r = some after) : Restoring plan after := by
  unfold archiveDone at taken
  split at taken
  · next w walking =>
      split at taken
      · cases taken
        refine restoring_forget plan r _ held rfl rfl rfl ?_ ?_ held.archives ?_
        · simp [Restore.results, walking]
        · intro p known
          left
          simpa [Restore.results, walking] using known
        · intro v shape
          cases shape
      · cases taken
  · cases taken

theorem restoring_fail (plan : Plan) (r : Restore) (held : Restoring plan r)
    (moved : ∀ p ∈ r.extracted ++ r.results, p ∈ r.memory.movedFrom) :
    Restoring plan (fail r) := by
  refine restoring_forget plan r _ held rfl rfl rfl ?_ ?_ ?_ ?_
  · simp [fail, Restore.results]
  · exact fun p known => Or.inr (moved p known)
  · simp [fail]
  · simp [fail]

/-- Finish leaves a record of all that was restored, on disk or not needed there. -/
theorem holds_finish (plan : Plan) (r : Restore) (success write : Bool) (after : Rollback)
    (held : Restoring plan r) (onDisk : write = false → OnDisk r)
    (taken : finish r success write = some after) : Holds plan after := by
  unfold finish at taken
  split at taken
  · next idle queued =>
      have results : r.results = [] := by simp [Restore.results, idle]
      have fewer : ∀ m : Manifest, m.status ≠ .undone → m.moved = r.memory.moved →
          m.removedDirs = r.memory.removedDirs → (∀ p ∈ m.restored, p ∈ r.extracted) →
          (∀ p ∈ r.extracted, p ∈ m.restored ∨ p ∈ r.memory.movedFrom) →
          (∀ d ∈ m.createdDirs, d ∈ r.memory.createdDirs) →
          (∀ d ∈ r.memory.createdDirs, d ∈ m.createdDirs ∨ r.fs.lstat d = none) →
          Holds plan (.idle r.fs (some m)) := by
        intro m unsettled moved removed less kept createdLess created
        refine .recorded ?_ ?_ (fun settled => absurd settled unsettled)
        · refine sincere_fewer plan (reported r) m held.sincere moved removed ?_ createdLess
          exact fun p known => List.mem_append_left _ (less p known)
        · refine owed_fewer plan (reported r) m r.fs held.sincere.record held.owed moved removed ?_
            created
          intro p known
          exact kept p (by simpa [reported, results] using known)
      cases write with
      | true =>
          cases taken
          refine fewer (finished r success) ?_ rfl rfl ?_ ?_ (fun _ => id) (fun _ => Or.inl)
          · show (if _ then Status.done else Status.failed) ≠ _
            split <;> simp
          · intro p known
            simpa [finished, held.empty] using known
          · exact fun p known => Or.inl (List.mem_append_right _ known)
      | false =>
          cases taken
          obtain ⟨m, disk, moved, removed, created, extracted⟩ := onDisk rfl
          have disk : r.disk = some m := disk
          have shape : m.restored = [] ∧ m.status ≠ .undone ∧
              ∀ d ∈ m.createdDirs, d ∈ r.memory.createdDirs := by
            rcases held.disk with initial | closed
            · rw [disk, Option.some.injEq] at initial
              simp [initial]
            · rw [disk, Option.some.injEq] at closed
              simp [closed, held.empty, held.status]
          obtain ⟨none_, unsettled, createdLess⟩ := shape
          show Holds plan (.idle r.fs r.disk)
          rw [disk]
          exact fewer m unsettled moved removed (by simp [none_])
            (fun p known => Or.inr (extracted p known)) createdLess created
  · cases taken

theorem holds_undoOp (plan : Plan) (m : Manifest) (u : Undo) (op : UndoOp) (rest : List UndoOp)
    (silent : Bool) (fault : Option UndoFault)
    (held : Holds plan (.undoing m u (op :: rest) silent)) :
    Holds plan (.undoing m (runUndoOp fault u op) rest (silent || fault.isSome && quiet op)) := by
  cases held with
  | undoing sincere owed unsettled listed clean =>
      have known := listed op List.mem_cons_self
      refine .undoing sincere ?_ unsettled
        (fun other member => listed other (List.mem_cons_of_mem _ member)) ?_
      · exact changes_keep (owed_change plan m sincere) (undoOp_changes m fault u op known) owed
      · intro clear heard
        obtain ⟨before, loud⟩ : silent = false ∧ (fault.isSome = true → quiet op = false) := by
          simpa using heard
        cases fault with
        | none => exact clean (op_problems none u op clear) before
        | some fault => exact absurd clear (op_fault fault u op (loud rfl))

theorem holds_undoDone (plan : Plan) (m : Manifest) (u : Undo) (silent write : Bool)
    (held : Holds plan (.undoing m u [] silent))
    (heard : write = true → u.problems = [] → silent = false) :
    Holds plan (.idle u.fs (some (if write then undone m u else m))) := by
  cases held with
  | undoing sincere owed unsettled listed clean =>
      cases write with
      | false => exact .recorded sincere owed fun settled => absurd settled unsettled
      | true =>
          show Holds plan (.idle u.fs (some (undone m u)))
          unfold undone
          split
          · next clear =>
              have clear : u.problems = [] := by simpa using clear
              have sincereDone : Sincere plan { m with status := .undone } :=
                sincere_fewer plan m _ sincere rfl rfl (fun _ => id) (fun _ => id)
              refine .recorded sincereDone ?_ ?_
              · exact owed_fewer plan m _ u.fs sincere.record owed rfl rfl (fun _ => Or.inl)
                  (fun _ => Or.inl)
              · intro _
                obtain ⟨fs, origin, whole⟩ := clean clear (heard rfl clear)
                have whole : u.fs = (undoRollback m fs).fs := whole
                rw [whole]
                exact undo_completes plan m sincere fs origin
          · exact .recorded sincere owed fun settled => absurd settled unsettled

theorem rollback_invariant (plan : Plan) :
    Invariant ((rollbackSystem plan).restrict (Meets plan)) (Holds plan) where
  start := by
    rintro state rfl
    refine .moving ((moves_invariant plan).start _ rfl) ⟨?_, ?_⟩
    · simp [Moves.start]
    · simp [Moves.start]
  step := by
    rintro before action after held ⟨taken, meets⟩
    replace taken : rollbackStep plan before action = some after := taken
    unfold rollbackStep at taken
    split at taken
    · next s move =>
        obtain ⟨next, moved, rfl⟩ := Option.map_eq_some_iff.mp taken
        cases held with
        | moving sound noted =>
            exact .moving ((moves_invariant plan).step _ _ _ sound moved)
              (noted_step plan s next move sound noted meets moved)
    · next s =>
        cases held with
        | moving sound noted => exact holds_begin plan s after sound noted taken
    · next r span =>
        obtain ⟨next, started, rfl⟩ := Option.map_eq_some_iff.mp taken
        cases held with
        | restoring held => exact .restoring (restoring_startArchive plan r next span held started)
    · next r fault =>
        obtain ⟨next, extracted, rfl⟩ := Option.map_eq_some_iff.mp taken
        cases held with
        | restoring held =>
            exact .restoring (restoring_extract plan r next fault held meets extracted)
    · next r =>
        obtain ⟨next, again, rfl⟩ := Option.map_eq_some_iff.mp taken
        cases held with
        | restoring held => exact .restoring (restoring_restart plan r next held (of_decide_eq_true meets) again)
    · next r =>
        obtain ⟨next, ended, rfl⟩ := Option.map_eq_some_iff.mp taken
        cases held with
        | restoring held => exact .restoring (restoring_archiveDone plan r next held ended)
    · next r =>
        cases taken
        cases held with
        | restoring held => exact .restoring (restoring_fail plan r held (of_decide_eq_true meets))
    · next r success write =>
        cases held with
        | restoring held =>
            refine holds_finish plan r success write after held ?_ taken
            rintro rfl
            exact of_decide_eq_true meets
    · next fs m =>
        split at taken
        · cases taken
        · next unsettled =>
            cases taken
            cases held with
            | recorded sincere owed settled =>
                exact .undoing sincere owed unsettled (fun _ => id) fun _ _ => ⟨fs, owed, rfl⟩
    · next m u op rest silent fault =>
        cases taken
        exact holds_undoOp plan m u op rest silent fault held
    · next m u todo silent =>
        cases taken
        cases held with
        | undoing sincere owed unsettled listed clean =>
            exact .recorded sincere owed fun settled => absurd settled unsettled
    · next m u silent write =>
        cases taken
        refine holds_undoDone plan m u silent write held ?_
        rintro rfl
        exact of_decide_eq_true meets
    · cases taken

/-- In every run that only takes steps an undo can follow: a clean undo, the
first or a repeated one, ends at the tree before, a record that says undone
stands beside that tree, and no step of an undo disturbs a file already back. -/
theorem undo_inverts (plan : Plan) (state : Rollback)
    (reached : Reachable ((rollbackSystem plan).restrict (Meets plan)) state) :
    (∀ fs, state = .idle fs none → AsBefore plan fs) ∧
    (∀ fs m, state = .idle fs (some m) →
      AsBefore plan (undoRollback m fs).fs ∧ (m.status = .undone → AsBefore plan fs)) ∧
    ∀ m u op rest silent, state = .undoing m u (op :: rest) silent →
      ∀ fault, ∀ mv ∈ m.moved, Back plan mv u.fs → Back plan mv (runUndoOp fault u op).fs := by
  have held := (rollback_invariant plan).reachable reached
  refine ⟨?_, ?_, ?_⟩
  · rintro fs rfl
    cases held with
    | unrecorded same => exact same
  · rintro fs m rfl
    cases held with
    | recorded sincere owed settled => exact ⟨undo_completes plan m sincere fs owed, settled⟩
  · rintro m u op rest silent rfl fault mv moved back
    cases held with
    | undoing sincere owed unsettled listed clean =>
        exact changes_keep (back_stays plan m sincere.record mv moved)
          (undoOp_changes m fault u op (listed op List.mem_cons_self)) back

/-! A folder with one changed and one missing file. -/

def homeFolder : Folder where
  dir := ["home"]
  archive := "home"
  top := [".pbs-rollback"]
  place := ["home", "20260101-120000"]
  sub := "home"
  snapshot := .build [(["a"], .file ⟨[2], 2⟩), (["sub"], .dir), (["sub", "b"], .file ⟨[3], 3⟩)]
  walker := ⟨fun _ => false, fun _ => false, true⟩

def homePlan : Plan where
  before := .build [(["home"], .dir), (["home", "a"], .file ⟨[1], 1⟩)]
  folders := [homeFolder]
  policy := .replace
  present := by simp
  walked := by
    intro f member
    rw [List.mem_singleton.mp member]
    rfl
  volume := by
    intro f member
    rw [List.mem_singleton.mp member]
    rfl
  unseen := by
    intro f first g second rel within
    rw [List.mem_singleton.mp first, List.mem_singleton.mp second] at within
    simp [homeFolder] at within
  separate := by
    intro f first g second _
    rw [List.mem_singleton.mp first, List.mem_singleton.mp second]

/-- All the moves, and the missing file restored. -/
def movedAndRestored : List Action :=
  List.replicate 6 (.moves (.op none)) ++ [.begin, .startArchive true, .extract none]

def cancelledEarly : List Action := movedAndRestored ++ [.fail, .finish false true]

def undoneOnce : List Action :=
  movedAndRestored ++ [.extract none, .archiveDone, .finish true true, .undo, .undoOp none,
    .undoOp (some .rename), .undoStops]

/-- What a record on disk lists, whether `p` is there, and whether it is after an undo. -/
def seen (p : Path) : Rollback → Option (List Path × List Path × Bool × Bool)
  | .idle fs (some m) =>
      some (m.movedFrom, m.restored, (fs.lstat p).isSome, ((undoRollback m fs).fs.lstat p).isSome)
  | _ => none

theorem seen_shape (p : Path) (state : Rollback) (moved restored : List Path) (here after : Bool)
    (found : seen p state = some (moved, restored, here, after)) : ∃ fs m,
      state = .idle fs (some m) ∧ m.movedFrom = moved ∧ m.restored = restored ∧
        (fs.lstat p).isSome = here ∧ ((undoRollback m fs).fs.lstat p).isSome = after := by
  unfold seen at found
  split at found
  · next fs m =>
      simp only [Option.some.injEq, Prod.mk.injEq] at found
      exact ⟨fs, m, rfl, found⟩
  · cases found

/-- The restore is cancelled after its first file: nobody records that file. -/
theorem cancelled_restore_leaves_file :
    ∃ fs m, Reachable (rollbackSystem homePlan) (.idle fs (some m)) ∧
      ¬ AsBefore homePlan (undoRollback m fs).fs := by
  have outcome : (cancelledEarly.foldlM (rollbackStep homePlan)
      (.moving (Moves.start homePlan))).map (seen ["home", "sub", "b"]) =
      some (some ([["home", "a"]], [], true, true)) := by decide +kernel
  obtain ⟨state, executed, found⟩ := Option.map_eq_some_iff.mp outcome
  obtain ⟨fs, m, rfl, _, _, _, stays⟩ := seen_shape _ _ _ _ _ _ found
  refine ⟨fs, m, ⟨_, _, rfl, run_of_foldlM (rollbackStep homePlan) (fun _ _ _ taken => taken)
    executed⟩, ?_⟩
  intro same
  have absent := same ["home", "sub", "b"] (by
    intro f member
    rw [List.mem_singleton.mp member]
    decide)
  rw [absent] at stays
  revert stays
  decide

/-- A whole restore, an undo that stops after a failed rename, and another undo. -/
theorem home_undone_twice :
    ∃ fs m, Reachable ((rollbackSystem homePlan).restrict (Meets homePlan)) (.idle fs (some m)) ∧
      m.movedFrom = [["home", "a"]] ∧ m.restored = [["home", "sub", "b"], ["home", "a"]] ∧
        fs.lstat ["home", "a"] = none ∧ AsBefore homePlan (undoRollback m fs).fs := by
  have outcome : (undoneOnce.foldlM (checked (rollbackStep homePlan) (Meets homePlan))
      (.moving (Moves.start homePlan))).map (seen ["home", "a"]) =
      some (some ([["home", "a"]], [["home", "sub", "b"], ["home", "a"]], false, true)) := by
    decide +kernel
  obtain ⟨state, executed, found⟩ := Option.map_eq_some_iff.mp outcome
  obtain ⟨fs, m, rfl, moved, restored, gone, _⟩ := seen_shape _ _ _ _ _ _ found
  have reached : Reachable ((rollbackSystem homePlan).restrict (Meets homePlan))
      (.idle fs (some m)) :=
    reachable_of_checked (fun _ _ _ taken => taken) rfl executed
  exact ⟨fs, m, reached, moved, restored, by simpa using gone,
    ((undo_inverts homePlan _ reached).2.1 fs m rfl).1⟩

end ProxmoxBackup.RollbackInverse
