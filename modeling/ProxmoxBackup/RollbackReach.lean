import ProxmoxBackup.CompareExact
import ProxmoxBackup.RollbackRestore

/-! Where a roll back of one folder ends: which operations were done when every
move succeeded, what the restore may change, and from the exact comparison what
is in the folder once every listed file is in place. -/

namespace ProxmoxBackup.RollbackReach

open FileTree SetCompare TransitionSystem RollbackMoves RollbackRestore CompareExact

/-! The moves: with no cancel, every operation is done in its turn. -/

def Performed (s : Moves) : Op → Prop
  | .missing f rel => (f.archive, rel) ∈ s.restore
  | .move f rel kind =>
      f.dir ++ rel ∈ s.memory.moveFailed ∨
        f.dir ++ rel ∈ s.memory.movedFrom ∧ (kind = .replaced → (f.archive, rel) ∈ s.restore)
  | _ => True

/-- What is listed and on record comes from operations that were done. -/
structure Tally (plan : Plan) (s : Moves) : Prop where
  restore : ∀ e ∈ s.restore, ∃ f rel, e = (f.archive, rel) ∧
    (.missing f rel ∈ mainOps plan ∨
      .move f rel .replaced ∈ mainOps plan ∧ f.dir ++ rel ∈ s.memory.movedFrom)
  moved : ∀ p ∈ s.memory.movedFrom, ∃ f rel kind, p = f.dir ++ rel ∧
    .move f rel kind ∈ mainOps plan

inductive Turn (plan : Plan) (s : Moves) : Prop where
  | setup (left : List Folder) (todo : s.todo = left.map .safety ++ .record :: (mainOps plan ++ [.close]))
  | working (done left : List Op) (whole : mainOps plan = done ++ left)
      (todo : s.todo = left ++ [.close]) (performed : ∀ op ∈ done, Performed s op)
  | returned (todo : s.todo = []) (performed : ∀ op ∈ mainOps plan, Performed s op)

def Done (plan : Plan) (s : Moves) : Prop :=
  Tally plan s ∧ (s.cancelled = false → s.aborted = false → Turn plan s)

theorem Performed.more {s after : Moves} {op : Op} (performed : Performed s op)
    (restore : ∀ e ∈ s.restore, e ∈ after.restore)
    (moved : ∀ p ∈ s.memory.movedFrom, p ∈ after.memory.movedFrom)
    (failed : ∀ p ∈ s.memory.moveFailed, p ∈ after.memory.moveFailed) : Performed after op := by
  cases op with
  | missing f rel => exact restore _ performed
  | move f rel kind =>
      rcases performed with bad | ⟨good, listed⟩
      · exact Or.inl (failed _ bad)
      · exact Or.inr ⟨moved _ good, fun replaced => restore _ (listed replaced)⟩
  | _ => trivial

/-- One operation, not cancelled. -/
structure Performs (plan : Plan) (op : Op) (s after : Moves) : Prop where
  tally : Tally plan s → op ∈ mainOps plan → Tally plan after
  restore : ∀ e ∈ s.restore, e ∈ after.restore
  moved : ∀ p ∈ s.memory.movedFrom, p ∈ after.memory.movedFrom
  failed : ∀ p ∈ s.memory.moveFailed, p ∈ after.memory.moveFailed
  performed : s.cancelled = false → Performed after op
  todo : s.cancelled = false → after.todo = s.todo
  flags : after.cancelled = s.cancelled ∧ after.aborted = s.aborted

theorem performs_same (plan : Plan) (op : Op) (s : Moves) (nothing : s.cancelled = false → Performed s op) :
    Performs plan op s s :=
  ⟨fun tally _ => tally, fun _ => id, fun _ => id, fun _ => id, nothing, fun _ => rfl, rfl, rfl⟩

theorem performs_missing (plan : Plan) (s : Moves) (f : Folder) (rel : Path) :
    Performs plan (.missing f rel) s (listMissing s f rel) where
  tally := by
    intro tally member
    refine ⟨?_, tally.moved⟩
    intro e listed
    rcases List.mem_append.mp listed with old | new
    · exact tally.restore e old
    · exact ⟨f, rel, List.mem_singleton.mp new, Or.inl member⟩
  restore := fun e member => List.mem_append_left _ member
  moved := fun _ => id
  failed := fun _ => id
  performed := fun _ => List.mem_append_right _ (List.mem_singleton.mpr rfl)
  todo := fun _ => rfl
  flags := ⟨rfl, rfl⟩

theorem performs_move (plan : Plan) (fault : Option Fault) (s : Moves) (f : Folder) (rel : Path)
    (kind : MoveKind) : Performs plan (.move f rel kind) s (move fault s f rel kind) := by
  rcases move_cases fault s f rel kind with ⟨ready, after, _, _, done⟩ | ⟨after, _, done⟩
  · rw [done]
    have own : f.dir ++ rel ∈ ({ s.memory with
        moved := s.memory.moved ++ [⟨f.dir ++ rel, f.safety ++ rel, kind⟩] } : Manifest).movedFrom := by
      simp [Manifest.movedFrom]
    have kept : ∀ p ∈ s.memory.movedFrom, p ∈ ({ s.memory with
        moved := s.memory.moved ++ [⟨f.dir ++ rel, f.safety ++ rel, kind⟩] } : Manifest).movedFrom := by
      intro p member
      simpa [Manifest.movedFrom] using Or.inl (List.mem_map.mp member)
    refine ⟨?_, ?_, kept, fun _ => id, ?_, fun _ => rfl, rfl, rfl⟩
    · intro tally member
      refine ⟨?_, ?_⟩
      · intro e listed
        have cases_ : e ∈ s.restore ∨ kind = .replaced ∧ e = (f.archive, rel) := by
          by_cases replaced : kind = .replaced
          · simp only [if_pos replaced, List.mem_append, List.mem_singleton] at listed
            exact listed.imp_right fun same => ⟨replaced, same⟩
          · simp only [if_neg replaced] at listed
            exact Or.inl listed
        rcases cases_ with old | ⟨rfl, same⟩
        · obtain ⟨g, other, shape, source⟩ := tally.restore e old
          exact ⟨g, other, shape, source.imp_right fun both => ⟨both.1, kept _ both.2⟩⟩
        · exact ⟨f, rel, same, Or.inr ⟨member, own⟩⟩
      · intro p listed
        simp only [Manifest.movedFrom, List.map_append, List.mem_append, List.map_cons, List.map_nil,
          List.mem_singleton] at listed
        rcases listed with old | rfl
        · exact tally.moved p old
        · exact ⟨f, rel, kind, rfl, member⟩
    · intro e member
      show e ∈ if kind = .replaced then _ else _
      split
      · exact List.mem_append_left _ member
      · exact member
    · intro _
      refine Or.inr ⟨own, ?_⟩
      intro replaced
      simp [replaced]
  · rw [done]
    exact ⟨fun tally _ => ⟨tally.restore, tally.moved⟩, fun _ => id, fun _ => id,
      fun p member => List.mem_append_left _ member,
      fun _ => Or.inl (List.mem_append_right _ (List.mem_singleton.mpr rfl)), fun _ => rfl, rfl, rfl⟩

theorem performs_removeDir (plan : Plan) (fault : Option Fault) (s : Moves) (f : Folder)
    (rel : Path) : Performs plan (.removeDir f rel) s (removeDir fault s (f.dir ++ rel)) := by
  rcases removeDir_cases fault s (f.dir ++ rel) with same | ⟨after, _, done⟩
  · rw [same]
    exact performs_same plan _ s fun _ => trivial
  · rw [done]
    exact ⟨fun tally _ => ⟨tally.restore, tally.moved⟩, fun _ => id, fun _ => id, fun _ => id,
      fun _ => trivial, fun _ => rfl, rfl, rfl⟩

theorem runOp_performs (plan : Plan) (fault : Option Fault) (s : Moves) (op : Op)
    (member : op ∈ mainOps plan) : Performs plan op s (runOp fault s op) := by
  have work := mainOps_work plan op member
  cases op with
  | safety f => cases work
  | record => cases work
  | close => cases work
  | missing f rel => exact performs_missing plan s f rel
  | move f rel kind =>
      unfold runOp
      dsimp only
      split
      · next cancelled =>
          refine performs_same plan _ s ?_
          intro running
          rw [running] at cancelled
          cases cancelled
      · exact performs_move plan fault s f rel kind
  | removeDir f rel => exact performs_removeDir plan fault s f rel
  | folderDone =>
      unfold runOp
      dsimp only
      split
      · next cancelled =>
          refine ⟨fun tally _ => ⟨tally.restore, tally.moved⟩, fun _ => id, fun _ => id,
            fun _ => id, fun _ => trivial, ?_, rfl, rfl⟩
          intro running
          rw [running] at cancelled
          cases cancelled
      · exact performs_same plan _ s fun _ => trivial

theorem tally_same {plan : Plan} {s after : Moves} (tally : Tally plan s)
    (restore : after.restore = s.restore) (moved : after.memory.moved = s.memory.moved) :
    Tally plan after := by
  have source : after.memory.movedFrom = s.memory.movedFrom := by simp [Manifest.movedFrom, moved]
  constructor
  · rw [restore, source]
    exact tally.restore
  · rw [source]
    exact tally.moved

theorem setup_keeps (fault : Option Fault) (s : Moves) (f : Folder) :
    (makeSafety fault s f).restore = s.restore ∧
      (makeSafety fault s f).memory = s.memory ∧
      ((makeSafety fault s f).aborted = false → (makeSafety fault s f).todo = s.todo ∧
        s.aborted = false ∧ (makeSafety fault s f).cancelled = s.cancelled) := by
  unfold makeSafety
  split
  · exact ⟨rfl, rfl, nofun⟩
  · exact ⟨rfl, rfl, nofun⟩
  · split
    · exact ⟨rfl, rfl, fun running => ⟨rfl, running, rfl⟩⟩
    · exact ⟨rfl, rfl, nofun⟩

/-- The operations left are set-up, of the plan, or the last write. -/
def Known (plan : Plan) (s : Moves) : Prop :=
  ∀ op ∈ s.todo, (∃ f, op = .safety f) ∨ op = .record ∨ op = .close ∨ op ∈ mainOps plan

theorem known_step (plan : Plan) (s after : Moves) (action : MoveAction) (known : Known plan s)
    (taken : movesStep s action = some after) : Known plan after := by
  cases action with
  | cancel =>
      cases taken
      exact known
  | op fault =>
      cases todo : s.todo with
      | nil => simp [movesStep, todo] at taken
      | cons op rest =>
          simp only [movesStep, todo, Option.some.injEq] at taken
          have left : ∀ other ∈ rest, (∃ f, other = .safety f) ∨ other = .record ∨ other = .close ∨
              other ∈ mainOps plan :=
            fun other member => known other (todo ▸ List.mem_cons_of_mem _ member)
          have fewer : after.todo = rest ∨ after.todo = [] ∨ after.todo = [.close] := by
            subst taken
            cases op with
            | safety f =>
                unfold runOp makeSafety
                dsimp only
                split
                · exact Or.inr (Or.inl rfl)
                · exact Or.inr (Or.inl rfl)
                · split
                  · exact Or.inl rfl
                  · exact Or.inr (Or.inl rfl)
            | record =>
                unfold runOp
                dsimp only
                split
                · exact Or.inr (Or.inl rfl)
                · exact Or.inl rfl
            | missing f rel => exact Or.inl rfl
            | move f rel kind =>
                unfold runOp
                dsimp only
                split
                · exact Or.inl rfl
                · rcases move_cases fault { s with todo := rest } f rel kind with
                    ⟨_, _, _, _, done⟩ | ⟨_, _, done⟩
                  · rw [done]
                    exact Or.inl rfl
                  · rw [done]
                    exact Or.inl rfl
            | removeDir f rel =>
                unfold runOp
                dsimp only
                rcases removeDir_cases fault { s with todo := rest } (f.dir ++ rel) with
                  same | ⟨_, _, done⟩
                · rw [same]
                  exact Or.inl rfl
                · rw [done]
                  exact Or.inl rfl
            | folderDone =>
                unfold runOp
                dsimp only
                split
                · exact Or.inr (Or.inr rfl)
                · exact Or.inl rfl
            | close => exact Or.inl rfl
          rcases fewer with shape | shape | shape
          · rw [Known, shape]
            exact left
          · rw [Known, shape]
            simp
          · rw [Known, shape]
            simp

/-- The step of one operation of the plan, and what is left to do after it. -/
theorem done_op (plan : Plan) (s : Moves) (fault : Option Fault) (op : Op) (rest : List Op)
    (done_ : Done plan s) (todo : s.todo = op :: rest) (member : op ∈ mainOps plan) :
    Done plan (runOp fault { s with todo := rest } op) := by
  obtain ⟨tally, turn⟩ := done_
  have performs := runOp_performs plan fault { s with todo := rest } op member
  refine ⟨performs.tally (tally_same tally rfl rfl) member, ?_⟩
  intro uncancelled running
  rw [performs.flags.1] at uncancelled
  rw [performs.flags.2] at running
  have same := performs.todo uncancelled
  have work := mainOps_work plan op member
  cases turn uncancelled running with
  | setup left shape =>
      rw [shape] at todo
      cases left with
      | nil =>
          rw [← (List.cons.inj todo).1] at work
          cases work
      | cons f left =>
          rw [← (List.cons.inj todo).1] at work
          cases work
  | working done left whole shape performed =>
      rw [shape] at todo
      cases left with
      | nil =>
          rw [← (List.cons.inj todo).1] at work
          cases work
      | cons first left =>
          obtain ⟨rfl, rfl⟩ := List.cons.inj todo
          refine .working (done ++ [first]) left (by simp [whole]) same ?_
          intro other listed
          rcases List.mem_append.mp listed with earlier | here
          · exact (performed other earlier).more performs.restore performs.moved performs.failed
          · rw [List.mem_singleton.mp here]
            exact performs.performed uncancelled
  | returned shape performed =>
      rw [shape] at todo
      cases todo

theorem not_planned (plan : Plan) {done left : List Op} {op : Op} (whole : mainOps plan = done ++ op :: left) :
    Work plan op :=
  mainOps_work plan op (by simp [whole])

theorem turn_safety {plan : Plan} {s : Moves} {f : Folder} {rest : List Op} (turn : Turn plan s)
    (todo : s.todo = .safety f :: rest) :
    ∃ left : List Folder, rest = left.map .safety ++ .record :: (mainOps plan ++ [.close]) := by
  cases turn with
  | setup left shape =>
      rw [shape] at todo
      cases left with
      | nil => simp at todo
      | cons g left => exact ⟨left, (List.cons.inj todo).2.symm⟩
  | working done left whole shape performed =>
      rw [shape] at todo
      cases left with
      | nil => simp at todo
      | cons first left =>
          have work := not_planned plan whole
          rw [(List.cons.inj todo).1] at work
          exact work.elim
  | returned shape performed => simp [shape] at todo

theorem turn_record {plan : Plan} {s : Moves} {rest : List Op} (turn : Turn plan s)
    (todo : s.todo = .record :: rest) : rest = mainOps plan ++ [.close] := by
  cases turn with
  | setup left shape =>
      rw [shape] at todo
      cases left with
      | nil => exact (List.cons.inj todo).2.symm
      | cons g left => simp at todo
  | working done left whole shape performed =>
      rw [shape] at todo
      cases left with
      | nil => simp at todo
      | cons first left =>
          have work := not_planned plan whole
          rw [(List.cons.inj todo).1] at work
          exact work.elim
  | returned shape performed => simp [shape] at todo

theorem turn_close {plan : Plan} {s : Moves} {rest : List Op} (turn : Turn plan s)
    (todo : s.todo = .close :: rest) : rest = [] ∧ ∀ op ∈ mainOps plan, Performed s op := by
  cases turn with
  | setup left shape =>
      rw [shape] at todo
      cases left with
      | nil => simp at todo
      | cons g left => simp at todo
  | working done left whole shape performed =>
      rw [shape] at todo
      cases left with
      | nil =>
          refine ⟨(List.cons.inj todo).2.symm, fun op member => performed op ?_⟩
          simpa [whole] using member
      | cons first left =>
          have work := not_planned plan whole
          rw [(List.cons.inj todo).1] at work
          exact work.elim
  | returned shape performed => simp [shape] at todo

theorem done_safety (plan : Plan) (s : Moves) (fault : Option Fault) (f : Folder) (rest : List Op)
    (done_ : Done plan s) (todo : s.todo = .safety f :: rest) :
    Done plan (makeSafety fault { s with todo := rest } f) := by
  obtain ⟨tally, turn⟩ := done_
  obtain ⟨restore, memory, going⟩ := setup_keeps fault { s with todo := rest } f
  refine ⟨tally_same tally restore (by rw [memory]), ?_⟩
  intro uncancelled running
  obtain ⟨same, before, flag⟩ := going running
  rw [flag] at uncancelled
  obtain ⟨left, shape⟩ := turn_safety (turn uncancelled before) todo
  exact .setup left (same.trans shape)

theorem done_record (plan : Plan) (s : Moves) (fault : Option Fault) (rest : List Op)
    (done_ : Done plan s) (todo : s.todo = .record :: rest) :
    Done plan (runOp fault { s with todo := rest } .record) := by
  obtain ⟨tally, turn⟩ := done_
  unfold runOp
  dsimp only
  split
  · exact ⟨tally_same tally rfl rfl, nofun⟩
  · refine ⟨tally_same tally rfl rfl, ?_⟩
    intro uncancelled running
    exact .working [] (mainOps plan) rfl (turn_record (turn uncancelled running) todo) (by simp)

theorem done_close (plan : Plan) (s : Moves) (fault : Option Fault) (rest : List Op)
    (done_ : Done plan s) (todo : s.todo = .close :: rest) :
    Done plan (close fault { s with todo := rest }) := by
  obtain ⟨tally, turn⟩ := done_
  refine ⟨tally_same tally rfl rfl, ?_⟩
  intro uncancelled running
  obtain ⟨last, performed⟩ := turn_close (turn uncancelled running) todo
  exact .returned last fun op member =>
    (performed op member).more (fun _ => id) (fun _ => id) (fun _ => id)

theorem done_start (plan : Plan) : Known plan (Moves.start plan) ∧ Done plan (Moves.start plan) := by
  refine ⟨?_, ⟨by simp [Moves.start], by simp [Moves.start, Manifest.movedFrom]⟩,
    fun _ _ => .setup plan.folders rfl⟩
  intro op member
  simp only [Moves.start, List.mem_append, List.mem_cons, List.mem_map] at member
  rcases member with ⟨f, _, rfl⟩ | rfl | main | rfl | none_
  · exact Or.inl ⟨f, rfl⟩
  · exact Or.inr (Or.inl rfl)
  · exact Or.inr (Or.inr (Or.inr main))
  · exact Or.inr (Or.inr (Or.inl rfl))
  · cases none_

theorem done_step (plan : Plan) (s after : Moves) (action : MoveAction) (known : Known plan s)
    (held : Done plan s) (taken : movesStep s action = some after) : Done plan after := by
  cases action with
  | cancel =>
      cases taken
      exact ⟨tally_same held.1 rfl rfl, nofun⟩
  | op fault =>
      cases todo : s.todo with
      | nil => simp [movesStep, todo] at taken
      | cons op rest =>
          simp only [movesStep, todo, Option.some.injEq] at taken
          subst taken
          rcases known op (by simp [todo]) with ⟨f, rfl⟩ | rfl | rfl | member
          · exact done_safety plan s fault f rest held todo
          · exact done_record plan s fault rest held todo
          · exact done_close plan s fault rest held todo
          · exact done_op plan s fault op rest held todo member

theorem done_invariant (plan : Plan) :
    Invariant (movesSystem plan) (fun s => Known plan s ∧ Done plan s) where
  start := by
    rintro s rfl
    exact done_start plan
  step := fun s action after held taken =>
    ⟨known_step plan s after action held.1 taken, done_step plan s after action held.1 held.2 taken⟩

/-! One folder: what was moved and what is to be restored. -/

theorem mem_mainOps (plan : Plan) (f : Folder) (single : plan.folders = [f]) (op : Op) :
    op ∈ mainOps plan ↔ op ∈ folderOps plan f := by
  simp [mainOps, single]

theorem missing_listed (plan : Plan) (f : Folder) (single : plan.folders = [f]) (g : Folder)
    (rel : Path) : .missing g rel ∈ mainOps plan ↔
      g = f ∧ ∃ e ∈ (plan.compare f).missing, e.path = rel := by
  rw [mem_mainOps plan f single]
  unfold folderOps
  constructor
  · intro member
    simp only [List.mem_append, List.mem_map, List.mem_singleton] at member
    rcases member with ((⟨e, listed, same⟩ | changed) | removed) | last
    · cases same
      exact ⟨rfl, e, listed, rfl⟩
    · split at changed
      · cases changed
      · simp at changed
    · split at removed
      · simp at removed
      · cases removed
    · cases last
  · rintro ⟨rfl, e, listed, rfl⟩
    simp only [List.mem_append, List.mem_map]
    exact Or.inl (Or.inl (Or.inl ⟨e, listed, rfl⟩))

theorem move_listed (plan : Plan) (f : Folder) (single : plan.folders = [f]) (g : Folder)
    (rel : Path) (kind : MoveKind) : .move g rel kind ∈ mainOps plan ↔
      g = f ∧ (kind = .replaced ∧ plan.policy ≠ .missing ∧
          (∃ c ∈ (plan.compare f).changed, c.snap.path = rel) ∨
        kind = .removed ∧ plan.policy = .exact ∧ ∃ e ∈ (plan.compare f).new, e.path = rel) := by
  rw [mem_mainOps plan f single]
  unfold folderOps
  constructor
  · intro member
    simp only [List.mem_append, List.mem_map, List.mem_singleton] at member
    rcases member with ((⟨e, listed, same⟩ | changed) | removed) | last
    · cases same
    · split at changed
      · cases changed
      · next policy =>
          obtain ⟨c, listed, same⟩ := List.mem_map.mp changed
          cases same
          exact ⟨rfl, Or.inl ⟨rfl, policy, c, listed, rfl⟩⟩
    · split at removed
      · next policy =>
          rcases List.mem_append.mp removed with new | dirs
          · obtain ⟨e, listed, same⟩ := List.mem_map.mp new
            cases same
            exact ⟨rfl, Or.inr ⟨rfl, policy, e, listed, rfl⟩⟩
          · obtain ⟨_, _, same⟩ := List.mem_map.mp dirs
            cases same
      · cases removed
    · cases last
  · rintro ⟨rfl, ⟨rfl, policy, c, listed, rfl⟩ | ⟨rfl, policy, e, listed, rfl⟩⟩
    · simp only [List.mem_append]
      exact Or.inl (Or.inl (Or.inr (by
        rw [if_neg policy]
        exact List.mem_map.mpr ⟨c, listed, rfl⟩)))
    · simp only [List.mem_append]
      exact Or.inl (Or.inr (by
        rw [if_pos policy]
        exact List.mem_append_left _ (List.mem_map.mpr ⟨e, listed, rfl⟩)))

/-- The moves ran to the end and each of them succeeded. -/
structure AllMoved (plan : Plan) (s : Moves) : Prop where
  reached : Reachable (movesSystem plan) s
  returned : s.todo = []
  uncancelled : s.cancelled = false
  running : s.aborted = false
  succeeded : s.memory.moveFailed = []

theorem all_performed (plan : Plan) (s : Moves) (all : AllMoved plan s) :
    Tally plan s ∧ ∀ op ∈ mainOps plan, Performed s op := by
  obtain ⟨_, tally, turn⟩ := (done_invariant plan).reachable all.reached
  refine ⟨tally, ?_⟩
  cases turn all.uncancelled all.running with
  | setup left todo =>
      rw [all.returned] at todo
      simp at todo
  | working done left whole todo performed =>
      rw [all.returned] at todo
      simp at todo
  | returned todo performed => exact performed

theorem moved_iff (plan : Plan) (f : Folder) (single : plan.folders = [f]) (s : Moves)
    (all : AllMoved plan s) (rel : Path) : f.dir ++ rel ∈ s.memory.movedFrom ↔
      plan.policy ≠ .missing ∧ (∃ c ∈ (plan.compare f).changed, c.snap.path = rel) ∨
        plan.policy = .exact ∧ ∃ e ∈ (plan.compare f).new, e.path = rel := by
  obtain ⟨tally, performed⟩ := all_performed plan s all
  have did : ∀ kind, .move f rel kind ∈ mainOps plan → f.dir ++ rel ∈ s.memory.movedFrom := by
    intro kind member
    rcases performed _ member with bad | ⟨good, _⟩
    · rw [all.succeeded] at bad
      cases bad
    · exact good
  constructor
  · intro moved
    obtain ⟨g, other, kind, same, member⟩ := tally.moved _ moved
    obtain ⟨rfl, listed⟩ := (move_listed plan f single g other kind).mp member
    rw [List.append_cancel_left same]
    rcases listed with ⟨_, policy, changed⟩ | ⟨_, policy, new⟩
    · exact Or.inl ⟨policy, changed⟩
    · exact Or.inr ⟨policy, new⟩
  · rintro (⟨policy, changed⟩ | ⟨policy, new⟩)
    · exact did .replaced ((move_listed plan f single f rel _).mpr
        ⟨rfl, Or.inl ⟨rfl, policy, changed⟩⟩)
    · exact did .removed ((move_listed plan f single f rel _).mpr
        ⟨rfl, Or.inr ⟨rfl, policy, new⟩⟩)

theorem included_iff (plan : Plan) (f : Folder) (single : plan.folders = [f]) (s : Moves)
    (all : AllMoved plan s) (rel : Path) : rel ∈ includesOf s f ↔
      (∃ e ∈ (plan.compare f).missing, e.path = rel) ∨
        plan.policy ≠ .missing ∧ ∃ c ∈ (plan.compare f).changed, c.snap.path = rel := by
  obtain ⟨tally, performed⟩ := all_performed plan s all
  have member_iff : rel ∈ includesOf s f ↔ (f.archive, rel) ∈ s.restore := by
    unfold includesOf
    constructor
    · intro listed
      obtain ⟨⟨archive, other⟩, member, rfl⟩ := List.mem_map.mp listed
      obtain ⟨inside, same⟩ := List.mem_filter.mp member
      simp only [decide_eq_true_eq] at same
      rw [← same]
      exact inside
    · intro listed
      exact List.mem_map.mpr ⟨_, List.mem_filter.mpr ⟨listed, by simp⟩, rfl⟩
  rw [member_iff]
  constructor
  · intro listed
    obtain ⟨g, other, same, source⟩ := tally.restore _ listed
    rcases source with member | ⟨member, _⟩
    · obtain ⟨rfl, missing⟩ := (missing_listed plan f single g other).mp member
      rw [(Prod.mk.inj same).2]
      exact Or.inl missing
    · obtain ⟨rfl, ⟨_, policy, changed⟩ | ⟨bad, _⟩⟩ := (move_listed plan f single g other _).mp member
      · rw [(Prod.mk.inj same).2]
        exact Or.inr ⟨policy, changed⟩
      · cases bad
  · rintro (missing | ⟨policy, changed⟩)
    · exact performed _ ((missing_listed plan f single f rel).mpr ⟨rfl, missing⟩)
    · rcases performed _ ((move_listed plan f single f rel .replaced).mpr
        ⟨rfl, Or.inl ⟨rfl, policy, changed⟩⟩) with bad | ⟨_, listed⟩
      · rw [all.succeeded] at bad
        cases bad
      · exact listed rfl

/-! What a restore of leaves may change. -/

/-- The files after some of a restore, against those before it. -/
def Restored (f : Folder) (includes : List Path) (before after : FileSystem) : Prop :=
  ∀ q, after.lstat q = before.lstat q ∨ before.lstat q = none ∧ after.lstat q = some .dir ∨
    ∃ rel ∈ includes, q = f.dir ++ rel ∧ before.stat q = none ∧
      after.lstat q = f.snapshot.lstat rel

theorem restored_grows {f : Folder} {includes : List Path} {before middle after : FileSystem}
    (leaves : ∀ inc ∈ includes, Leaf f.snapshot inc) (restored : Restored f includes before middle)
    {p : Path} (grown : middle.Grows after p) : Restored f includes before after := by
  intro q
  rcases grown q with same | ⟨absent, new, _⟩
  · rw [same]
    exact restored q
  · rcases restored q with kept | ⟨_, folder⟩ | ⟨rel, listed, _, _, put⟩
    · exact Or.inr (Or.inl ⟨kept ▸ absent, new⟩)
    · rw [folder] at absent
      cases absent
    · rw [put] at absent
      exact absurd absent (leaves rel listed).not_none

theorem restored_extract {f : Folder} {includes : List Path} {before middle after : FileSystem}
    (leaves : ∀ inc ∈ includes, Leaf f.snapshot inc) (restored : Restored f includes before middle)
    (fault : Option Fault) (rel : Path) (node : FileNode) (written : Option Path)
    (found : f.snapshot.lstat rel = some node) (matching : pathMatches rel includes = true)
    (done : extractEntry fault middle (f.dir ++ rel) node = (after, written)) :
    Restored f includes before after := by
  rcases extractEntry_cases fault middle after _ node written done with
    ⟨_, same⟩ | ⟨ready, made, ⟨_, same⟩ | ⟨_, notDir, _, free, put⟩⟩
  · rw [same]
    exact restored
  · rw [same]
    exact restored_grows leaves restored (middle.grows_mkdirAll _ _ _ made (List.prefix_refl _))
  · have grown := restored_grows leaves restored (middle.grows_mkdirAll _ _ _ made (List.prefix_refl _))
    rcases matched f includes rel node leaves found matching with ⟨folder, _⟩ | ⟨_, listed⟩
    · exact absurd folder notDir
    · intro q
      rw [ready.lstat_write after _ node put]
      by_cases here : q = f.dir ++ rel
      · rw [if_pos here]
        subst here
        have absent : ready.stat (f.dir ++ rel) = none := by
          cases node with
          | file content => simpa [alreadyThere] using free
          | link target resolves =>
              exact ready.lstat_of_stat _ (by simpa [alreadyThere] using free)
          | dir => exact absurd rfl notDir
        rcases grown (f.dir ++ rel) with kept | ⟨none_, folder⟩ | ⟨other, _, _, gone, _⟩
        · refine Or.inr (Or.inr ⟨rel, listed, rfl, ?_, found.symm⟩)
          simpa only [Tree.stat, kept] using absent
        · rw [Tree.stat, folder] at absent
          cases absent
        · exact Or.inr (Or.inr ⟨rel, listed, rfl, gone, found.symm⟩)
      · rw [if_neg here]
        exact grown q

/-- One archive to restore from, its entries and what they have changed. -/
structure Framed (f : Folder) (includes : List Path) (before : FileSystem) (memory : Manifest)
    (r : Restore) : Prop where
  tree : Restored f includes before r.fs
  archives : ∀ a ∈ r.archives, a = (f, includes)
  walk : ∀ w, r.walk = some w → w.folder = f ∧ w.includes = includes ∧
    ∀ rel ∈ w.entries, pathMatches rel includes = true
  memory : r.memory = memory

def FramedState (f : Folder) (includes : List Path) (before : FileSystem) (memory : Manifest) :
    Rollback → Prop
  | .moving _ => False
  | .restoring r => Framed f includes before memory r
  | _ => True

theorem walked_matching (f : Folder) (includes : List Path) (span : Bool) (rel : Path)
    (member : rel ∈ walked f includes span) : pathMatches rel includes = true := by
  obtain ⟨_, chosen⟩ := List.mem_filter.mp member
  cases span with
  | true =>
      have listed : rel ∈ includes := by simpa using chosen
      exact List.any_eq_true.mpr ⟨rel, listed, by simp⟩
  | false => simpa using chosen

theorem framed_step (plan : Plan) (f : Folder) (includes : List Path) (before : FileSystem)
    (memory : Manifest) (leaves : ∀ inc ∈ includes, Leaf f.snapshot inc) (state after : Rollback)
    (action : Action) (framed : FramedState f includes before memory state)
    (taken : rollbackStep plan state action = some after) :
    FramedState f includes before memory after := by
  unfold rollbackStep at taken
  split at taken
  · cases framed
  · cases framed
  · next r span =>
      obtain ⟨r', started, rfl⟩ := Option.map_eq_some_iff.mp taken
      unfold startArchive at started
      split at started
      · next g incs rest none_ shape =>
          cases started
          have own := framed.archives (g, incs) (by simp [shape])
          cases own
          refine ⟨framed.tree, fun a member => framed.archives a (by simp [shape, member]), ?_,
            framed.memory⟩
          intro w same
          cases same
          exact ⟨rfl, rfl, fun rel member => walked_matching f includes span rel member⟩
      · cases started
  · next r fault =>
      obtain ⟨r', extracted, rfl⟩ := Option.map_eq_some_iff.mp taken
      unfold extract at extracted
      split at extracted
      · cases extracted
      · next w walk =>
          obtain ⟨folder, same, matching⟩ := framed.walk w walk
          split at extracted
          · cases extracted
          · next rel rest entries =>
              split at extracted
              · cases extracted
              · next node found =>
                  cases outcome : extractEntry fault r.fs (w.folder.dir ++ rel) node with
                  | mk fs written =>
                      simp only [outcome, Option.some.injEq] at extracted
                      subst extracted
                      rw [folder] at found outcome
                      refine ⟨restored_extract leaves framed.tree fault rel node written found
                        (matching rel (by simp [entries])) outcome, framed.archives, ?_, framed.memory⟩
                      intro w' now
                      cases now
                      exact ⟨folder, same, fun other member =>
                        matching other (by simp [entries, member])⟩
  · next r =>
      obtain ⟨r', restarted, rfl⟩ := Option.map_eq_some_iff.mp taken
      unfold restart at restarted
      split at restarted
      · next w walk =>
          obtain ⟨folder, same, matching⟩ := framed.walk w walk
          split at restarted
          · cases restarted
            refine ⟨framed.tree, framed.archives, ?_, framed.memory⟩
            intro w' now
            cases now
            rw [folder, same]
            exact ⟨rfl, rfl, fun rel member => walked_matching f includes false rel member⟩
          · cases restarted
      · cases restarted
  · next r =>
      obtain ⟨r', closed, rfl⟩ := Option.map_eq_some_iff.mp taken
      unfold archiveDone at closed
      split at closed
      · split at closed
        · cases closed
          exact ⟨framed.tree, framed.archives, nofun, framed.memory⟩
        · cases closed
      · cases closed
  · cases taken
    exact ⟨framed.tree, nofun, nofun, framed.memory⟩
  · next r success write =>
      unfold finish at taken
      split at taken
      · cases taken
        trivial
      · cases taken
  · split at taken
    · cases taken
    · cases taken
      trivial
  · cases taken
    trivial
  · cases taken
    trivial
  · cases taken
    trivial
  · cases taken

/-! The comparison, as the files of the snapshot and the live files it is about. -/

inductive FileAttr where
  | file (size : Nat) (mtime : Int)
  | link
  deriving DecidableEq

def entryFile (e : IndexEntry) : Option FileAttr :=
  if e.isDir then none else if e.link then some .link else some (.file e.size e.mtime)

/-- The file at `rel` below the folder, as a walk of it sees it. -/
def liveFile (f : Folder) (t : FileSystem) (rel : Path) : Option FileAttr :=
  (liveEntry f.walker t f.dir rel).bind entryFile

/-- The file of the snapshot at `rel`; the file that the client adds to every
archive is none of the folder's, unless the live folder has something there. -/
def snapshotFile (plan : Plan) (f : Folder) (rel : Path) : Option FileAttr :=
  if rel = [backupMetaFileName] ∧ liveEntry f.walker plan.before f.dir rel = none then none
  else (f.snapshot.lstat rel).bind fun node => entryFile (indexEntry rel node)

/-- The files a roll back is to leave. -/
def target : Policy → Option FileAttr → Option FileAttr → Option FileAttr
  | .exact, snap, _ => snap
  | .replace, snap, live => snap.or live
  | .missing, snap, live => live.or snap

theorem entryFile_none (e : IndexEntry) : entryFile e = none ↔ e.isDir = true := by
  unfold entryFile
  cases folder : e.isDir with
  | true => simp
  | false => cases link : e.link <;> simp

theorem differs_iff (s l : IndexEntry) : Differs s l ↔
    ∃ a b, entryFile s = some a ∧ entryFile l = some b ∧ a ≠ b := by
  unfold Differs entryFile
  cases folder : s.isDir with
  | true => simp
  | false =>
      cases liveFolder : l.isDir with
      | true => simp
      | false =>
          cases link : s.link with
          | true =>
              cases liveLink : l.link with
              | true => simp
              | false => simp
          | false =>
              cases liveLink : l.link with
              | true => simp
              | false =>
                  simp
                  tauto

theorem liveFile_of_lstat (f : Folder) (t : FileSystem) (rel : Path) :
    liveFile f t rel = none ↔ liveEntry f.walker t f.dir rel = none ∨
      t.lstat (f.dir ++ rel) = some .dir := by
  unfold liveFile
  cases entry : liveEntry f.walker t f.dir rel with
  | none => simp
  | some l =>
      obtain ⟨node, found, rfl⟩ := liveEntry_spec f.walker t f.dir rel l entry
      simp [entryFile_none, indexEntry_isDir, found]

section compared

variable {plan : Plan} {f : Folder} {rel : Path} (named : rel ≠ [])
  (reached : f.walker.reaches rel = true)

theorem live_entry_at (plan : Plan) (l : IndexEntry) (here : l.path = rel) (named : rel ≠ [])
    (reached : f.walker.reaches rel = true) :
    l ∈ (walkLiveFolder f.walker plan.before f.dir).entries ↔
      liveEntry f.walker plan.before f.dir rel = some l := by
  rw [mem_walkLiveFolder_iff, here]
  exact ⟨fun listed => listed.2.2, fun made => ⟨named, reached, made⟩⟩

theorem nothing_unreadable (t : FileSystem) (readable : ∀ r, f.walker.unreadable r = false) (p : Path) :
    underAny p (walkLiveFolder f.walker t f.dir).unreadable = false := by
  have empty : (walkLiveFolder f.walker t f.dir).unreadable = [] := by
    simp [walkLiveFolder, readable]
  rw [empty]
  rfl

include named reached

theorem missing_iff (readable : ∀ r, f.walker.unreadable r = false) : (∃ e ∈ (plan.compare f).missing, e.path = rel) ↔
    snapshotFile plan f rel ≠ none ∧ liveFile f plan.before rel = none := by
  have compared := compareIndexes_compared f.snapshot f.walker plan.before f.dir
  constructor
  · rintro ⟨e, listed, rfl⟩
    rcases (compared.missing e).mp listed with nothing | ⟨inSnap, file, absent⟩
    · cases nothing
    · obtain ⟨_, node, found, same⟩ := (mem_snapshotIndex_iff f.snapshot e).mp inSnap
      have seen : (f.snapshot.lstat e.path).bind (fun node => entryFile (indexEntry e.path node)) ≠ none := by
        rw [found, Option.bind_some, ← same, Ne, entryFile_none, file]
        exact Bool.false_ne_true
      rcases absent with ⟨alone, info, _⟩ | ⟨l, there, here, folder⟩
      · have gone : liveEntry f.walker plan.before f.dir e.path = none := by
          by_contra some_
          obtain ⟨l, made⟩ := Option.ne_none_iff_exists'.mp some_
          obtain ⟨node, _, shape⟩ := liveEntry_spec f.walker plan.before f.dir e.path l made
          have here : l.path = e.path := by rw [shape, indexEntry_path]
          exact alone l ((live_entry_at plan l here named reached).mpr made) here
        refine ⟨?_, (liveFile_of_lstat f plan.before _).mpr (Or.inl gone)⟩
        rwa [snapshotFile, if_neg (fun both => info both.1)]
      · have made := (live_entry_at plan l here named reached).mp there
        refine ⟨?_, ?_⟩
        · rwa [snapshotFile, if_neg (fun both => by rw [made] at both; cases both.2)]
        · rw [liveFile, made, Option.bind_some, entryFile_none]
          exact folder
  · rintro ⟨snap, gone⟩
    unfold snapshotFile at snap
    split at snap
    · exact absurd rfl snap
    · next info =>
        obtain ⟨node, found⟩ : ∃ node, f.snapshot.lstat rel = some node := by
          rw [← Option.ne_none_iff_exists']
          intro none_
          rw [none_] at snap
          exact snap rfl
        rw [found, Option.bind_some, Ne, entryFile_none] at snap
        refine ⟨indexEntry rel node, (compared.missing _).mpr (Or.inr ⟨?_, by simpa using snap, ?_⟩),
          indexEntry_path rel node⟩
        · rw [mem_snapshotIndex_iff, indexEntry_path]
          exact ⟨named, node, found, rfl⟩
        · rw [indexEntry_path]
          rcases (liveFile_of_lstat f plan.before rel).mp gone with absent | folder
          · left
            refine ⟨?_, fun same => info ⟨same, absent⟩, nothing_unreadable plan.before readable rel⟩
            intro l there here
            rw [(live_entry_at plan l here named reached).mp there] at absent
            cases absent
          · right
            have made : liveEntry f.walker plan.before f.dir rel = some (indexEntry rel .dir) := by
              simp [liveEntry, folder]
            exact ⟨_, (live_entry_at plan _ (indexEntry_path rel .dir) named reached).mpr made,
              indexEntry_path rel .dir, rfl⟩

theorem changed_iff : (∃ c ∈ (plan.compare f).changed, c.snap.path = rel) ↔
    ∃ a b, snapshotFile plan f rel = some a ∧ liveFile f plan.before rel = some b ∧ a ≠ b := by
  have compared := compareIndexes_compared f.snapshot f.walker plan.before f.dir
  constructor
  · rintro ⟨c, listed, rfl⟩
    rcases (compared.changed c).mp listed with nothing | ⟨inSnap, there, same, differs⟩
    · cases nothing
    · obtain ⟨a, b, first, second, unequal⟩ := (differs_iff c.snap c.live).mp differs
      obtain ⟨_, node, found, shape⟩ := (mem_snapshotIndex_iff f.snapshot c.snap).mp inSnap
      have made := (live_entry_at plan c.live same.symm named reached).mp there
      refine ⟨a, b, ?_, by rw [liveFile, made, Option.bind_some, second], unequal⟩
      rw [snapshotFile, if_neg (fun both => by rw [made] at both; cases both.2), found,
        Option.bind_some, ← shape, first]
  · rintro ⟨a, b, snap, live, unequal⟩
    obtain ⟨l, made, second⟩ := Option.bind_eq_some_iff.mp live
    rw [snapshotFile, if_neg (fun both => by rw [made] at both; cases both.2)] at snap
    obtain ⟨node, found, first⟩ := Option.bind_eq_some_iff.mp snap
    obtain ⟨liveNode, _, shape⟩ := liveEntry_spec f.walker plan.before f.dir rel l made
    have here : l.path = rel := by rw [shape, indexEntry_path]
    refine ⟨⟨indexEntry rel node, l⟩, (compared.changed _).mpr (Or.inr ⟨?_, ?_, ?_, ?_⟩),
      indexEntry_path rel node⟩
    · rw [mem_snapshotIndex_iff, indexEntry_path]
      exact ⟨named, node, found, rfl⟩
    · exact (live_entry_at plan l here named reached).mpr made
    · rw [here, indexEntry_path]
    · exact (differs_iff _ _).mpr ⟨a, b, first, second, unequal⟩

theorem new_iff : (∃ e ∈ (plan.compare f).new, e.path = rel) ↔
    liveFile f plan.before rel ≠ none ∧ snapshotFile plan f rel = none := by
  have compared := compareIndexes_compared f.snapshot f.walker plan.before f.dir
  constructor
  · rintro ⟨e, listed, rfl⟩
    rcases (compared.new e).mp listed with nothing | ⟨there, file, fresh⟩
    · cases nothing
    · have made := (live_entry_at plan e rfl named reached).mp there
      refine ⟨?_, ?_⟩
      · rw [liveFile, made, Option.bind_some, Ne, entryFile_none, file]
        exact Bool.false_ne_true
      · rw [snapshotFile, if_neg (fun both => by rw [made] at both; cases both.2)]
        cases found : f.snapshot.lstat e.path with
        | none => rfl
        | some node =>
            rw [Option.bind_some, entryFile_none]
            refine fresh _ ?_ (indexEntry_path _ _)
            rw [mem_snapshotIndex_iff, indexEntry_path]
            exact ⟨named, node, found, rfl⟩
  · rintro ⟨live, snap⟩
    obtain ⟨b, some_⟩ := Option.ne_none_iff_exists'.mp live
    obtain ⟨l, made, second⟩ := Option.bind_eq_some_iff.mp some_
    rw [snapshotFile, if_neg (fun both => by rw [made] at both; cases both.2)] at snap
    obtain ⟨liveNode, _, shape⟩ := liveEntry_spec f.walker plan.before f.dir rel l made
    have here : l.path = rel := by rw [shape, indexEntry_path]
    refine ⟨l, (compared.new l).mpr (Or.inr ⟨(live_entry_at plan l here named reached).mpr made, ?_, ?_⟩),
      here⟩
    · by_contra folder
      rw [(entryFile_none l).mpr (by simpa using folder)] at second
      cases second
    · intro s inSnap same
      obtain ⟨_, node, found, shape⟩ := (mem_snapshotIndex_iff f.snapshot s).mp inSnap
      rw [same, here] at found shape
      rw [found, Option.bind_some, ← shape, entryFile_none] at snap
      exact snap

end compared

/-! Where it ends. -/

/-- Symbolic links are compared where the set keeps them, and its archives hold
none where it does not. -/
def LinksKept (f : Folder) : Prop :=
  f.walker.keepLinks = true ∨ ∀ rel to_ resolves, f.snapshot.lstat rel ≠ some (.link to_ resolves)

theorem included_leaf (plan : Plan) (f : Folder) (single : plan.folders = [f]) (s : Moves)
    (all : AllMoved plan s) (rel : Path) (listed : rel ∈ includesOf s f) : Leaf f.snapshot rel := by
  have classified : Classified _ _ (plan.compare f) := compareIndexes_classified _ _
  rcases (included_iff plan f single s all rel).mp listed with
    ⟨e, missing, rfl⟩ | ⟨_, c, changed, rfl⟩
  · obtain ⟨inSnap, file⟩ := classified.missing e missing
    exact snapshot_leaf f e inSnap file
  · obtain ⟨inSnap, file, _⟩ := classified.changed c changed
    exact snapshot_leaf f c.snap inSnap file

/-- A state of the restore that follows the moves. -/
def RestoreReached (plan : Plan) (s : Moves) (r : Restore) : Prop :=
  ∃ actions, Run (rollbackSystem plan) (.restoring (Restore.start plan s)) actions (.restoring r)

theorem framed_restore (plan : Plan) (f : Folder) (single : plan.folders = [f]) (s : Moves)
    (all : AllMoved plan s) (r : Restore) (reached : RestoreReached plan s r) :
    Framed f (includesOf s f) s.fs s.memory r := by
  obtain ⟨actions, run⟩ := reached
  have leaves : ∀ inc ∈ includesOf s f, Leaf f.snapshot inc := included_leaf plan f single s all
  have start : FramedState f (includesOf s f) s.fs s.memory (.restoring (Restore.start plan s)) := by
    refine ⟨fun q => Or.inl rfl, ?_, nofun, rfl⟩
    intro a member
    simp only [Restore.start, restores, all.uncancelled, single] at member
    have inside := (List.mem_filter.mp member).1
    simpa using inside
  exact run_keeps (FramedState f (includesOf s f) s.fs s.memory)
    (fun state action after held taken =>
      framed_step plan f _ _ _ leaves state after action held taken) run start

theorem live_after_moves (plan : Plan) (f : Folder) (single : plan.folders = [f]) (s : Moves)
    (all : AllMoved plan s) (rel : Path) (named : rel ≠ []) (reached : f.walker.reaches rel = true) :
    liveFile f s.fs rel =
      if f.dir ++ rel ∈ s.memory.movedFrom then none else liveFile f plan.before rel := by
  have aside : Aside plan s.fs s.memory := ((moves_invariant plan).reachable all.reached).1
  have live : plan.Live (f.dir ++ rel) := by
    refine live_walked plan f (by simp [single]) rel ?_
    have last := List.all_eq_true.mp reached rel (by simp)
    simpa [named] using last
  have absent : s.fs.lstat (f.dir ++ rel) = none → liveFile f s.fs rel = none := by
    intro gone
    simp [liveFile, liveEntry, gone]
  split
  · next moved => exact absent (aside.gone _ moved)
  · next still =>
      by_cases dropped : f.dir ++ rel ∈ s.memory.removedDirs
      · obtain ⟨_, folder, gone⟩ := aside.removed _ dropped
        rw [absent gone]
        exact ((liveFile_of_lstat f plan.before rel).mpr (Or.inr folder)).symm
      · unfold liveFile liveEntry
        rw [aside.same _ live still dropped]

theorem live_of_snapshot (plan : Plan) (f : Folder) (kept : LinksKept f) (t : FileSystem)
    (rel : Path) (same : t.lstat (f.dir ++ rel) = f.snapshot.lstat rel)
    (some_ : snapshotFile plan f rel ≠ none) : liveFile f t rel = snapshotFile plan f rel := by
  unfold snapshotFile at some_ ⊢
  split
  · next info => rw [if_pos info] at some_; exact absurd rfl some_
  · unfold liveFile liveEntry
    rw [same]
    cases found : f.snapshot.lstat rel with
    | none => rfl
    | some node =>
        cases node with
        | file content => rfl
        | dir => rfl
        | link to_ resolves =>
            rcases kept with keep | none_
            · simp [keep]
            · exact absurd found (none_ rel to_ resolves)

/-- What of a live file a state of the roll back still has: it stands, or it was
moved aside as it was and is on record. -/
def Safe (plan : Plan) (m : Manifest) (fs : FileSystem) (p : Path) : Prop :=
  fs.lstat p = plan.before.lstat p ∨
    ∃ mv ∈ m.moved, mv.fromPath = p ∧ fs.lstat mv.toPath = plan.before.lstat p

theorem safe_moving (plan : Plan) (f : Folder) (folder : f ∈ plan.folders) (s : Moves)
    (reachable : Reachable (movesSystem plan) s) (rel : Path) (named : rel ≠ [])
    (reached : f.walker.reaches rel = true) (file : liveFile f plan.before rel ≠ none) :
    Safe plan s.memory s.fs (f.dir ++ rel) := by
  have aside : Aside plan s.fs s.memory := ((moves_invariant plan).reachable reachable).1
  have live : plan.Live (f.dir ++ rel) := by
    refine live_walked plan f folder rel ?_
    have last := List.all_eq_true.mp reached rel (by simp)
    simpa [named] using last
  by_cases moved : f.dir ++ rel ∈ s.memory.movedFrom
  · obtain ⟨mv, member, source⟩ := List.mem_map.mp moved
    exact Or.inr ⟨mv, member, source, source ▸ aside.kept mv member⟩
  · refine Or.inl (aside.same _ live moved ?_)
    intro dropped
    exact file ((liveFile_of_lstat f plan.before rel).mpr (Or.inr (aside.removed _ dropped).2.1))

theorem safe_restoring (plan : Plan) (f : Folder) (single : plan.folders = [f])
    (readable : ∀ r, f.walker.unreadable r = false) (s : Moves) (all : AllMoved plan s) (r : Restore)
    (restore : RestoreReached plan s r) (rel : Path) (named : rel ≠ [])
    (reached : f.walker.reaches rel = true) (file : liveFile f plan.before rel ≠ none) :
    Safe plan r.memory r.fs (f.dir ++ rel) := by
  have framed := framed_restore plan f single s all r restore
  have aside : Aside plan s.fs s.memory := ((moves_invariant plan).reachable all.reached).1
  rw [framed.memory]
  by_cases moved : f.dir ++ rel ∈ s.memory.movedFrom
  · obtain ⟨mv, member, source⟩ := List.mem_map.mp moved
    refine Or.inr ⟨mv, member, source, ?_⟩
    rw [← source, ← aside.kept mv member]
    have placed := aside.placed mv member
    rcases framed.tree mv.toPath with same | ⟨gone, _⟩ | ⟨other, listed, inside, _, _⟩
    · exact same
    · rw [aside.kept mv member] at gone
      exact absurd gone placed.leaf.not_none
    · refine absurd ?_ placed.kept_not_live
      rw [inside]
      exact live_snapshot plan f (by simp [single]) other
        (included_leaf plan f single s all other listed).not_none
  · left
    have before : s.fs.lstat (f.dir ++ rel) = plan.before.lstat (f.dir ++ rel) := by
      rcases safe_moving plan f (by simp [single]) s all.reached rel named reached file with
        same | ⟨mv, member, source, _⟩
      · exact same
      · exact absurd (List.mem_map.mpr ⟨mv, member, source⟩) moved
    have present : plan.before.lstat (f.dir ++ rel) ≠ none := by
      intro none_
      exact file (by simp [liveFile, liveEntry, none_])
    rcases framed.tree (f.dir ++ rel) with same | ⟨gone, _⟩ | ⟨other, listed, inside, absent, _⟩
    · exact same.trans before
    · rw [before] at gone
      exact absurd gone present
    · -- a listed file whose place is taken by a live one was moved aside first
      rw [← List.append_cancel_left inside] at listed
      rcases (included_iff plan f single s all rel).mp listed with missing | ⟨policy, changed⟩
      · exact absurd ((missing_iff named reached readable).mp missing).2 file
      · exact absurd ((moved_iff plan f single s all rel).mpr (Or.inl ⟨policy, changed⟩)) moved

/-- A folder with a file to be changed, one to be removed, and whatever its snapshot has. -/
def notesFolder (snapshot : FileSystem) : Folder where
  dir := ["notes"]
  archive := "notes.pxar"
  top := ["safety"]
  place := ["set"]
  sub := "notes"
  snapshot := snapshot
  walker := ⟨fun rel => rel.head? = some ".Trash", fun _ => false, true⟩

def notesPlan (snapshot : FileSystem) : Plan where
  before := .build [(["notes"], .dir), (["notes", "a"], .file ⟨[1], 1⟩),
    (["notes", "b"], .file ⟨[2], 1⟩)]
  folders := [notesFolder snapshot]
  policy := .exact
  present := by simp
  walked := by
    intro f member
    rw [List.mem_singleton.mp member]
    rfl
  volume := by
    intro f member
    rw [List.mem_singleton.mp member]
    rfl
  unseen := by
    intro f first g second rel within
    rw [List.mem_singleton.mp first, List.mem_singleton.mp second] at within
    simp [notesFolder] at within
  separate := by
    intro f first g second _
    rw [List.mem_singleton.mp first, List.mem_singleton.mp second]

def contents : FileNode → Option FileData
  | .file content => some content
  | _ => none

/-- All moves and the restore of one file: what the moves left over, what was to
be restored, and what is at two paths in the end. -/
def outcome (snapshot : FileSystem) (p q : Path) :
    Option (Bool × List Path × Option FileData × Option FileData) :=
  ((List.replicate 6 (MoveAction.op none)).foldlM movesStep
    (Moves.start (notesPlan snapshot))).bind fun s =>
      ([Action.startArchive true, .extract none].foldlM (rollbackStep (notesPlan snapshot))
        (.restoring (Restore.start (notesPlan snapshot) s))).bind fun
          | .restoring r => some
              (s.todo.isEmpty && !s.cancelled && !s.aborted && s.memory.moveFailed.isEmpty,
                includesOf s (notesFolder snapshot), (r.fs.lstat p).bind contents,
                (r.fs.lstat q).bind contents)
          | _ => none

theorem outcome_reached (snapshot : FileSystem) (p q : Path) (includes : List Path)
    (first second : Option FileData)
    (ended : outcome snapshot p q = some (true, includes, first, second)) :
    ∃ s r, AllMoved (notesPlan snapshot) s ∧ RestoreReached (notesPlan snapshot) s r ∧
      includesOf s (notesFolder snapshot) = includes ∧ (r.fs.lstat p).bind contents = first ∧
      (r.fs.lstat q).bind contents = second := by
  obtain ⟨s, moved, rest⟩ := Option.bind_eq_some_iff.mp ended
  obtain ⟨state, restored, seen⟩ := Option.bind_eq_some_iff.mp rest
  cases state with
  | restoring r =>
      simp only [Option.some.injEq, Prod.mk.injEq] at seen
      obtain ⟨flags, same, one, two⟩ := seen
      simp only [Bool.and_eq_true, Bool.not_eq_true', List.isEmpty_iff] at flags
      obtain ⟨⟨⟨todo, cancelled⟩, aborted⟩, failed⟩ := flags
      exact ⟨s, r, ⟨⟨_, _, rfl, run_of_foldlM movesStep (fun _ _ _ taken => taken) moved⟩,
          todo, cancelled, aborted, failed⟩,
        ⟨_, run_of_foldlM (rollbackStep (notesPlan snapshot)) (fun _ _ _ taken => taken) restored⟩,
        same, one, two⟩
  | moving s => cases seen
  | idle fs disk => cases seen
  | undoing m u todo silent => cases seen

theorem contents_file {t : FileSystem} {p : Path} {content : FileData}
    (there : (t.lstat p).bind contents = some content) : t.lstat p = some (.file content) := by
  obtain ⟨node, found, same⟩ := Option.bind_eq_some_iff.mp there
  rw [found]
  cases node with
  | file content => cases same; rfl
  | link to_ resolves => cases same
  | dir => cases same

/-- The first file longer, and no second one. -/
def notesBefore : FileSystem := .build [(["a"], .file ⟨[1, 1], 2⟩)]

/-- The same with the file that the client adds to every archive. -/
def notesArchive : FileSystem :=
  .build [(["a"], .file ⟨[1, 1], 2⟩), ([backupMetaFileName], .file ⟨[0], 3⟩)]

end ProxmoxBackup.RollbackReach
