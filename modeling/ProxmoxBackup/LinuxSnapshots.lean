import ProxmoxBackup.RestorePaths
import ProxmoxBackup.TransitionSystem
import Mathlib.Logic.Function.Basic
import Mathlib.Data.List.Nodup

/-! CreateVSSSnapshotCtx on Linux (snapshot/linux_snapshot.go and linux_lock.go):
calls in any number of programs, each with its paths, the devices a program holds,
the lock files between programs and the tracers of the kernel module. A tracer is
recognised as one of ours by its file, so those that earlier runs left are here from
the start. The mount table stands still. setupMu only orders the set-ups of one
program and is left out: every order it allows is among the runs. The SIGTERM path
(VSSCleanup), the mounting of a snapshot for reading and its texts are left out. -/

namespace ProxmoxBackup.LinuxSnapshots

open RestorePaths TransitionSystem

structure Mount where
  point : Text
  source : Text
  fstype : Text
  deriving DecidableEq

/-- The mount point is the path or above it. -/
def covers (path : Text) (mount : Mount) : Bool :=
  path == mount.point || mount.point == [slash] ||
    under (mount.point.reverse.dropWhile (· == slash)).reverse path

/-- "/dev/" -/
def devPrefix : Text := [47, 100, 101, 118, 47]

/-- "btrfs" -/
def btrfs : Text := [98, 116, 114, 102, 115]

/-- The longest mount point that covers the path, the first of those listed. -/
def findMount (table : List Mount) (path : Text) : Option Mount :=
  (table.foldl (fun best mount =>
    if covers path mount && (best.all fun b => decide (b.point.length < mount.point.length))
    then some mount else best) none).filter fun mount => devPrefix.isPrefixOf mount.source

/-- What a path leads to: the table is in the order of mounting, and a mount hides
everything at and below its mount point. -/
def visibleMount (table : List Mount) (path : Text) : Option Mount :=
  (table.filter (covers path)).getLast?

/-- "salvanza-snap-…": "/" becomes "-" and a blank "_". -/
def lockFileFor (dev : Text) : Text :=
  (if dev.head? = some slash then dev.tail else dev).map fun c =>
    if c = slash then 45 else if c = 32 then 95 else c

/-- The mounts, and what is called where: every call has its program and its paths. -/
structure Setting where
  table : List Mount
  program : Nat → Nat
  paths : Nat → List Text

/-- `owner` is the call that set it up, if it is one of these. -/
structure Tracer where
  device : Text
  owner : Option Nat
  ours : Bool
  deriving DecidableEq

inductive Stage where
  | idle
  | asking
  | locking (taken : List Text)
  | polling
  | creating (made : List (Text × Nat)) (cleared : Bool)
  | reading (made : List (Text × Nat))
  | cleaning (made : List (Text × Nat))
  | ended
  deriving DecidableEq

/-- Snapshots of the call, each with the path it is for. -/
def Stage.made : Stage → List (Text × Nat)
  | .creating made _ => made
  | .reading made => made
  | .cleaning made => made
  | _ => []

structure State where
  held : Nat → Text → Bool
  locks : Text → Option Nat
  tracers : Nat → Option Tracer
  tracked : Nat → List Nat
  stage : Nat → Stage

namespace Setting

variable (g : Setting)

def device (path : Text) : Option Text := (findMount g.table path).map Mount.source

def visible (path : Text) : Option Text := (visibleMount g.table path).map Mount.source

/-- The devices a call holds, each once. -/
def devs (c : Nat) : List Text := ((g.paths c).filterMap g.device).eraseDups

/-- The mount of the path whose snapshot is next. -/
def next (c : Nat) (made : List (Text × Nat)) : Option (Text × Mount) :=
  ((g.paths c)[made.length]?).bind fun path => (findMount g.table path).map fun mount => (path, mount)

/-- Lock files the call has open and locked. -/
def locked (c : Nat) : Stage → List Text
  | .locking taken => taken.map lockFileFor
  | .creating _ _ | .reading _ | .cleaning _ => (g.devs c).map lockFileFor
  | _ => []

end Setting

/-- From holdDevices to releaseDevices. -/
def Stage.holds : Stage → Bool
  | .idle | .asking | .ended => false
  | _ => true

namespace State

variable (g : Setting) (s : State)

def set (c : Nat) (stage : Stage) : State := { s with stage := Function.update s.stage c stage }

/-- holdDevices and releaseDevices. -/
def mark (c : Nat) (on : Bool) : State :=
  { s with held := fun program d =>
      if program = g.program c ∧ d ∈ g.devs c then on else s.held program d }

def unlock (names : List Text) : State :=
  { s with locks := fun name => if name ∈ names then none else s.locks name }

/-- Both at the end of every path out. -/
def leave (c : Nat) (names : List Text) : State := ((s.unlock names).mark g c false).set c .ended

/-- The tracers of ours on a device that `gone` picks are destroyed. -/
def destroy (device : Text) (gone : Nat → Bool) : State :=
  { s with tracers := fun minor =>
      (s.tracers minor).filter fun t => !(t.ours && t.device == device && gone minor) }

def attach (c minor : Nat) (device : Text) : State :=
  { s with tracers := Function.update s.tracers minor (some ⟨device, some c, true⟩) }

def track (c minor : Nat) : State :=
  { s with tracked := Function.update s.tracked (g.program c) (minor :: s.tracked (g.program c)) }

/-- The end of cleanupOne: whoever's tracer has the minor number, it goes. -/
def detach (c minor : Nat) (succeeded : Bool) : State :=
  { s with
    tracers := if succeeded then Function.update s.tracers minor none else s.tracers
    tracked := Function.update s.tracked (g.program c) ((s.tracked (g.program c)).erase minor) }

/-- What allocMinor and the module ask of a minor number and a device. -/
def free (c minor : Nat) (device : Text) : Bool :=
  decide (minor < 256) && (s.tracked (g.program c)).all (fun used => used != minor) &&
    (s.tracers minor).isNone &&
    (List.range 256).all fun other => (s.tracers other).all fun t => t.device != device

end State

inductive Action where
  | ask (c : Nat)
  | hold (c : Nat)
  | giveUp (c : Nat)
  | lock (c : Nat)
  | lockFails (c : Nat)
  | retry (c : Nat)
  | clear (c : Nat)
  | createFails (c : Nat) (gone : Nat → Bool)
  | setUp (c minor : Nat)
  | setUpLost (c minor : Nat)
  | read (c : Nat)
  | callbackReturns (c : Nat)
  | clean (c : Nat) (succeeded : Bool)

def step (g : Setting) (s : State) : Action → Option State
  | .ask c => if s.stage c = .idle then some (s.set c .asking) else none
  | .hold c =>
      if s.stage c = .asking ∧ ∀ d ∈ g.devs c, s.held (g.program c) d = false then
        some ((s.mark g c true).set c (.locking []))
      else none
  -- the context is cancelled
  | .giveUp c =>
      match s.stage c with
      | .asking => some (s.set c .ended)
      | .polling => some (s.leave g c [])
      | _ => none
  -- tryLockDevices, one file a step
  | .lock c =>
      match s.stage c with
      | .locking taken =>
          match (g.devs c)[taken.length]? with
          | none => some (s.set c (.creating [] false))
          | some d =>
              if s.locks (lockFileFor d) = none then
                some (({ s with locks := Function.update s.locks (lockFileFor d) (some c) } : State).set
                  c (.locking (taken ++ [d])))
              else some ((s.unlock (taken.map lockFileFor)).set c .polling)
      | _ => none
  | .lockFails c =>
      match s.stage c with
      | .locking taken => some (s.leave g c (taken.map lockFileFor))
      | _ => none
  | .retry c => if s.stage c = .polling then some (s.set c (.locking [])) else none
  -- findMount and destroyStaleTracers of createOne
  | .clear c =>
      match s.stage c with
      | .creating made false =>
          match g.next c made with
          | some (_, mount) =>
              if mount.fstype = btrfs then none
              else some ((s.destroy mount.source fun _ => true).set c (.creating made true))
          | none => none
      | _ => none
  -- destroyStaleTracers may have destroyed some before it fails
  | .createFails c gone =>
      match s.stage c with
      | .creating made cleared =>
          match g.next c made with
          | some (_, mount) =>
              if cleared ∨ mount.fstype = btrfs then some (s.set c (.cleaning made))
              else some ((s.destroy mount.source gone).set c (.cleaning made))
          | none => if made.length < (g.paths c).length then some (s.set c (.cleaning made)) else none
      | _ => none
  | .setUp c minor =>
      match s.stage c with
      | .creating made true =>
          match g.next c made with
          | some (path, mount) =>
              if s.free g c minor mount.source then
                some (((s.attach c minor mount.source).track g c minor).set c
                  (.creating (made ++ [(path, minor)]) false))
              else none
          | none => none
      | _ => none
  -- set up, but the device or its mount does not come, nor does the tracer go
  | .setUpLost c minor =>
      match s.stage c with
      | .creating made true =>
          match g.next c made with
          | some (_, mount) =>
              if s.free g c minor mount.source then
                some ((s.attach c minor mount.source).set c (.cleaning made))
              else none
          | none => none
      | _ => none
  | .read c =>
      match s.stage c with
      | .creating made false =>
          if made.length = (g.paths c).length then some (s.set c (.reading made)) else none
      | _ => none
  | .callbackReturns c =>
      match s.stage c with
      | .reading made => some (s.set c (.cleaning made))
      | _ => none
  -- the last made goes first; then the locks and the devices
  | .clean c succeeded =>
      match s.stage c with
      | .cleaning made =>
          match made.getLast? with
          | some (_, minor) => some ((s.detach g c minor succeeded).set c (.cleaning made.dropLast))
          | none => some (s.leave g c ((g.devs c).map lockFileFor))
      | _ => none

/-- Nothing is held at first; tracers may be left by runs that have ended. -/
structure State.Fresh (s : State) : Prop where
  stage : ∀ c, s.stage c = .idle
  held : ∀ program d, s.held program d = false
  locks : ∀ name, s.locks name = none
  owners : ∀ minor t, s.tracers minor = some t → t.owner = none

def snapshotSystem (g : Setting) : System State Action where
  start := State.Fresh
  step s action after := step g s action = some after

/-! What one step changes, once for all invariants. -/

/-- `quiet` moves one call on and nothing else. -/
inductive Effect (g : Setting) (s : State) : State → Prop where
  | quiet (c stage) (locked : g.locked c stage = g.locked c (s.stage c))
      (holds : stage.holds = (s.stage c).holds) (made : stage.made = (s.stage c).made)
      (taken : ∀ taken, stage = .locking taken → taken = [])
      (whole : ∀ made, stage = .reading made → made.length = (g.paths c).length)
      (begun : ∀ made, stage ≠ .creating made true) : Effect g s (s.set c stage)
  | hold (c) (was : s.stage c = .asking)
      (free : ∀ d ∈ g.devs c, s.held (g.program c) d = false) :
      Effect g s ((s.mark g c true).set c (.locking []))
  | lock (c taken d) (was : s.stage c = .locking taken) (next : (g.devs c)[taken.length]? = some d)
      (free : s.locks (lockFileFor d) = none) :
      Effect g s (({ s with locks := Function.update s.locks (lockFileFor d) (some c) } : State).set
        c (.locking (taken ++ [d])))
  | busy (c taken) (was : s.stage c = .locking taken) :
      Effect g s ((s.unlock (taken.map lockFileFor)).set c .polling)
  | leave (c) (holds : (s.stage c).holds = true) (made : (s.stage c).made = []) :
      Effect g s (s.leave g c (g.locked c (s.stage c)))
  | destroy (c made cleared path mount gone stage) (was : s.stage c = .creating made cleared)
      (next : g.next c made = some (path, mount))
      (now : stage = .creating made true ∨ stage = .cleaning made) :
      Effect g s ((s.destroy mount.source gone).set c stage)
  | setUp (c made path mount minor) (was : s.stage c = .creating made true)
      (next : g.next c made = some (path, mount)) (free : s.tracers minor = none) :
      Effect g s (((s.attach c minor mount.source).track g c minor).set c
        (.creating (made ++ [(path, minor)]) false))
  | setUpLost (c made path mount minor) (was : s.stage c = .creating made true)
      (next : g.next c made = some (path, mount)) (free : s.tracers minor = none) :
      Effect g s ((s.attach c minor mount.source).set c (.cleaning made))
  | clean (c made path minor succeeded) (was : s.stage c = .cleaning (made ++ [(path, minor)])) :
      Effect g s ((s.detach g c minor succeeded).set c (.cleaning made))

theorem free_minor {g : Setting} {s : State} {c minor : Nat} {device : Text}
    (free : s.free g c minor device = true) : s.tracers minor = none := by
  simp only [State.free, Bool.and_eq_true, Option.isNone_iff_eq_none] at free
  exact free.1.2

theorem effect_of_step {g : Setting} {s after : State} {action : Action}
    (prefixes : ∀ c taken, s.stage c = .locking taken → taken <+: g.devs c)
    (moved : step g s action = some after) : Effect g s after := by
  cases action with
  | ask c =>
      simp only [step, Option.ite_none_right_eq_some, Option.some.injEq] at moved
      obtain ⟨was, rfl⟩ := moved
      exact .quiet c _ (by rw [was]; rfl) (by rw [was]; rfl) (by rw [was]; rfl) (by simp) (by simp) (by simp)
  | hold c =>
      simp only [step, Option.ite_none_right_eq_some, Option.some.injEq] at moved
      obtain ⟨⟨was, free⟩, rfl⟩ := moved
      exact .hold c was free
  | giveUp c =>
      simp only [step] at moved
      split at moved
      · next was =>
          cases moved
          exact .quiet c _ (by rw [was]; rfl) (by rw [was]; rfl) (by rw [was]; rfl) (by simp) (by simp) (by simp)
      · next was =>
          cases moved
          have left := Effect.leave (g := g) (s := s) c (by rw [was]; rfl) (by rw [was]; rfl)
          rw [was] at left
          exact left
      · cases moved
  | lock c =>
      simp only [step] at moved
      split at moved
      · next taken was =>
          split at moved
          · next all =>
              cases moved
              have whole : taken = g.devs c :=
                (prefixes c taken was).eq_of_length_le (List.getElem?_eq_none_iff.mp all)
              exact .quiet c _ (by rw [was, whole]; rfl) (by rw [was]; rfl) (by rw [was]; rfl) (by simp)
                (by simp) (by simp)
          · next d next =>
              split at moved
              · next free =>
                  cases moved
                  exact .lock c taken d was next free
              · cases moved
                exact .busy c taken was
      · cases moved
  | lockFails c =>
      simp only [step] at moved
      split at moved
      · next taken was =>
          cases moved
          have left := Effect.leave (g := g) (s := s) c (by rw [was]; rfl) (by rw [was]; rfl)
          rw [was] at left
          exact left
      · cases moved
  | retry c =>
      simp only [step, Option.ite_none_right_eq_some, Option.some.injEq] at moved
      obtain ⟨was, rfl⟩ := moved
      exact .quiet c _ (by rw [was]; rfl) (by rw [was]; rfl) (by rw [was]; rfl) (by simp) (by simp) (by simp)
  | clear c =>
      simp only [step] at moved
      split at moved
      · next made was =>
          split at moved
          · next path mount next =>
              split at moved
              · cases moved
              · cases moved
                exact .destroy c made false path mount _ _ was next (Or.inl rfl)
          · cases moved
      · cases moved
  | createFails c gone =>
      simp only [step] at moved
      split at moved
      · next made cleared was =>
          have still : Effect g s (s.set c (.cleaning made)) :=
            .quiet c _ (by rw [was]; rfl) (by rw [was]; rfl) (by rw [was]; rfl) (by simp) (by simp) (by simp)
          split at moved
          · next path mount next =>
              split at moved
              · cases moved
                exact still
              · cases moved
                exact .destroy c made cleared path mount gone _ was next (Or.inr rfl)
          · split at moved
            · cases moved
              exact still
            · cases moved
      · cases moved
  | setUp c minor =>
      simp only [step] at moved
      split at moved
      · next made was =>
          split at moved
          · next path mount next =>
              split at moved
              · next free =>
                  cases moved
                  exact .setUp c made path mount minor was next (free_minor free)
              · cases moved
          · cases moved
      · cases moved
  | setUpLost c minor =>
      simp only [step] at moved
      split at moved
      · next made was =>
          split at moved
          · next path mount next =>
              split at moved
              · next free =>
                  cases moved
                  exact .setUpLost c made path mount minor was next (free_minor free)
              · cases moved
          · cases moved
      · cases moved
  | read c =>
      simp only [step] at moved
      split at moved
      · next made was =>
          split at moved
          · next whole =>
              cases moved
              exact .quiet c _ (by rw [was]; rfl) (by rw [was]; rfl) (by rw [was]; rfl) (by simp)
                (by rintro _ ⟨⟩; exact whole) (by simp)
          · cases moved
      · cases moved
  | callbackReturns c =>
      simp only [step] at moved
      split at moved
      · next made was =>
          cases moved
          exact .quiet c _ (by rw [was]; rfl) (by rw [was]; rfl) (by rw [was]; rfl) (by simp) (by simp) (by simp)
      · cases moved
  | clean c succeeded =>
      simp only [step] at moved
      split at moved
      · next made was =>
          split at moved
          · next path minor last =>
              cases moved
              obtain ⟨before, rfl⟩ := List.getLast?_eq_some_iff.mp last
              rw [List.dropLast_concat]
              exact .clean c before path minor succeeded was
          · next empty =>
              cases moved
              have left := Effect.leave (g := g) (s := s) c (by rw [was]; rfl)
                (by rw [was]; exact List.getLast?_eq_none_iff.mp empty)
              rw [was] at left
              exact left
      · cases moved

theorem set_self (s : State) (c : Nat) (stage : Stage) : (s.set c stage).stage c = stage :=
  Function.update_self ..

theorem set_other (s : State) {c e : Nat} (stage : Stage) (other : e ≠ c) :
    (s.set c stage).stage e = s.stage e :=
  Function.update_of_ne other ..

theorem set_same {α : Type} (f : Stage → α) {s : State} {c : Nat} {stage : Stage}
    (same : f stage = f (s.stage c)) (e : Nat) : f ((s.set c stage).stage e) = f (s.stage e) := by
  rcases eq_or_ne e c with rfl | other
  · rw [set_self, same]
  · rw [set_other s stage other]

/-! Devices within a program. -/

structure Held (g : Setting) (s : State) : Prop where
  marked : ∀ program d, s.held program d = true ↔
    ∃ c, g.program c = program ∧ d ∈ g.devs c ∧ (s.stage c).holds = true
  single : ∀ c e d, g.program c = g.program e → d ∈ g.devs c → d ∈ g.devs e →
    (s.stage c).holds = true → (s.stage e).holds = true → c = e

theorem Held.same {g : Setting} {s after : State} (held : Held g s) (marks : after.held = s.held)
    (holds : ∀ c, (after.stage c).holds = (s.stage c).holds) : Held g after where
  marked program d := by
    simp only [marks, holds]
    exact held.marked program d
  single := by
    simp only [holds]
    exact held.single

theorem Held.enter {g : Setting} {s : State} {c : Nat} {stage : Stage} (held : Held g s)
    (out : (s.stage c).holds = false) (free : ∀ d ∈ g.devs c, s.held (g.program c) d = false)
    (on : stage.holds = true) : Held g ((s.mark g c true).set c stage) := by
  have others : ∀ e, e ≠ c → ((s.mark g c true).set c stage).stage e = s.stage e :=
    fun e other => set_other _ _ other
  have mine : ((s.mark g c true).set c stage).stage c = stage := set_self _ _ _
  -- a call that holds one of these devices already would have marked it
  have clear : ∀ e d, g.program c = g.program e → d ∈ g.devs c → d ∈ g.devs e →
      (s.stage e).holds = true → False := by
    intro e d same own other holds
    have marked := (held.marked (g.program c) d).mpr ⟨e, same.symm, other, holds⟩
    rw [free d own] at marked
    cases marked
  constructor
  · intro program d
    show (if program = g.program c ∧ d ∈ g.devs c then true else s.held program d) = true ↔ _
    split
    · next own => exact ⟨fun _ => ⟨c, own.1.symm, own.2, by rw [mine, on]⟩, fun _ => rfl⟩
    · next other =>
        rw [held.marked program d]
        constructor
        · rintro ⟨e, same, member, holds⟩
          have distinct : e ≠ c := by
            rintro rfl
            rw [out] at holds
            cases holds
          exact ⟨e, same, member, by rw [others e distinct]; exact holds⟩
        · rintro ⟨e, same, member, holds⟩
          have distinct : e ≠ c := by
            rintro rfl
            exact other ⟨same.symm, member⟩
          rw [others e distinct] at holds
          exact ⟨e, same, member, holds⟩
  · intro e f d same first second holdsE holdsF
    rcases eq_or_ne e c with rfl | otherE
    · rcases eq_or_ne f e with rfl | otherF
      · rfl
      · rw [others f otherF] at holdsF
        exact (clear f d same first second holdsF).elim
    · rw [others e otherE] at holdsE
      rcases eq_or_ne f c with rfl | otherF
      · exact (clear e d same.symm second first holdsE).elim
      · rw [others f otherF] at holdsF
        exact held.single e f d same first second holdsE holdsF

theorem Held.exit {g : Setting} {s : State} {c : Nat} {names : List Text} (held : Held g s)
    (holds : (s.stage c).holds = true) : Held g (s.leave g c names) := by
  have others : ∀ e, e ≠ c → (s.leave g c names).stage e = s.stage e :=
    fun e other => set_other _ _ other
  have mine : (s.leave g c names).stage c = .ended := set_self _ _ _
  have was : ∀ e, ((s.leave g c names).stage e).holds = true → e ≠ c ∧ (s.stage e).holds = true := by
    intro e on
    rcases eq_or_ne e c with rfl | other
    · rw [mine] at on
      cases on
    · rw [others e other] at on
      exact ⟨other, on⟩
  constructor
  · intro program d
    show (if program = g.program c ∧ d ∈ g.devs c then false else s.held program d) = true ↔ _
    split
    · next own =>
        simp only [Bool.false_eq_true, false_iff]
        rintro ⟨e, same, member, on⟩
        obtain ⟨other, on⟩ := was e on
        exact other (held.single e c d (same.trans own.1) member own.2 on holds)
    · next other =>
        rw [held.marked program d]
        constructor
        · rintro ⟨e, same, member, on⟩
          have distinct : e ≠ c := by
            rintro rfl
            exact other ⟨same.symm, member⟩
          exact ⟨e, same, member, by rw [others e distinct]; exact on⟩
        · rintro ⟨e, same, member, on⟩
          exact ⟨e, same, member, (was e on).2⟩
  · intro e f d same first second onE onF
    exact held.single e f d same first second (was e onE).2 (was f onF).2

theorem Held.effect {g : Setting} {s after : State} (held : Held g s) (effect : Effect g s after) :
    Held g after := by
  cases effect with
  | quiet c stage _ holds _ _ _ _ => exact held.same rfl (set_same Stage.holds holds)
  | hold c was free => exact held.enter (by rw [was]; rfl) free rfl
  | lock c taken d was _ _ =>
      exact held.same rfl (set_same Stage.holds (s := { s with locks := _ }) (by rw [was]; rfl))
  | busy c taken was =>
      exact held.same rfl (set_same Stage.holds (s := s.unlock _) (by
        show _ = (s.stage c).holds
        rw [was]
        rfl))
  | leave c holds _ => exact held.exit holds
  | destroy c made cleared path mount gone stage was _ now =>
      refine held.same rfl (set_same Stage.holds (s := s.destroy _ _) ?_)
      show _ = (s.stage c).holds
      rw [was]
      rcases now with rfl | rfl <;> rfl
  | setUp c made path mount minor was _ _ =>
      exact held.same rfl (set_same Stage.holds (s := (s.attach _ _ _).track g _ _) (by
        show _ = (s.stage c).holds
        rw [was]
        rfl))
  | setUpLost c made path mount minor was _ _ =>
      exact held.same rfl (set_same Stage.holds (s := s.attach _ _ _) (by
        show _ = (s.stage c).holds
        rw [was]
        rfl))
  | clean c made path minor succeeded was =>
      exact held.same rfl (set_same Stage.holds (s := s.detach g _ _ _) (by
        show _ = (s.stage c).holds
        rw [was]
        rfl))

/-! Lock files between programs. -/

structure Locked (g : Setting) (s : State) : Prop where
  taken : ∀ c taken, s.stage c = .locking taken → taken <+: g.devs c
  owner : ∀ name c, s.locks name = some c ↔ name ∈ g.locked c (s.stage c)

theorem Locked.same {g : Setting} {s after : State} {c : Nat} (locked : Locked g s)
    (locks : after.locks = s.locks) (others : ∀ e, e ≠ c → after.stage e = s.stage e)
    (mine : g.locked c (after.stage c) = g.locked c (s.stage c))
    (none_ : ∀ taken, after.stage c = .locking taken → taken = []) : Locked g after where
  taken e taken was := by
    rcases eq_or_ne e c with rfl | other
    · rw [none_ taken was]
      exact List.nil_prefix
    · exact locked.taken e taken (by rw [← others e other]; exact was)
  owner name e := by
    rw [locks, locked.owner name e]
    rcases eq_or_ne e c with rfl | other
    · rw [mine]
    · rw [others e other]

theorem Locked.take {g : Setting} {s : State} {c : Nat} {taken : List Text} {d : Text}
    (locked : Locked g s) (was : s.stage c = .locking taken)
    (next : (g.devs c)[taken.length]? = some d) (free : s.locks (lockFileFor d) = none) :
    Locked g (({ s with locks := Function.update s.locks (lockFileFor d) (some c) } : State).set
      c (.locking (taken ++ [d]))) where
  taken e list now := by
    rcases eq_or_ne e c with rfl | other
    · rw [set_self] at now
      cases now
      obtain ⟨rest, whole⟩ := locked.taken e taken was
      rw [← whole, List.getElem?_append_right (le_refl _), Nat.sub_self] at next
      obtain ⟨head, tail⟩ : ∃ tail, rest = d :: tail := by
        cases rest with
        | nil => cases next
        | cons first tail =>
            cases next
            exact ⟨tail, rfl⟩
      exact ⟨head, by rw [← whole, tail, List.append_assoc]; rfl⟩
    · rw [set_other _ _ other] at now
      exact locked.taken e list now
  owner name e := by
    show Function.update s.locks (lockFileFor d) (some c) name = some e ↔ _
    rcases eq_or_ne e c with rfl | other
    · have mine : name ∈ taken.map lockFileFor ↔ s.locks name = some e := by
        rw [locked.owner name e, was]
        rfl
      rw [set_self]
      show _ ↔ name ∈ (taken ++ [d]).map lockFileFor
      rw [List.map_append, List.mem_append, List.map_singleton, List.mem_singleton, mine]
      rcases eq_or_ne name (lockFileFor d) with rfl | differs
      · simp
      · rw [Function.update_of_ne differs]
        simp [differs]
    · rw [set_other _ _ other]
      rcases eq_or_ne name (lockFileFor d) with rfl | differs
      · have unowned := (locked.owner (lockFileFor d) e).not.mp (by rw [free]; simp)
        rw [Function.update_self, Option.some.injEq]
        exact ⟨fun same => absurd same.symm other, fun owned => absurd owned unowned⟩
      · rw [Function.update_of_ne differs]
        exact locked.owner name e

theorem Locked.release {g : Setting} {s after : State} {c : Nat} (locked : Locked g s)
    (locks : after.locks = (s.unlock (g.locked c (s.stage c))).locks)
    (others : ∀ e, e ≠ c → after.stage e = s.stage e)
    (mine : g.locked c (after.stage c) = []) (none_ : ∀ taken, after.stage c ≠ .locking taken) :
    Locked g after where
  taken e taken was := by
    rcases eq_or_ne e c with rfl | other
    · exact absurd was (none_ taken)
    · exact locked.taken e taken (by rw [← others e other]; exact was)
  owner name e := by
    rw [locks]
    show (if name ∈ g.locked c (s.stage c) then none else s.locks name) = some e ↔ _
    have owned := locked.owner name c
    rcases eq_or_ne e c with rfl | other
    · rw [mine]
      split
      · simp
      · next out => simp [owned, out]
    · rw [others e other, ← locked.owner name e]
      split
      · next own =>
          rw [owned.mpr own]
          simp [Ne.symm other]
      · exact Iff.rfl

theorem Locked.effect {g : Setting} {s after : State} (locked : Locked g s)
    (effect : Effect g s after) : Locked g after := by
  cases effect with
  | quiet c stage same _ _ none_ _ _ =>
      exact locked.same rfl (fun e other => set_other _ _ other) (by rw [set_self, same])
        (by rw [set_self]; exact none_)
  | hold c was _ =>
      refine locked.same (c := c) rfl (fun e other => set_other _ _ other) ?_ ?_
      · rw [set_self, was]
        rfl
      · rw [set_self]
        rintro _ ⟨⟩
        rfl
  | lock c taken d was next free => exact locked.take was next free
  | busy c taken was =>
      refine locked.release (c := c) (by rw [was]; rfl) (fun e other => set_other _ _ other) ?_ ?_
      · rw [set_self]
        rfl
      · rw [set_self]
        intro _ same
        cases same
  | leave c _ _ =>
      refine locked.release (c := c) rfl (fun e other => set_other _ _ other) ?_ ?_
      · rw [State.leave, set_self]
        rfl
      · rw [State.leave, set_self]
        intro _ same
        cases same
  | destroy c made cleared path mount gone stage was _ now =>
      refine locked.same (c := c) rfl (fun e other => set_other _ _ other) ?_ ?_
      · rw [set_self, was]
        rcases now with rfl | rfl <;> rfl
      · rw [set_self]
        rcases now with rfl | rfl <;> rintro _ ⟨⟩
  | setUp c made path mount minor was _ _ =>
      refine locked.same (c := c) rfl (fun e other => set_other _ _ other) ?_ ?_
      · rw [set_self, was]
        rfl
      · rw [set_self]
        rintro _ ⟨⟩
  | setUpLost c made path mount minor was _ _ =>
      refine locked.same (c := c) rfl (fun e other => set_other _ _ other) ?_ ?_
      · rw [set_self, was]
        rfl
      · rw [set_self]
        rintro _ ⟨⟩
  | clean c made path minor succeeded was =>
      refine locked.same (c := c) rfl (fun e other => set_other _ _ other) ?_ ?_
      · rw [set_self, was]
        rfl
      · rw [set_self]
        rintro _ ⟨⟩

/-- At the snapshots: from the first set-up to the last cleanup. -/
def Stage.snapshots : Stage → Bool
  | .creating _ _ | .reading _ | .cleaning _ => true
  | _ => false

theorem locked_snapshots {g : Setting} {c : Nat} {stage : Stage} (on : stage.snapshots = true) :
    g.locked c stage = (g.devs c).map lockFileFor := by
  cases stage <;> first | rfl | cases on

/-- Between programs too, a device is one call's. -/
theorem Locked.single {g : Setting} {s : State} (locked : Locked g s) {c e : Nat} {d : Text}
    (first : d ∈ g.devs c) (second : d ∈ g.devs e) (onC : (s.stage c).snapshots = true)
    (onE : (s.stage e).snapshots = true) : c = e := by
  have one := (locked.owner (lockFileFor d) c).mpr
    (by rw [locked_snapshots onC]; exact List.mem_map_of_mem first)
  have two := (locked.owner (lockFileFor d) e).mpr
    (by rw [locked_snapshots onE]; exact List.mem_map_of_mem second)
  rw [one] at two
  exact Option.some.inj two

/-! Tracers. -/

theorem mem_devs {g : Setting} {c : Nat} {d : Text} :
    d ∈ g.devs c ↔ ∃ path ∈ g.paths c, g.device path = some d := by
  rw [Setting.devs, List.mem_eraseDups, List.mem_filterMap]

theorem next_split {g : Setting} {c : Nat} {made : List (Text × Nat)} {path : Text} {mount : Mount}
    (next : g.next c made = some (path, mount)) (order : made.map Prod.fst <+: g.paths c) :
    (∃ rest, g.paths c = made.map Prod.fst ++ path :: rest) ∧ g.device path = some mount.source := by
  obtain ⟨found, place, mapped⟩ := Option.bind_eq_some_iff.mp next
  obtain ⟨other, leads, same⟩ := Option.map_eq_some_iff.mp mapped
  cases same
  constructor
  · obtain ⟨rest, whole⟩ := order
    rw [← whole, List.getElem?_append_right (by rw [List.length_map]), List.length_map,
      Nat.sub_self] at place
    cases rest with
    | nil => cases place
    | cons first rest =>
        cases place
        exact ⟨rest, whole.symm⟩
  · rw [Setting.device, leads]
    rfl

/-- The paths of each call are on devices of their own. -/
def Apart (g : Setting) : Prop := ∀ c, ((g.paths c).filterMap g.device).Nodup

theorem Apart.earlier {g : Setting} (apart : Apart g) {c : Nat} {before rest : List Text}
    {path other d : Text} (split : g.paths c = before ++ path :: rest) (member : other ∈ before)
    (first : g.device other = some d) (second : g.device path = some d) : False := by
  have all := apart c
  rw [split, List.filterMap_append, List.filterMap_cons_some second] at all
  exact (List.nodup_append.mp all).2.2 d (List.mem_filterMap.mpr ⟨other, member, first⟩) d
    List.mem_cons_self rfl

theorem made_snapshots {stage : Stage} {made : Text × Nat} (member : made ∈ stage.made) :
    stage.snapshots = true := by
  cases stage <;> first | rfl | exact absurd member List.not_mem_nil

/-- A call makes its snapshots in the order of its paths, all before it reads. -/
structure Ordered (g : Setting) (s : State) : Prop where
  order : ∀ c, (s.stage c).made.map Prod.fst <+: g.paths c
  whole : ∀ c made, s.stage c = .reading made → made.length = (g.paths c).length

theorem Ordered.step {g : Setting} {s after : State} {c : Nat} (ordered : Ordered g s)
    (others : ∀ e, e ≠ c → after.stage e = s.stage e)
    (order : (after.stage c).made.map Prod.fst <+: g.paths c)
    (whole : ∀ made, after.stage c = .reading made → made.length = (g.paths c).length) :
    Ordered g after where
  order e := by
    rcases eq_or_ne e c with rfl | other
    · exact order
    · rw [others e other]
      exact ordered.order e
  whole e made now := by
    rcases eq_or_ne e c with rfl | other
    · exact whole made now
    · exact ordered.whole e made (by rw [← others e other]; exact now)

theorem Ordered.effect {g : Setting} {s after : State} (ordered : Ordered g s)
    (effect : Effect g s after) : Ordered g after := by
  cases effect with
  | quiet c stage _ _ same _ whole _ =>
      refine ordered.step (c := c) (fun e other => set_other _ _ other) ?_ ?_
      · rw [set_self, same]
        exact ordered.order c
      · rw [set_self]
        exact whole
  | hold c | lock c | busy c | leave c =>
      refine ordered.step (c := c) (fun e other => set_other _ _ other) ?_ ?_
      · simp only [State.leave, set_self]
        exact List.nil_prefix
      · simp only [State.leave, set_self]
        rintro _ ⟨⟩
  | destroy c made cleared path mount gone stage was _ now =>
      have order := ordered.order c
      rw [was] at order
      refine ordered.step (c := c) (fun e other => set_other _ _ other) ?_ ?_
      · rw [set_self]
        rcases now with rfl | rfl <;> exact order
      · rw [set_self]
        rcases now with rfl | rfl <;> rintro _ ⟨⟩
  | setUp c made path mount minor was next _ =>
      have order := ordered.order c
      rw [was] at order
      obtain ⟨⟨rest, split⟩, _⟩ := next_split next order
      refine ordered.step (c := c) (fun e other => set_other _ _ other) ?_ ?_
      · rw [set_self, split]
        exact ⟨rest, by simp [Stage.made]⟩
      · rw [set_self]
        rintro _ ⟨⟩
  | setUpLost c made path mount minor was _ _ =>
      have order := ordered.order c
      rw [was] at order
      refine ordered.step (c := c) (fun e other => set_other _ _ other) ?_ ?_
      · rw [set_self]
        exact order
      · rw [set_self]
        rintro _ ⟨⟩
  | clean c made path minor succeeded was =>
      have order := ordered.order c
      rw [was] at order
      obtain ⟨rest, split⟩ := order
      refine ordered.step (c := c) (fun e other => set_other _ _ other) ?_ ?_
      · rw [set_self, ← split]
        exact ⟨path :: rest, by simp [Stage.made]⟩
      · rw [set_self]
        rintro _ ⟨⟩

/-- What a call has made is there, for the devices it asked for and its own. -/
def Live (g : Setting) (s : State) : Prop :=
  ∀ c path minor, (path, minor) ∈ (s.stage c).made →
    ∃ d, g.device path = some d ∧ s.tracers minor = some ⟨d, some c, true⟩

theorem Live.step {g : Setting} {s after : State} {c : Nat} (live : Live g s)
    (others : ∀ e, e ≠ c → after.stage e = s.stage e)
    (mine : ∀ path minor, (path, minor) ∈ (after.stage c).made →
      ∃ d, g.device path = some d ∧ after.tracers minor = some ⟨d, some c, true⟩)
    (kept : ∀ e, e ≠ c → ∀ path minor d, (path, minor) ∈ (s.stage e).made →
      g.device path = some d → s.tracers minor = some ⟨d, some e, true⟩ →
      after.tracers minor = some ⟨d, some e, true⟩) : Live g after := by
  intro e path minor member
  rcases eq_or_ne e c with rfl | other
  · exact mine path minor member
  · rw [others e other] at member
    obtain ⟨d, leads, found⟩ := live e path minor member
    exact ⟨d, leads, kept e other path minor d member leads found⟩

/-- Another call is set up or cleared on another device. -/
theorem elsewhere {g : Setting} {s : State} (locked : Locked g s) (ordered : Ordered g s)
    {c e minor : Nat} {path here d : Text} (other : e ≠ c) (on : (s.stage c).snapshots = true)
    (own : here ∈ g.devs c) (member : (path, minor) ∈ (s.stage e).made)
    (leads : g.device path = some d) : d ≠ here := by
  rintro rfl
  have inside : path ∈ g.paths e :=
    (ordered.order e).subset (List.mem_map.mpr ⟨_, member, rfl⟩)
  exact other (locked.single (mem_devs.mpr ⟨path, inside, leads⟩) own (made_snapshots member) on)

theorem Live.destroyed {g : Setting} {s : State} {c : Nat} {made : List (Text × Nat)}
    {cleared : Bool} {path : Text} {mount : Mount} {gone : Nat → Bool} {stage : Stage}
    (apart : Apart g) (locked : Locked g s) (ordered : Ordered g s) (live : Live g s)
    (was : s.stage c = .creating made cleared) (next : g.next c made = some (path, mount))
    (same : stage.made = made) : Live g ((s.destroy mount.source gone).set c stage) := by
  have order := ordered.order c
  rw [was] at order
  obtain ⟨⟨rest, split⟩, leads⟩ := next_split next order
  have own : mount.source ∈ g.devs c :=
    mem_devs.mpr ⟨path, by rw [split]; exact List.mem_append_right _ List.mem_cons_self, leads⟩
  have spared : ∀ (minor : Nat) (d : Text) (e : Nat), d ≠ mount.source →
      s.tracers minor = some ⟨d, some e, true⟩ →
      (s.destroy mount.source gone).tracers minor = some ⟨d, some e, true⟩ := by
    intro minor d e away found
    simp [State.destroy, found, away]
  refine live.step (c := c) (fun e other => set_other _ _ other) ?_ ?_
  · intro other minor member
    rw [set_self, same] at member
    obtain ⟨d, known, found⟩ := live c other minor (by rw [was]; exact member)
    refine ⟨d, known, spared minor d c ?_ found⟩
    rintro rfl
    exact apart.earlier split (List.mem_map.mpr ⟨_, member, rfl⟩) known leads
  · intro e other path minor d member known found
    exact spared minor d e
      (elsewhere locked ordered other (by rw [was]; rfl) own member known) found

theorem attach_keeps {s : State} {c minor other : Nat} {device : Text} {t : Tracer}
    (free : s.tracers minor = none) (found : s.tracers other = some t) :
    (s.attach c minor device).tracers other = some t := by
  have differs : other ≠ minor := by
    rintro rfl
    rw [free] at found
    cases found
  exact (Function.update_of_ne differs ..).trans found

theorem detach_keeps {g : Setting} {s : State} {c minor other : Nat} {succeeded : Bool} {t : Tracer}
    (differs : other ≠ minor) (found : s.tracers other = some t) :
    (s.detach g c minor succeeded).tracers other = some t := by
  unfold State.detach
  split
  · exact (Function.update_of_ne differs ..).trans found
  · exact found

theorem Live.effect {g : Setting} {s after : State} (apart : Apart g) (locked : Locked g s)
    (ordered : Ordered g s) (live : Live g s) (effect : Effect g s after) : Live g after := by
  -- steps that leave the tracers alone
  have still : ∀ {after : State} (c : Nat), after.tracers = s.tracers →
      (∀ e, e ≠ c → after.stage e = s.stage e) → (after.stage c).made = (s.stage c).made →
      Live g after := by
    intro after c tracers others same
    refine live.step (c := c) others ?_ ?_
    · rw [same, tracers]
      exact live c
    · rw [tracers]
      exact fun _ _ _ _ _ _ _ found => found
  cases effect with
  | quiet c stage _ _ same _ _ _ =>
      exact still c rfl (fun e other => set_other _ _ other) (by rw [set_self, same])
  | hold c was _ | lock c _ _ was _ _ | busy c _ was =>
      exact still c rfl (fun e other => set_other _ _ other) (by rw [set_self, was]; rfl)
  | leave c _ empty =>
      exact still c rfl (fun e other => set_other _ _ other)
        (by rw [State.leave, set_self, empty]; rfl)
  | destroy c made cleared path mount gone stage was next now =>
      refine live.destroyed apart locked ordered was next ?_
      rcases now with rfl | rfl <;> rfl
  | setUp c made path mount minor was next free =>
      have order := ordered.order c
      rw [was] at order
      obtain ⟨_, leads⟩ := next_split next order
      refine live.step (c := c) (fun e other => set_other _ _ other) ?_ ?_
      · intro other number member
        rw [set_self] at member
        rcases List.mem_append.mp member with old | new
        · obtain ⟨d, known, found⟩ := live c other number (by rw [was]; exact old)
          exact ⟨d, known, attach_keeps free found⟩
        · cases List.mem_singleton.mp new
          exact ⟨mount.source, leads, Function.update_self ..⟩
      · exact fun _ _ _ _ _ _ _ found => attach_keeps free found
  | setUpLost c made path mount minor was next free =>
      refine live.step (c := c) (fun e other => set_other _ _ other) ?_ ?_
      · intro other number member
        rw [set_self] at member
        obtain ⟨d, known, found⟩ := live c other number (by rw [was]; exact member)
        exact ⟨d, known, attach_keeps free found⟩
      · exact fun _ _ _ _ _ _ _ found => attach_keeps free found
  | clean c made path minor succeeded was =>
      have order := ordered.order c
      rw [was] at order
      obtain ⟨rest, split⟩ := order
      have last : (path, minor) ∈ (s.stage c).made := by
        rw [was]
        exact List.mem_append_right _ List.mem_cons_self
      obtain ⟨here, leads, own⟩ := live c path minor last
      refine live.step (c := c) (fun e other => set_other _ _ other) ?_ ?_
      · intro other number member
        rw [set_self] at member
        have before : (other, number) ∈ (s.stage c).made := by
          rw [was]
          exact List.mem_append_left _ member
        obtain ⟨d, known, found⟩ := live c other number before
        refine ⟨d, known, detach_keeps (g := g) (c := c) ?_ found⟩
        rintro rfl
        rw [own] at found
        cases found
        have place : g.paths c = made.map Prod.fst ++ path :: rest := by
          rw [← split]
          simp [Stage.made]
        exact apart.earlier place (List.mem_map.mpr ⟨_, member, rfl⟩) known leads
      · intro e other place number d member known found
        refine detach_keeps (g := g) (c := c) ?_ found
        rintro rfl
        rw [own] at found
        cases found
        exact other rfl

/-- What a call clears a device for is a path of its own. -/
def Ready (g : Setting) (s : State) : Prop :=
  ∀ c made, s.stage c = .creating made true → ∃ path mount, g.next c made = some (path, mount)

theorem Ready.step {g : Setting} {s after : State} {c : Nat} (ready : Ready g s)
    (others : ∀ e, e ≠ c → after.stage e = s.stage e)
    (mine : ∀ made, after.stage c = .creating made true →
      ∃ path mount, g.next c made = some (path, mount)) : Ready g after := by
  intro e made now
  rcases eq_or_ne e c with rfl | other
  · exact mine made now
  · exact ready e made (by rw [← others e other]; exact now)

theorem Ready.effect {g : Setting} {s after : State} (ready : Ready g s)
    (effect : Effect g s after) : Ready g after := by
  cases effect with
  | quiet c stage _ _ _ _ _ begun =>
      refine ready.step (c := c) (fun e other => set_other _ _ other) ?_
      rw [set_self]
      exact fun made now => absurd now (begun made)
  | destroy c made cleared path mount gone stage _ next now =>
      refine ready.step (c := c) (fun e other => set_other _ _ other) ?_
      rw [set_self]
      rcases now with rfl | rfl
      · rintro _ ⟨⟩
        exact ⟨path, mount, next⟩
      · rintro _ ⟨⟩
  | hold c | lock c | busy c | setUp c | setUpLost c | clean c | leave c =>
      refine ready.step (c := c) (fun e other => set_other _ _ other) ?_
      simp only [State.leave, set_self]
      rintro _ ⟨⟩

/-- What holds whatever the paths are. -/
structure Sound (g : Setting) (s : State) : Prop where
  held : Held g s
  locked : Locked g s
  ordered : Ordered g s
  ready : Ready g s

theorem sound_start {g : Setting} {s : State} (fresh : s.Fresh) : Sound g s where
  held := by
    constructor
    · intro program d
      simp [fresh.held, fresh.stage, Stage.holds]
    · intro c e d _ _ _ on
      rw [fresh.stage c] at on
      cases on
  locked := by
    constructor
    · intro c taken was
      rw [fresh.stage c] at was
      cases was
    · intro name c
      simp [fresh.locks, fresh.stage, Setting.locked]
  ordered := by
    constructor
    · intro c
      rw [fresh.stage c]
      exact List.nil_prefix
    · intro c made was
      rw [fresh.stage c] at was
      cases was
  ready := by
    intro c made was
    rw [fresh.stage c] at was
    cases was

theorem sound_step {g : Setting} {s after : State} {action : Action} (sound : Sound g s)
    (moved : step g s action = some after) : Sound g after := by
  have effect := effect_of_step sound.locked.taken moved
  exact ⟨sound.held.effect effect, sound.locked.effect effect, sound.ordered.effect effect,
    sound.ready.effect effect⟩

theorem sound_invariant (g : Setting) : Invariant (snapshotSystem g) (Sound g) where
  start _ fresh := sound_start fresh
  step _ _ _ sound moved := sound_step sound moved

theorem live_invariant {g : Setting} (apart : Apart g) :
    Invariant (snapshotSystem g) fun s => Sound g s ∧ Live g s := by
  refine (sound_invariant g).relative ?_ ?_
  · intro s fresh c path minor member
    rw [fresh.stage c] at member
    cases member
  · intro s action after sound _ live moved
    exact live.effect apart sound.locked sound.ordered (effect_of_step sound.locked.taken moved)

end ProxmoxBackup.LinuxSnapshots
