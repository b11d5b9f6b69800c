import ProxmoxBackup.LinuxSnapshots
import Mathlib.Data.List.Induction

/-! That no call waits for good: whatever the calls have come to, those in the way
of one can be brought to their ends, or to let go of their lock files, by steps
that cancel nothing. With the invariants this gives what CreateVSSSnapshotCtx keeps
as long as no call has two paths on one device. -/

namespace ProxmoxBackup.LinuxSnapshots

open RestorePaths TransitionSystem

def Action.cancels : Action → Bool
  | .giveUp _ => true
  | _ => false

def uncancelled (g : Setting) : System State Action :=
  (snapshotSystem g).restrict fun _ action => action.cancels = false

/-- Some run that cancels nothing ends in such a state. -/
def Leads (g : Setting) (s : State) (holds : State → Prop) : Prop :=
  ∃ actions after, Run (uncancelled g) s actions after ∧ holds after

theorem Leads.now {g : Setting} {s : State} {holds : State → Prop} (already : holds s) :
    Leads g s holds :=
  ⟨[], s, Run.stop s, already⟩

theorem Leads.step {g : Setting} {s middle : State} {holds : State → Prop} (action : Action)
    (free : action.cancels = false) (moved : step g s action = some middle)
    (later : Leads g middle holds) : Leads g s holds := by
  obtain ⟨actions, after, run, reached⟩ := later
  exact ⟨action :: actions, after, Run.next ⟨moved, free⟩ run, reached⟩

theorem Leads.trans {g : Setting} {s : State} {first holds : State → Prop} (leads : Leads g s first)
    (later : ∀ middle, first middle → Leads g middle holds) : Leads g s holds := by
  obtain ⟨actions, middle, run, reached⟩ := leads
  obtain ⟨more, after, tail, ended⟩ := later middle reached
  exact ⟨actions ++ more, after, run_append run tail, ended⟩

theorem Leads.mono {g : Setting} {s : State} {first holds : State → Prop} (leads : Leads g s first)
    (weaker : ∀ after, first after → holds after) : Leads g s holds :=
  leads.trans fun middle reached => Leads.now (weaker middle reached)

theorem Leads.sound {g : Setting} {s : State} {holds : State → Prop}
    (sound : Sound g s) (leads : Leads g s holds) :
    Leads g s fun after => Sound g after ∧ holds after := by
  obtain ⟨actions, after, run, reached⟩ := leads
  exact ⟨actions, after, run, (sound_invariant g).run (restrict_run run) sound, reached⟩

/-- Only the stage of `c` is another one. -/
def Only (s : State) (c : Nat) (stage : Stage) (after : State) : Prop :=
  after.stage = Function.update s.stage c stage

theorem Only.trans {s middle after : State} {c : Nat} {first second : Stage}
    (one : Only s c first middle) (two : Only middle c second after) : Only s c second after := by
  rw [Only, one, Function.update_idem] at two
  exact two

/-- `base` is `s` but for what is not a stage. -/
theorem leads_set {g : Setting} {s base : State} {c : Nat} {stage last : Stage} (action : Action)
    (free : action.cancels = false) (moved : step g s action = some (base.set c stage))
    (same : base.stage = s.stage)
    (later : Leads g (base.set c stage) (Only (base.set c stage) c last)) :
    Leads g s (Only s c last) := by
  refine Leads.step action free moved (later.mono fun after two => ?_)
  have one : Only s c stage (base.set c stage) := by
    show Function.update base.stage c stage = _
    rw [same]
  exact one.trans two

theorem clean_ends {g : Setting} (c : Nat) (made : List (Text × Nat)) {s : State}
    (was : s.stage c = .cleaning made) : Leads g s (Only s c .ended) := by
  induction made using List.reverseRecOn generalizing s with
  | nil =>
      have moved : step g s (.clean c true) = some (s.leave g c ((g.devs c).map lockFileFor)) := by
        simp [step, was]
      exact Leads.step _ rfl moved (Leads.now rfl)
  | append_singleton made last ih =>
      have moved : step g s (.clean c true) =
          some ((s.detach g c last.2 true).set c (.cleaning made)) := by
        simp [step, was]
      exact leads_set _ rfl moved rfl (ih (set_self _ _ _))

theorem reading_ends {g : Setting} {s : State} {c : Nat} {made : List (Text × Nat)}
    (was : s.stage c = .reading made) : Leads g s (Only s c .ended) := by
  have moved : step g s (.callbackReturns c) = some (s.set c (.cleaning made)) := by
    simp [step, was]
  exact leads_set _ rfl moved rfl (clean_ends c made (set_self _ _ _))

theorem creating_ends {g : Setting} {s : State} {c : Nat} {made : List (Text × Nat)}
    {cleared : Bool} (sound : Sound g s) (was : s.stage c = .creating made cleared) :
    Leads g s (Only s c .ended) := by
  have order : made.map Prod.fst <+: g.paths c := by
    have order := sound.ordered.order c
    rw [was] at order
    exact order
  have short := order.length_le
  rw [List.length_map] at short
  rcases short.lt_or_eq with more | all
  · have failing : ∃ base : State, base.stage = s.stage ∧
        step g s (.createFails c fun _ => false) = some (base.set c (.cleaning made)) := by
      simp only [step, was]
      split
      · split
        · exact ⟨s, rfl, rfl⟩
        · exact ⟨s.destroy _ _, rfl, rfl⟩
      · rw [if_pos more]
        exact ⟨s, rfl, rfl⟩
    obtain ⟨base, same, moved⟩ := failing
    exact leads_set _ rfl moved same (clean_ends c made (set_self _ _ _))
  · -- a path to clear for is one that is still to come
    have uncleared : cleared = false := by
      cases cleared with
      | false => rfl
      | true =>
          obtain ⟨path, mount, next⟩ := sound.ready c made was
          obtain ⟨found, place, _⟩ := Option.bind_eq_some_iff.mp next
          have inside := (List.getElem?_eq_some_iff.mp place).1
          omega
    subst uncleared
    have moved : step g s (.read c) = some (s.set c (.reading made)) := by
      simp only [step, was]
      rw [if_pos all]
    exact leads_set _ rfl moved rfl (reading_ends (set_self _ _ _))

theorem snapshots_end {g : Setting} {s : State} {c : Nat} (sound : Sound g s)
    (on : (s.stage c).snapshots = true) : Leads g s (Only s c .ended) := by
  cases was : s.stage c with
  | cleaning made => exact clean_ends c made was
  | reading made => exact reading_ends was
  | creating made cleared => exact creating_ends sound was
  | idle | asking | locking _ | polling | ended =>
      rw [was] at on
      cases on

/-- A call at its lock files gets them all and ends, or lets go of them. -/
theorem locking_lets_go {g : Setting} {c : Nat} (left : Nat) {s : State}
    {taken : List Text} (sound : Sound g s) (was : s.stage c = .locking taken)
    (few : (g.devs c).length ≤ taken.length + left) :
    Leads g s (Only s c .ended) ∨ Leads g s (Only s c .polling) := by
  induction left generalizing s taken with
  | zero =>
      have all : (g.devs c)[taken.length]? = none := List.getElem?_eq_none_iff.mpr (by omega)
      have moved : step g s (.lock c) = some (s.set c (.creating [] false)) := by
        simp only [step, was, all]
      exact Or.inl (leads_set _ rfl moved rfl
        (creating_ends (sound_step sound moved) (set_self _ _ _)))
  | succ left ih =>
      cases next : (g.devs c)[taken.length]? with
      | none => exact ih sound was (by have := List.getElem?_eq_none_iff.mp next; omega)
      | some d =>
          by_cases free : s.locks (lockFileFor d) = none
          · have moved : step g s (.lock c) =
                some (({ s with locks := Function.update s.locks (lockFileFor d) (some c) } : State).set
                  c (.locking (taken ++ [d]))) := by
              simp only [step, was, next, if_pos free]
            have more : (g.devs c).length ≤ (taken ++ [d]).length + left := by
              rw [List.length_append, List.length_singleton]
              omega
            rcases ih (sound_step sound moved) (set_self _ _ _) more with ended | polling
            · exact Or.inl (leads_set _ rfl moved rfl ended)
            · exact Or.inr (leads_set _ rfl moved rfl polling)
          · have moved : step g s (.lock c) =
                some ((s.unlock (taken.map lockFileFor)).set c .polling) := by
              simp only [step, was, next, if_neg free]
            exact Or.inr (Leads.step _ rfl moved (Leads.now rfl))

/-- Other calls have come to their ends or let go of their lock files. -/
def Calmer (s after : State) : Prop := ∀ c, after.stage c = s.stage c ∨
  ((s.stage c).holds = true ∧ (after.stage c = .ended ∨ after.stage c = .polling))

theorem Calmer.trans {s middle after : State} (one : Calmer s middle) (two : Calmer middle after) :
    Calmer s after := by
  intro c
  rcases two c with same | ⟨on, fewer⟩
  · rw [same]
    exact one c
  · rcases one c with kept | ⟨held, _⟩
    · exact Or.inr ⟨by rw [← kept]; exact on, fewer⟩
    · exact Or.inr ⟨held, fewer⟩

theorem Only.calmer {s after : State} {c : Nat} {stage : Stage} (one : Only s c stage after)
    (on : (s.stage c).holds = true) (fewer : stage = .ended ∨ stage = .polling) :
    Calmer s after := by
  intro e
  rw [one]
  rcases eq_or_ne e c with rfl | other
  · rw [Function.update_self]
    exact Or.inr ⟨on, fewer⟩
  · exact Or.inl (Function.update_of_ne other ..)

/-- Who lets go of a lock file leaves it free, and takes none. -/
theorem Only.unlocked {g : Setting} {s after : State} {c : Nat} {stage : Stage}
    (one : Only s c stage after) (before : Sound g s) (later : Sound g after)
    (fewer : stage = .ended ∨ stage = .polling) (name : Text)
    (owner : s.locks name = none ∨ s.locks name = some c) : after.locks name = none := by
  rw [Option.eq_none_iff_forall_ne_some]
  intro e taken
  have owned := (later.locked.owner name e).mp taken
  rw [one] at owned
  rcases eq_or_ne e c with rfl | other
  · rw [Function.update_self] at owned
    rcases fewer with rfl | rfl <;> cases owned
  · rw [Function.update_of_ne other] at owned
    have had := (before.locked.owner name e).mpr owned
    rcases owner with free | mine
    · rw [free] at had
      cases had
    · rw [mine] at had
      exact other (Option.some.inj had).symm

/-- Everyone who has a lock file can be brought to let go of it. -/
theorem owner_lets_go {g : Setting} {s : State} {c : Nat} {name : Text}
    (sound : Sound g s) (owned : s.locks name = some c) :
    (s.stage c).holds = true ∧ ∃ stage, (stage = .ended ∨ stage = .polling) ∧
      Leads g s (Only s c stage) := by
  have mine := (sound.locked.owner name c).mp owned
  cases was : s.stage c with
  | locking taken =>
      refine ⟨rfl, ?_⟩
      rcases locking_lets_go (g.devs c).length sound was (by omega) with ended | polling
      · exact ⟨_, Or.inl rfl, ended⟩
      · exact ⟨_, Or.inr rfl, polling⟩
  | creating _ _ | reading _ | cleaning _ =>
      exact ⟨rfl, _, Or.inl rfl, snapshots_end sound (by rw [was]; rfl)⟩
  | idle | asking | polling | ended =>
      rw [was] at mine
      cases mine

theorem names_freed {g : Setting} {c : Nat} (names : List Text) {s : State}
    (sound : Sound g s) (was : s.stage c = .polling) :
    Leads g s fun after => Sound g after ∧ Calmer s after ∧ after.stage c = .polling ∧
      ∀ name ∈ names, after.locks name = none := by
  induction names with
  | nil => exact Leads.now ⟨sound, fun _ => Or.inl rfl, was, fun _ member => absurd member List.not_mem_nil⟩
  | cons name rest ih =>
      refine ih.trans fun middle ⟨kept, calmer, still, free⟩ => ?_
      cases owner : middle.locks name with
      | none =>
          refine Leads.now ⟨kept, calmer, still, fun other member => ?_⟩
          rcases List.mem_cons.mp member with rfl | later
          · exact owner
          · exact free other later
      | some e =>
          obtain ⟨on, stage, fewer, leads⟩ := owner_lets_go kept owner
          have other : c ≠ e := by
            rintro rfl
            have mine := (kept.locked.owner name c).mp owner
            rw [still] at mine
            cases mine
          refine (leads.sound kept).mono fun after ⟨later, one⟩ => ?_
          refine ⟨later, calmer.trans (one.calmer on fewer), ?_, fun wanted member => ?_⟩
          · rw [one, Function.update_of_ne other]
            exact still
          · refine one.unlocked kept later fewer wanted ?_
            rcases List.mem_cons.mp member with rfl | listed
            · exact Or.inr owner
            · exact Or.inl (free wanted listed)

/-- With all its lock files free a call gets to its end. -/
theorem free_locking_ends {g : Setting} {c : Nat} (left : List Text) {s : State}
    {taken : List Text} (sound : Sound g s) (was : s.stage c = .locking taken)
    (split : g.devs c = taken ++ left) (distinct : (left.map lockFileFor).Nodup)
    (free : ∀ d ∈ left, s.locks (lockFileFor d) = none) : Leads g s (Only s c .ended) := by
  induction left generalizing s taken with
  | nil =>
      have all : (g.devs c)[taken.length]? = none := by
        rw [split, List.append_nil]
        exact List.getElem?_eq_none_iff.mpr (le_refl _)
      have moved : step g s (.lock c) = some (s.set c (.creating [] false)) := by
        simp only [step, was, all]
      exact leads_set _ rfl moved rfl (creating_ends (sound_step sound moved) (set_self _ _ _))
  | cons d left ih =>
      have next : (g.devs c)[taken.length]? = some d := by
        rw [split, List.getElem?_append_right (le_refl _), Nat.sub_self]
        rfl
      have moved : step g s (.lock c) =
          some (({ s with locks := Function.update s.locks (lockFileFor d) (some c) } : State).set
            c (.locking (taken ++ [d]))) := by
        simp only [step, was, next, if_pos (free d List.mem_cons_self)]
      rw [List.map_cons, List.nodup_cons] at distinct
      refine leads_set _ rfl moved rfl (ih (sound_step sound moved) (set_self _ _ _)
        (by rw [split, List.append_assoc, List.singleton_append]) distinct.2 fun other member => ?_)
      have differs : lockFileFor other ≠ lockFileFor d := by
        intro same
        exact distinct.1 (List.mem_map.mpr ⟨other, member, same⟩)
      exact (Function.update_of_ne differs ..).trans (free other (List.mem_cons_of_mem _ member))

/-- The lock files of a call are different files. -/
def OwnFiles (g : Setting) : Prop := ∀ c, ((g.devs c).map lockFileFor).Nodup

theorem polling_ends {g : Setting} {s : State} {c : Nat} (files : OwnFiles g)
    (sound : Sound g s) (was : s.stage c = .polling) :
    Leads g s fun after => Calmer s after ∧ after.stage c = .ended := by
  refine (names_freed ((g.devs c).map lockFileFor) sound was).trans
    fun middle ⟨kept, calmer, still, free⟩ => ?_
  have moved : step g middle (.retry c) = some (middle.set c (.locking [])) := by
    simp only [step, if_pos still]
  have ends := leads_set _ rfl moved rfl (free_locking_ends (g.devs c)
    (sound_step kept moved) (set_self _ _ _) rfl (files c)
    fun d member => free _ (List.mem_map_of_mem member))
  refine ends.mono fun after one => ⟨calmer.trans (one.calmer (by rw [still]; rfl) (Or.inl rfl)), ?_⟩
  rw [one, Function.update_self]

theorem holder_ends {g : Setting} {s : State} {c : Nat} (files : OwnFiles g)
    (sound : Sound g s) (on : (s.stage c).holds = true) :
    Leads g s fun after => Calmer s after ∧ after.stage c = .ended := by
  have alone : Leads g s (Only s c .ended) →
      Leads g s fun after => Calmer s after ∧ after.stage c = .ended := fun leads =>
    leads.mono fun after one => ⟨one.calmer on (Or.inl rfl), by rw [one, Function.update_self]⟩
  cases was : s.stage c with
  | polling => exact polling_ends files sound was
  | locking taken =>
      rcases locking_lets_go (g.devs c).length sound was (by omega) with ended | polling
      · exact alone ended
      · refine (polling.sound sound).trans fun middle ⟨kept, one⟩ => ?_
        have calmer := one.calmer on (Or.inr rfl)
        have still : middle.stage c = .polling := by rw [one, Function.update_self]
        exact (polling_ends files kept still).mono
          fun after ⟨later, ended⟩ => ⟨calmer.trans later, ended⟩
  | creating _ _ | reading _ | cleaning _ =>
      exact alone (snapshots_end sound (by rw [was]; rfl))
  | idle | asking | ended =>
      rw [was] at on
      cases on

theorem Calmer.holds {s after : State} (calmer : Calmer s after) {c : Nat}
    (on : (after.stage c).holds = true) : (s.stage c).holds = true := by
  rcases calmer c with same | ⟨held, _⟩
  · rw [← same]
    exact on
  · exact held

theorem devices_freed {g : Setting} {c : Nat} (files : OwnFiles g)
    (wanted : List Text) {s : State} (sound : Sound g s) (was : s.stage c = .asking) :
    Leads g s fun after => Sound g after ∧ after.stage c = .asking ∧
      ∀ d ∈ wanted, after.held (g.program c) d = false := by
  induction wanted with
  | nil => exact Leads.now ⟨sound, was, fun _ member => absurd member List.not_mem_nil⟩
  | cons d rest ih =>
      refine ih.trans fun middle ⟨kept, still, free⟩ => ?_
      cases held : middle.held (g.program c) d with
      | false =>
          refine Leads.now ⟨kept, still, fun other member => ?_⟩
          rcases List.mem_cons.mp member with rfl | later
          · exact held
          · exact free other later
      | true =>
          obtain ⟨e, same, own, on⟩ := (kept.held.marked _ d).mp held
          refine ((holder_ends files kept on).sound kept).mono
            fun after ⟨later, calmer, ended⟩ => ⟨later, ?_, fun other member => ?_⟩
          · rcases calmer c with unchanged | ⟨holding, _⟩
            · rw [unchanged]
              exact still
            · rw [still] at holding
              cases holding
          · rw [← Bool.not_eq_true, later.held.marked]
            rintro ⟨f, program, member', holding⟩
            have before := calmer.holds holding
            rcases List.mem_cons.mp member with rfl | listed
            · have one := kept.held.single f e other (program.trans same.symm) member' own before on
              rw [one, ended] at holding
              cases holding
            · have marked := (kept.held.marked _ other).mpr ⟨f, program, member', before⟩
              rw [free other listed] at marked
              cases marked

/-- Whatever the other calls have come to, a call that has asked can end. -/
theorem call_ends {g : Setting} {s : State} {c : Nat} (files : OwnFiles g)
    (sound : Sound g s) (asked : s.stage c ≠ .idle) :
    Leads g s fun after => after.stage c = .ended := by
  cases was : s.stage c with
  | idle => exact absurd was asked
  | ended => exact Leads.now was
  | asking =>
      refine (devices_freed files (g.devs c) sound was).trans fun middle ⟨kept, still, free⟩ => ?_
      have moved : step g middle (.hold c) =
          some ((middle.mark g c true).set c (.locking [])) := by
        simp only [step]
        exact if_pos ⟨still, free⟩
      have on : (((middle.mark g c true).set c (.locking [])).stage c).holds = true := by
        rw [set_self]
        rfl
      exact Leads.step _ rfl moved
        ((holder_ends files (sound_step kept moved) on).mono fun _ reached => reached.2)
  | locking _ | polling | creating _ _ | reading _ | cleaning _ =>
      exact (holder_ends files sound (by rw [was]; rfl)).mono fun _ reached => reached.2


/-- One call's at a time, in a program from holdDevices on, between programs while
there are snapshots. -/
def Exclusive (g : Setting) (s : State) : Prop :=
  ∀ c e d, d ∈ g.devs c → d ∈ g.devs e →
    ((s.stage c).snapshots = true ∧ (s.stage e).snapshots = true ∨ g.program c = g.program e ∧
      (s.stage c).holds = true ∧ (s.stage e).holds = true) → c = e

/-- What a call that has ended held is free, or another call's. -/
def Released (g : Setting) (s : State) : Prop :=
  ∀ c, s.stage c = .ended → (∀ name, s.locks name ≠ some c) ∧
    ∀ d ∈ g.devs c, s.held (g.program c) d = true →
      ∃ e, e ≠ c ∧ g.program e = g.program c ∧ d ∈ g.devs e ∧ (s.stage e).holds = true

/-- What a call has made is there, its own, of the right device, and no step but its
own cleanup takes it; while the callback runs there is one for every path. -/
structure Whole (g : Setting) (s : State) : Prop where
  there : ∀ c path minor, (path, minor) ∈ (s.stage c).made → ∃ t, s.tracers minor = some t ∧
    t.owner = some c ∧ g.visible path = some t.device
  all : ∀ c made, s.stage c = .reading made → made.map Prod.fst = g.paths c
  untouched : ∀ action after, step g s action = some after → ∀ c path minor,
    (path, minor) ∈ (s.stage c).made → (path, minor) ∈ (after.stage c).made →
      after.tracers minor = s.tracers minor

def Unblocked (g : Setting) (s : State) : Prop :=
  ∀ c, s.stage c ≠ .idle → Leads g s fun after => after.stage c = .ended

/-- findMount tells what is visibly mounted there. -/
def Visible (g : Setting) : Prop :=
  ∀ c, ∀ path ∈ g.paths c, ∀ d, g.device path = some d → g.visible path = some d

theorem whole_of_live {g : Setting} {s : State} (apart : Apart g) (visible : Visible g)
    (sound : Sound g s) (live : Live g s) : Whole g s where
  there c path minor member := by
    obtain ⟨d, leads, found⟩ := live c path minor member
    have inside : path ∈ g.paths c :=
      (sound.ordered.order c).subset (List.mem_map.mpr ⟨_, member, rfl⟩)
    exact ⟨_, found, rfl, visible c path inside d leads⟩
  all c made was := by
    have order := sound.ordered.order c
    rw [was] at order
    exact order.eq_of_length (by rw [List.length_map]; exact sound.ordered.whole c made was)
  untouched action after moved c path minor before later := by
    have next := (live_invariant apart).step s action after ⟨sound, live⟩ moved
    obtain ⟨d, leads, found⟩ := live c path minor before
    obtain ⟨other, same, kept⟩ := next.2 c path minor later
    rw [leads] at same
    cases same
    rw [found, kept]

def noneYet : State := ⟨fun _ _ => false, fun _ => none, fun _ => none, fun _ => [], fun _ => .idle⟩

theorem noneYet_fresh : noneYet.Fresh :=
  ⟨fun _ => rfl, fun _ _ => rfl, fun _ => rfl, fun _ _ found => by cases found⟩

/-- "/" is on /dev/sda1 and "/home" on /dev/sdb1, both ext4. -/
def twoDisks : List Mount :=
  [⟨[47], [47, 100, 101, 118, 47, 115, 100, 97, 49], [101, 120, 116, 52]⟩,
    ⟨[47, 104, 111, 109, 101], [47, 100, 101, 118, 47, 115, 100, 98, 49], [101, 120, 116, 52]⟩]

/-- One program backs up "/etc" and "/home/a", another one "/home/b". -/
def twoPrograms : Setting where
  table := twoDisks
  program := fun c => c
  paths := fun
    | 0 => [[47, 101, 116, 99], [47, 104, 111, 109, 101, 47, 97]]
    | 1 => [[47, 104, 111, 109, 101, 47, 98]]
    | _ => []

/-- One call for "/a" and "/b", both on /dev/sda1. -/
def twoPaths : Setting where
  table := twoDisks
  program := fun _ => 0
  paths := fun
    | 0 => [[47, 97], [47, 98]]
    | _ => []

end ProxmoxBackup.LinuxSnapshots
