import ProxmoxBackup.ExclusiveToken
import ProxmoxBackup.TransitionSystem

/-! Roll back and backup of one Backup Set in one program: StartRollback and
runSetRestore of the GUI against executeScheduledJob, any number of each. The
set's entries in `rollbackHolds` and `runningJobs` are two flags; every read
and write of one is a step of its own. The operation slot is the one of the
operation queue, seen from this set: a roll back takes it alone. -/

namespace ProxmoxBackup.SetExclusion

open TransitionSystem ExclusiveToken

inductive RollStage where
  | idle
  | checked
  | held
  | dropped
  | asked
  | waiting
  | queued
  | failing
  | working
  | finished
  | ended
  deriving DecidableEq

structure Roll where
  backupFirst : Bool
  stage : RollStage
  deriving DecidableEq

inductive RunStage where
  | idle
  | called
  | checked
  | marked
  | reading
  | leaving
  | ended
  deriving DecidableEq

/-- The set's entries in `rollbackHolds` and `runningJobs`, and who is in the
operation slot: a roll back, or runs of the set. -/
structure Flags where
  hold : Bool
  running : Bool
  exclusive : Bool
  sharing : Nat

structure Exclusion where
  flags : Flags
  rolls : Nat → Roll
  runs : Nat → RunStage

def Exclusion.start : Exclusion where
  flags := ⟨false, false, false, 0⟩
  rolls := fun _ => ⟨false, .idle⟩
  runs := fun _ => .idle

def Exclusion.setRoll (s : Exclusion) (r : Nat) (stage : RollStage) : Exclusion :=
  { s with rolls := Function.update s.rolls r { s.rolls r with stage := stage } }

def Exclusion.setRun (s : Exclusion) (j : Nat) (stage : RunStage) : Exclusion :=
  { s with runs := Function.update s.runs j stage }

def Exclusion.setFlags (s : Exclusion) (flags : Flags) : Exclusion := { s with flags := flags }

inductive Action where
  | startRollback (r : Nat) (backupFirst : Bool)
  | takeHold (r : Nat)
  | dropHold (r : Nat)
  | askRunning (r : Nat)
  | askHold (r j : Nat)
  | backupWaited (r : Nat) (success : Bool)
  | takeSlot (r : Nat)
  | finish (r : Nat)
  | leaveSlot (r : Nat)
  | call (j : Nat)
  | checkHold (j : Nat)
  | takeMark (j : Nat)
  | startReading (j : Nat)
  | stopReading (j : Nat)
  | dropMark (j : Nat)

/-- First StartRollback: `runningJobs` is read, `rollbackHolds` taken, and with
backupFirst given back before RunScheduledJobNow asks for both. Then
runSetRestore: BeforeSlot takes the hold again, Finish deletes it whether or not
BeforeSlot failed, and the slot is left last. Then executeScheduledJob: the
hold is looked up, then the running mark is taken. -/
def exclusionStep (s : Exclusion) : Action → Option Exclusion
  | .startRollback r backupFirst =>
      if (s.rolls r).stage = .idle then
        some { s with rolls := Function.update s.rolls r {
          backupFirst := backupFirst, stage := if s.flags.running then .ended else .checked } }
      else none
  | .takeHold r =>
      if (s.rolls r).stage = .checked then
        if s.flags.hold then some (s.setRoll r .ended)
        else some ((s.setRoll r (if (s.rolls r).backupFirst then .held else .queued)).setFlags { s.flags with hold := true })
      else none
  | .dropHold r =>
      if (s.rolls r).stage = .held then
        some ((s.setRoll r .dropped).setFlags { s.flags with hold := false })
      else none
  | .askRunning r =>
      if (s.rolls r).stage = .dropped then
        some (s.setRoll r (if s.flags.running then .ended else .asked))
      else none
  | .askHold r j =>
      if (s.rolls r).stage = .asked then
        if s.flags.hold then some (s.setRoll r .ended)
        else if s.runs j = .idle then some ((s.setRoll r .waiting).setRun j .called)
        else none
      else none
  | .backupWaited r success =>
      if (s.rolls r).stage = .waiting then
        if success then some ((s.setRoll r .queued).setFlags { s.flags with hold := true })
        else some (s.setRoll r .failing)
      else none
  | .takeSlot r =>
      if (s.rolls r).stage = .queued ∧ s.flags.exclusive = false ∧ s.flags.sharing = 0 then
        some ((s.setRoll r .working).setFlags { s.flags with exclusive := true })
      else none
  | .finish r =>
      if (s.rolls r).stage = .working then
        some ((s.setRoll r .finished).setFlags { s.flags with hold := false })
      else if (s.rolls r).stage = .failing then
        some ((s.setRoll r .ended).setFlags { s.flags with hold := false })
      else none
  | .leaveSlot r =>
      if (s.rolls r).stage = .finished then
        some ((s.setRoll r .ended).setFlags { s.flags with exclusive := false })
      else none
  | .call j => if s.runs j = .idle then some (s.setRun j .called) else none
  | .checkHold j =>
      if s.runs j = .called then
        some (s.setRun j (if s.flags.hold then .ended else .checked))
      else none
  | .takeMark j =>
      if s.runs j = .checked then
        if s.flags.running then some (s.setRun j .ended)
        else some ((s.setRun j .marked).setFlags { s.flags with running := true })
      else none
  | .startReading j =>
      if s.runs j = .marked ∧ s.flags.exclusive = false then
        some ((s.setRun j .reading).setFlags { s.flags with sharing := s.flags.sharing + 1 })
      else none
  | .stopReading j =>
      if s.runs j = .reading then
        some ((s.setRun j .leaving).setFlags { s.flags with sharing := s.flags.sharing - 1 })
      else none
  | .dropMark j =>
      if s.runs j = .marked ∨ s.runs j = .leaving then
        some ((s.setRun j .ended).setFlags { s.flags with running := false })
      else none

def exclusionSystem : System Exclusion Action where
  start := (· = Exclusion.start)
  step s action after := exclusionStep s action = some after

/-- From taking the hold to Finish. -/
def Holding (s : Exclusion) (r : Nat) : Prop :=
  (s.rolls r).stage = .held ∨ (s.rolls r).stage = .queued ∨ (s.rolls r).stage = .working

/-- A run that has the running mark. -/
def Marked (s : Exclusion) (j : Nat) : Prop :=
  s.runs j = .marked ∨ s.runs j = .reading ∨ s.runs j = .leaving

def InSlot (s : Exclusion) (r : Nat) : Prop :=
  (s.rolls r).stage = .working ∨ (s.rolls r).stage = .finished

instance (s : Exclusion) (r : Nat) : Decidable (Holding s r) := inferInstanceAs (Decidable (_ ∨ _))

instance (s : Exclusion) (j : Nat) : Decidable (Marked s j) := inferInstanceAs (Decidable (_ ∨ _))

/-- The steps on which exclusion rests: a flag that was free when it was looked
up is still free when the other one is set, the hold is taken again only where
it is free, and a roll back that never took it again deletes no other's. -/
def Meets (s : Exclusion) : Action → Prop
  | .takeHold _ => s.flags.running = false
  | .takeMark _ => s.flags.hold = false
  | .backupWaited _ true => s.flags.running = false ∧ s.flags.hold = false
  | .finish r => (s.rolls r).stage = .failing → s.flags.hold = false
  | _ => True

instance (s : Exclusion) (action : Action) : Decidable (Meets s action) :=
  match action with
  | .takeHold _ | .takeMark _ => inferInstanceAs (Decidable (_ = _))
  | .backupWaited _ true => inferInstanceAs (Decidable (_ ∧ _))
  | .finish _ => inferInstanceAs (Decidable (_ → _))
  | .backupWaited _ false | .startRollback _ _ | .dropHold _ | .askRunning _ | .askHold _ _
  | .takeSlot _ | .leaveSlot _ | .call _ | .checkHold _ | .startReading _ | .stopReading _
  | .dropMark _ => inferInstanceAs (Decidable True)

/-! The running mark: it excludes without any condition. -/

def markedStage (stage : RunStage) : Prop :=
  stage = .marked ∨ stage = .reading ∨ stage = .leaving

instance (stage : RunStage) : Decidable (markedStage stage) := inferInstanceAs (Decidable (_ ∨ _))

/-- What a step may do to one run and to the flags that runs read and write. -/
inductive RunMove (before after : Flags) : RunStage → RunStage → Prop where
  | outside (was stage) (off : ¬ markedStage was) (still : ¬ markedStage stage)
      (flags : after = before) : RunMove before after was stage
  | takeMark (free : before.running = false) (flags : after = { before with running := true }) :
      RunMove before after .checked .marked
  | startReading (free : before.exclusive = false)
      (flags : after = { before with sharing := before.sharing + 1 }) :
      RunMove before after .marked .reading
  | stopReading (flags : after = { before with sharing := before.sharing - 1 }) :
      RunMove before after .reading .leaving
  | dropMark (was) (inside : was = .marked ∨ was = .leaving)
      (flags : after = { before with running := false }) : RunMove before after was .ended

def inSlotStage (roll : Roll) : Prop := roll.stage = .working ∨ roll.stage = .finished

def holdingStage (roll : Roll) : Prop :=
  roll.stage = .held ∨ roll.stage = .queued ∨ roll.stage = .working

/-- Neither holding nor in the slot. -/
def aside (stage : RollStage) : Prop :=
  stage = .idle ∨ stage = .checked ∨ stage = .dropped ∨ stage = .asked ∨ stage = .waiting ∨
    stage = .failing ∨ stage = .ended

/-- What a step may do to one roll back and to the flags. -/
inductive RollMove (before after : Flags) (r : Nat) : Action → Roll → Roll → Prop where
  | outside (action was roll) (off : aside was.stage) (still : aside roll.stage)
      (flags : after = before) : RollMove before after r action was roll
  | takeHold (was roll) (off : was.stage = .checked)
      (on : roll.stage = .held ∨ roll.stage = .queued) (free : before.hold = false)
      (flags : after = { before with hold := true }) : RollMove before after r (.takeHold r) was roll
  | dropHold (action was roll) (on : was.stage = .held) (off : roll.stage = .dropped)
      (flags : after = { before with hold := false }) : RollMove before after r action was roll
  | waited (was roll) (off : was.stage = .waiting) (on : roll.stage = .queued)
      (flags : after = { before with hold := true }) :
      RollMove before after r (.backupWaited r true) was roll
  | takeSlot (action was roll) (out : was.stage = .queued) (on : roll.stage = .working)
      (free : before.exclusive = false) (empty : before.sharing = 0)
      (flags : after = { before with exclusive := true }) : RollMove before after r action was roll
  | finish (action was roll) (on : was.stage = .working) (still : roll.stage = .finished)
      (flags : after = { before with hold := false }) : RollMove before after r action was roll
  | fail (was roll) (off : was.stage = .failing) (out : roll.stage = .ended)
      (flags : after = { before with hold := false }) : RollMove before after r (.finish r) was roll
  | leaveSlot (action was roll) (on : was.stage = .finished) (out : roll.stage = .ended)
      (flags : after = { before with exclusive := false }) : RollMove before after r action was roll

/-- Every step moves one roll back, or one run, or starts the run of one. -/
inductive Moves (s : Exclusion) (action : Action) (after : Exclusion) : Prop where
  | roll (r roll) (rolls : after.rolls = Function.update s.rolls r roll) (runs : after.runs = s.runs)
      (move : RollMove s.flags after.flags r action (s.rolls r) roll)
  | run (j stage) (rolls : after.rolls = s.rolls) (runs : after.runs = Function.update s.runs j stage)
      (mark : stage = .marked → action = .takeMark j)
      (move : RunMove s.flags after.flags (s.runs j) stage)
  | both (r roll j stage) (rolls : after.rolls = Function.update s.rolls r roll)
      (runs : after.runs = Function.update s.runs j stage) (flags : after.flags = s.flags)
      (off : aside (s.rolls r).stage) (still : aside roll.stage)
      (idle : ¬ markedStage (s.runs j)) (called : ¬ markedStage stage)

theorem step_moves (s after : Exclusion) (action : Action)
    (taken : exclusionStep s action = some after) : Moves s action after := by
  cases action with
  | startRollback r backupFirst =>
      simp only [exclusionStep] at taken
      split at taken
      · next idle =>
          cases taken
          refine .roll r _ rfl rfl (.outside _ _ _ (by simp [aside, idle]) ?_ rfl)
          split
          · simp [aside]
          · simp [aside]
      · cases taken
  | takeHold r =>
      simp only [exclusionStep] at taken
      split at taken
      · next checked_ =>
          split at taken
          · cases taken
            exact .roll r _ rfl rfl
              (.outside _ _ _ (by simp [aside, checked_]) (by simp [aside]) rfl)
          · next free =>
              cases taken
              refine .roll r _ rfl rfl (.takeHold _ _ checked_ ?_ (by simpa using free) rfl)
              split
              · exact Or.inl rfl
              · exact Or.inr rfl
      · cases taken
  | dropHold r =>
      simp only [exclusionStep] at taken
      split at taken
      · next held =>
          cases taken
          exact .roll r _ rfl rfl (.dropHold _ _ _ held rfl rfl)
      · cases taken
  | askRunning r =>
      simp only [exclusionStep] at taken
      split at taken
      · next dropped =>
          cases taken
          refine .roll r _ rfl rfl (.outside _ _ _ (by simp [aside, dropped]) ?_ rfl)
          split
          · simp [aside]
          · simp [aside]
      · cases taken
  | askHold r j =>
      simp only [exclusionStep] at taken
      split at taken
      · next asked =>
          split at taken
          · cases taken
            exact .roll r _ rfl rfl (.outside _ _ _ (by simp [aside, asked]) (by simp [aside]) rfl)
          · split at taken
            · next idle =>
                cases taken
                exact .both r _ j .called rfl rfl rfl (by simp [aside, asked]) (by simp [aside])
                  (by simp [markedStage, idle]) (by simp [markedStage])
            · cases taken
      · cases taken
  | backupWaited r success =>
      simp only [exclusionStep] at taken
      split at taken
      · next waiting =>
          cases success with
          | true =>
              cases taken
              exact .roll r _ rfl rfl (.waited _ _ waiting rfl rfl)
          | false =>
              cases taken
              exact .roll r _ rfl rfl
                (.outside _ _ _ (by simp [aside, waiting]) (by simp [aside]) rfl)
      · cases taken
  | takeSlot r =>
      simp only [exclusionStep] at taken
      split at taken
      · next ready =>
          cases taken
          exact .roll r _ rfl rfl (.takeSlot _ _ _ ready.1 rfl ready.2.1 ready.2.2 rfl)
      · cases taken
  | finish r =>
      simp only [exclusionStep] at taken
      split at taken
      · next working =>
          cases taken
          exact .roll r _ rfl rfl (.finish _ _ _ working rfl rfl)
      · split at taken
        · next failing =>
            cases taken
            exact .roll r _ rfl rfl (.fail _ _ failing rfl rfl)
        · cases taken
  | leaveSlot r =>
      simp only [exclusionStep] at taken
      split at taken
      · next finished =>
          cases taken
          exact .roll r _ rfl rfl (.leaveSlot _ _ _ finished rfl rfl)
      · cases taken
  | call j =>
      simp only [exclusionStep] at taken
      split at taken
      · next idle =>
          cases taken
          exact .run j _ rfl rfl nofun
            (.outside _ _ (by simp [markedStage, idle]) (by simp [markedStage]) rfl)
      · cases taken
  | checkHold j =>
      simp only [exclusionStep] at taken
      split at taken
      · next called =>
          cases taken
          refine .run j _ rfl rfl ?_ (.outside _ _ (by simp [markedStage, called]) ?_ rfl)
          · split
            · exact nofun
            · exact nofun
          · split
            · simp [markedStage]
            · simp [markedStage]
      · cases taken
  | takeMark j =>
      simp only [exclusionStep] at taken
      split at taken
      · next checked_ =>
          split at taken
          · cases taken
            exact .run j _ rfl rfl nofun
              (.outside _ _ (by simp [markedStage, checked_]) (by simp [markedStage]) rfl)
          · next free =>
              cases taken
              refine .run j _ rfl rfl (fun _ => rfl) ?_
              rw [checked_]
              exact .takeMark (by simpa using free) rfl
      · cases taken
  | startReading j =>
      simp only [exclusionStep] at taken
      split at taken
      · next ready =>
          cases taken
          refine .run j _ rfl rfl nofun ?_
          rw [ready.1]
          exact .startReading ready.2 rfl
      · cases taken
  | stopReading j =>
      simp only [exclusionStep] at taken
      split at taken
      · next reading =>
          cases taken
          refine .run j _ rfl rfl nofun ?_
          rw [reading]
          exact .stopReading rfl
      · cases taken
  | dropMark j =>
      simp only [exclusionStep] at taken
      split at taken
      · next marked =>
          cases taken
          exact .run j _ rfl rfl nofun (.dropMark _ marked rfl)
      · cases taken

def Marks (s : Exclusion) : Prop := Token (fun j => markedStage (s.runs j)) s.flags.running

theorem rollMove_running {before after : Flags} {r : Nat} {action : Action} {was roll : Roll}
    (move : RollMove before after r action was roll) :
    after.running = before.running ∧ after.sharing = before.sharing := by
  cases move with
  | _ => simp_all

theorem marks_invariant : Invariant exclusionSystem Marks where
  start := by
    rintro s rfl
    exact Token.none_ (fun j => by simp [Exclusion.start, markedStage])
  step := by
    intro s action after token taken
    show Token (fun j => markedStage (after.runs j)) after.flags.running
    cases step_moves s after action taken with
    | roll r roll rolls runs move =>
        rw [runs, (rollMove_running move).1]
        exact token
    | both r roll j stage rolls runs flags off still idle called =>
        rw [runs, flags]
        exact token.stay (fun marked => absurd marked called)
    | run j stage rolls runs mark move =>
        rw [runs]
        unfold Marks at token
        generalize shape : s.runs j = was at move
        cases move with
        | outside _ _ off still flags =>
            rw [flags]
            exact token.stay (fun marked => absurd marked still)
        | takeMark free flags =>
            rw [flags]
            rw [free] at token
            exact token.enter
        | startReading free flags =>
            rw [flags]
            exact token.stay (fun _ => Or.inl shape)
        | stopReading flags =>
            rw [flags]
            exact token.stay (fun _ => Or.inr (Or.inl shape))
        | dropMark _ inside flags =>
            refine token.exit ?_ (by simp [markedStage])
            rw [shape]
            rcases inside with rfl | rfl
            · exact Or.inl rfl
            · exact Or.inr (Or.inr rfl)

/-! The operation slot. -/

structure Slots (s : Exclusion) : Prop where
  exclusive : Token (fun r => inSlotStage (s.rolls r)) s.flags.exclusive
  sharing : ∀ j, s.runs j = .reading → 0 < s.flags.sharing
  alone : s.flags.exclusive = true → s.flags.sharing = 0

theorem aside_out {roll : Roll} (off : aside roll.stage) : ¬ inSlotStage roll ∧ ¬ holdingStage roll := by
  unfold aside at off
  constructor
  · rintro (working | finished)
    · simp [working] at off
    · simp [finished] at off
  · rintro (held | queued | working)
    · simp [held] at off
    · simp [queued] at off
    · simp [working] at off

theorem runMove_exclusive {before after : Flags} {was stage : RunStage}
    (move : RunMove before after was stage) :
    after.exclusive = before.exclusive ∧ after.hold = before.hold := by
  cases move with
  | _ => simp_all

/-- Only a run that reads is counted, and the counter is no less than the reading runs. -/
theorem runMove_sharing {s : Exclusion} (marks : Marks s) (sharing : ∀ i, s.runs i = .reading → 0 < s.flags.sharing)
    {after : Flags} {j : Nat} {stage : RunStage} (move : RunMove s.flags after (s.runs j) stage) :
    ∀ i, Function.update s.runs j stage i = .reading → 0 < after.sharing := by
  intro i reading
  have other : i ≠ j → s.runs i = .reading := by
    intro different
    rwa [Function.update_of_ne different] at reading
  have self : i = j → stage = .reading := by
    rintro rfl
    rwa [Function.update_self] at reading
  generalize shape : s.runs j = was at move
  cases move with
  | outside _ _ off still flags =>
      rw [flags]
      by_cases same : i = j
      · exact absurd (Or.inr (Or.inl (self same))) still
      · exact sharing i (other same)
  | takeMark free flags =>
      rw [flags]
      by_cases same : i = j
      · cases self same
      · exact sharing i (other same)
  | startReading free flags =>
      rw [flags]
      exact Nat.succ_pos _
  | stopReading flags =>
      by_cases same : i = j
      · cases self same
      · exact absurd (marks.only i j (Or.inr (Or.inl (other same))) (Or.inr (Or.inl shape))) same
  | dropMark _ inside flags =>
      rw [flags]
      by_cases same : i = j
      · cases self same
      · exact sharing i (other same)

theorem slots_invariant : Invariant exclusionSystem (fun s => Marks s ∧ Slots s) := by
  refine marks_invariant.relative ?_ ?_
  · rintro s rfl
    exact ⟨Token.none_ (fun r => by simp [Exclusion.start, inSlotStage]),
      by simp [Exclusion.start], by simp [Exclusion.start]⟩
  · rintro s action after marks _ ⟨token, sharing, alone⟩ taken
    cases step_moves s after action taken with
    | run j stage rolls runs mark move =>
        obtain ⟨exclusive, _⟩ := runMove_exclusive move
        refine ⟨by rw [rolls, exclusive]; exact token, ?_, ?_⟩
        · rw [runs]
          exact runMove_sharing marks sharing move
        · intro on
          rw [exclusive] at on
          have none_ := alone on
          generalize s.runs j = was at move
          cases move with
          | outside _ _ off still flags => rw [flags]; exact none_
          | takeMark free flags => rw [flags]; exact none_
          | startReading free flags => rw [free] at on; cases on
          | stopReading flags => rw [flags]; simp [none_]
          | dropMark _ inside flags => rw [flags]; exact none_
    | both r roll j stage rolls runs flags off still idle called =>
        refine ⟨?_, ?_, by rw [flags]; exact alone⟩
        · rw [rolls, flags]
          exact token.stay (fun inside => absurd inside (aside_out still).1)
        · rw [runs, flags]
          exact runMove_sharing marks sharing (.outside _ _ idle called rfl)
    | roll r roll rolls runs move =>
        refine ⟨?_, by rw [runs, (rollMove_running move).2]; exact sharing, ?_⟩
        · rw [rolls]
          cases move with
          | outside _ _ _ off still flags =>
              rw [flags]
              exact token.stay (fun inside => absurd inside (aside_out still).1)
          | takeHold _ _ off on free flags =>
              rw [flags]
              exact token.stay (fun inside => by
                rcases on with on | on
                · simp [inSlotStage, on] at inside
                · simp [inSlotStage, on] at inside)
          | dropHold _ _ _ on off flags =>
              rw [flags]
              exact token.stay (fun inside => by simp [inSlotStage, off] at inside)
          | waited _ _ off on flags =>
              rw [flags]
              exact token.stay (fun inside => by simp [inSlotStage, on] at inside)
          | takeSlot _ _ _ out on free empty flags =>
              rw [flags]
              rw [free] at token
              exact token.enter
          | finish _ _ _ on still flags =>
              rw [flags]
              exact token.stay (fun _ => Or.inl on)
          | fail _ _ off out flags =>
              rw [flags]
              exact token.stay (fun inside => by simp [inSlotStage, out] at inside)
          | leaveSlot _ _ _ on out flags =>
              exact token.exit (Or.inr on) (by simp [inSlotStage, out])
        · intro on
          rw [(rollMove_running move).2]
          cases move with
          | takeSlot _ _ _ out on free empty flags => exact empty
          | leaveSlot _ _ _ was out flags => rw [flags] at on; cases on
          | outside _ _ _ off still flags => rw [flags] at on; exact alone on
          | takeHold _ _ off was free flags => rw [flags] at on; exact alone on
          | dropHold _ _ _ was off flags => rw [flags] at on; exact alone on
          | waited _ _ off was flags => rw [flags] at on; exact alone on
          | finish _ _ _ was still flags => rw [flags] at on; exact alone on
          | fail _ _ off out flags => rw [flags] at on; exact alone on

/-! The hold, where every step meets the condition. -/

structure Held (s : Exclusion) : Prop where
  token : Token (fun r => holdingStage (s.rolls r)) s.flags.hold
  free : ∀ r, holdingStage (s.rolls r) → s.flags.running = false

theorem runMove_running {before after : Flags} {was stage : RunStage}
    (move : RunMove before after was stage) (free : before.running = false) (mark : stage ≠ .marked) :
    after.running = false := by
  cases move with
  | outside _ _ off still flags => rw [flags]; exact free
  | takeMark _ flags => exact absurd rfl mark
  | startReading _ flags => rw [flags]; exact free
  | stopReading flags => rw [flags]; exact free
  | dropMark _ inside flags => rw [flags]

/-- No roll back takes the hold or has it taken while a run has the mark. -/
theorem rollMove_free {s : Exclusion} {action : Action} {after : Flags} {r : Nat} {roll : Roll}
    (free : ∀ i, holdingStage (s.rolls i) → s.flags.running = false) (meets : Meets s action)
    (move : RollMove s.flags after r action (s.rolls r) roll) (holding : holdingStage roll) :
    s.flags.running = false := by
  cases move with
  | outside _ _ _ off still flags => exact absurd holding (aside_out still).2
  | takeHold _ _ off on unheld flags => exact meets
  | dropHold _ _ _ on off flags => simp [holdingStage, off] at holding
  | waited _ _ off on flags => exact meets.1
  | takeSlot _ _ _ out on _ empty flags => exact free r (Or.inr (Or.inl out))
  | finish _ _ _ on still flags => simp [holdingStage, still] at holding
  | fail _ _ off out flags => simp [holdingStage, out] at holding
  | leaveSlot _ _ _ on out flags => simp [holdingStage, out] at holding

theorem rollMove_hold {s : Exclusion} {action : Action} {after : Flags} {r : Nat} {roll : Roll}
    (token : Token (fun i => holdingStage (s.rolls i)) s.flags.hold) (meets : Meets s action)
    (move : RollMove s.flags after r action (s.rolls r) roll) :
    Token (fun i => holdingStage (Function.update s.rolls r roll i)) after.hold := by
  cases move with
  | outside _ _ _ off still flags =>
      rw [flags]
      exact token.stay (fun holding => absurd holding (aside_out still).2)
  | takeHold _ _ off on free flags =>
      rw [flags]
      rw [free] at token
      exact token.enter
  | dropHold _ _ _ on off flags => exact token.exit (Or.inl on) (by simp [holdingStage, off])
  | waited _ _ off on flags =>
      rw [flags]
      rw [meets.2] at token
      exact token.enter
  | takeSlot _ _ _ out on free empty flags =>
      rw [flags]
      exact token.stay (fun _ => Or.inr (Or.inl out))
  | finish _ _ _ on still flags =>
      exact token.exit (Or.inr (Or.inr on)) (by simp [holdingStage, still])
  | fail _ _ off out flags =>
      -- the hold it deletes is nobody's
      rw [flags]
      rw [meets off] at token
      exact token.stay (fun holding => by simp [holdingStage, out] at holding)
  | leaveSlot _ _ _ on out flags =>
      rw [flags]
      exact token.stay (fun holding => by simp [holdingStage, out] at holding)

theorem held_invariant : Invariant (exclusionSystem.restrict Meets) Held where
  start := by
    rintro s rfl
    exact ⟨Token.none_ (fun r => by simp [Exclusion.start, holdingStage]),
      fun r => by simp [Exclusion.start, holdingStage]⟩
  step := by
    rintro s action after ⟨token, free⟩ ⟨taken, meets⟩
    cases step_moves s after action taken with
    | roll r roll rolls runs move =>
        refine ⟨by rw [rolls]; exact rollMove_hold token meets move, ?_⟩
        intro i holding
        rw [(rollMove_running move).1]
        rw [rolls] at holding
        rcases Token.cases_update holding with ⟨_, new⟩ | ⟨_, old⟩
        · exact rollMove_free free meets move new
        · exact free i old
    | both r roll j stage rolls runs flags off still idle called =>
        refine ⟨?_, ?_⟩
        · rw [rolls, flags]
          exact token.stay (fun holding => absurd holding (aside_out still).2)
        · intro i holding
          rw [flags]
          rw [rolls] at holding
          rcases Token.cases_update holding with ⟨_, new⟩ | ⟨_, old⟩
          · exact absurd new (aside_out still).2
          · exact free i old
    | run j stage rolls runs mark move =>
        rw [← rolls] at token free
        refine ⟨by rw [(runMove_exclusive move).2]; exact token, ?_⟩
        intro i holding
        have held := token.flagged i holding
        refine runMove_running move (free i holding) ?_
        -- the mark is only taken where the hold is free
        intro marked
        rw [mark marked] at meets
        have unheld : s.flags.hold = false := meets
        rw [held] at unheld
        cases unheld

/-- Two runs of the set never overlap and none reads while a roll back is in the
slot, in any run of the system; from taking the hold to Finish the hold is
there, is the only one and excludes every run, where all steps meet the condition. -/
theorem hold_excludes (s : Exclusion) :
    (Reachable exclusionSystem s →
      (∀ i j, Marked s i → Marked s j → i = j) ∧
        ∀ r, InSlot s r → (∀ q, InSlot s q → q = r) ∧ ∀ j, s.runs j ≠ .reading) ∧
    (Reachable (exclusionSystem.restrict Meets) s →
      ∀ r, Holding s r → s.flags.hold = true ∧ (∀ q, Holding s q → q = r) ∧ ∀ j, ¬ Marked s j) := by
  constructor
  · intro reached
    obtain ⟨marks, slots⟩ := slots_invariant.reachable reached
    refine ⟨marks.only, ?_⟩
    intro r inside
    refine ⟨fun q other => slots.exclusive.only q r other inside, ?_⟩
    intro j reading
    have some_ := slots.sharing j reading
    have none_ := slots.alone (slots.exclusive.flagged r inside)
    omega
  · intro reached
    have held := held_invariant.reachable reached
    obtain ⟨origin, actions, start, run⟩ := reached
    have marks := marks_invariant.reachable ⟨origin, actions, start, restrict_run run⟩
    intro r holding
    refine ⟨held.token.flagged r holding, fun q other => held.token.only q r other holding, ?_⟩
    intro j marked
    have taken := marks.flagged j marked
    rw [held.free r holding] at taken
    cases taken

/-- A roll back that backs the set up first, and the run that does it. -/
def backedUp : List Action :=
  [.startRollback 0 true, .takeHold 0, .dropHold 0, .askRunning 0, .askHold 0 0, .checkHold 0,
    .takeMark 0, .startReading 0, .stopReading 0, .dropMark 0]

/-- Another roll back starts while the first still waits for its backup; when
it finishes it deletes the hold that the first has taken again. -/
theorem second_rollback_drops_hold : ∃ s, Reachable exclusionSystem s ∧
    (s.rolls 0).stage = .working ∧ s.flags.hold = false ∧ Marked s 1 := by
  have outcome : ((backedUp ++ [Action.startRollback 1 false, .takeHold 1, .takeSlot 1,
      .backupWaited 0 true, .finish 1, .leaveSlot 1, .takeSlot 0, .call 1, .checkHold 1,
      .takeMark 1]).foldlM exclusionStep Exclusion.start).map
      (fun s => ((s.rolls 0).stage, s.flags.hold, s.runs 1)) = some (.working, false, .marked) := by
    decide +kernel
  obtain ⟨s, executed, seen⟩ := Option.map_eq_some_iff.mp outcome
  simp only [Prod.mk.injEq] at seen
  obtain ⟨stage, hold, marked⟩ := seen
  exact ⟨s, ⟨_, _, rfl, run_of_foldlM exclusionStep (fun _ _ _ taken => taken) executed⟩, stage,
    hold, Or.inl marked⟩

theorem backed_up_rollback_excludes : ∃ s, (s.rolls 0).stage = .working ∧
    s.flags.hold = true ∧ (∀ j, ¬ Marked s j) ∧ ∀ j, s.runs j ≠ .reading := by
  have outcome : ((backedUp ++ [Action.backupWaited 0 true, .call 1, .checkHold 1,
      .takeSlot 0]).foldlM (checked exclusionStep Meets) Exclusion.start).map (fun s => (s.rolls 0).stage) =
      some .working := by
    decide +kernel
  obtain ⟨s, executed, stage⟩ := Option.map_eq_some_iff.mp outcome
  have reached : Reachable (exclusionSystem.restrict Meets) s :=
    reachable_of_checked (fun _ _ _ taken => taken) rfl executed
  obtain ⟨always, conditioned⟩ := hold_excludes s
  obtain ⟨hold, _, unmarked⟩ := conditioned reached 0 (Or.inr (Or.inr stage))
  obtain ⟨origin, actions, start, run⟩ := reached
  obtain ⟨_, alone⟩ := always ⟨origin, actions, start, restrict_run run⟩
  exact ⟨s, stage, hold, unmarked, (alone 0 (Or.inl stage)).2⟩

end ProxmoxBackup.SetExclusion
