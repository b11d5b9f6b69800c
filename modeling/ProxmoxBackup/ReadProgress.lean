import ProxmoxBackup.TransitionSystem
import Mathlib.Algebra.Order.Field.Rat
import Mathlib.Algebra.Order.Field.Basic
import Mathlib.Logic.Function.Basic
import Mathlib.Tactic.Positivity

/-! JobProgress.ReadProgress during one attempt: any number of goroutines call it, and its
loads come in between the updates of the counters, which are atomic one by one. -/

namespace ProxmoxBackup.ReadProgress

open TransitionSystem

/-- All figures count bytes of the job's disks, so that no addition wraps around. -/
structure Counters where
  BytesDone : Nat
  BytesTotal : Nat
  FreeSkipped : Nat
  LeftOut : Nat
  ToSkip : Nat
  readHigh : Nat

structure Progress where
  done : Nat
  total : Nat
  deriving DecidableEq

/-- readFraction; float64 rounds the exact ratio, which keeps its order and its bounds. -/
def Progress.fraction (p : Progress) : Option ℚ :=
  if p.total = 0 then none else some ((p.done : ℚ) / p.total)

/-- Where a call stands, with what it has loaded and worked out so far. -/
inductive Phase where
  | outside
  | begun
  | all (all : Nat)
  | total (total : Nat)
  | pos (total pos : Nat)
  | free (total pos free : Nat)
  | loop (total done : Nat)
  | swap (total done high : Nat)

structure Call where
  phase : Phase
  /-- What the calls had returned that were over when this one began. -/
  prior : List Progress
  /-- All was done and skipped when it began, and no counter has moved since. -/
  complete : Bool

structure Report where
  progress : Progress
  prior : List Progress
  complete : Bool

structure State where
  counters : Counters
  calls : Nat → Call
  reports : List Report

/-- All bytes are done, and everything to skip has been skipped or left out. -/
def Counters.Complete (c : Counters) : Prop :=
  c.BytesDone = c.BytesTotal ∧ c.FreeSkipped + c.LeftOut = c.ToSkip

instance (c : Counters) : Decidable c.Complete := inferInstanceAs (Decidable (_ ∧ _))

def setCall (s : State) (c : Nat) (phase : Phase) : State :=
  { s with calls := Function.update s.calls c { s.calls c with phase := phase } }

def State.progresses (s : State) : List Progress := s.reports.map Report.progress

def begin_ (s : State) (c : Nat) : State :=
  let call : Call := ⟨.begun, s.progresses, decide s.counters.Complete⟩
  { s with calls := Function.update s.calls c call }

def return_ (s : State) (c : Nat) (p : Progress) : State :=
  { s with calls := Function.update s.calls c { s.calls c with phase := .outside },
           reports := s.reports ++ [⟨p, (s.calls c).prior, (s.calls c).complete⟩] }

/-- The next load, store or comparison of a call. -/
def callStep (s : State) (c : Nat) : State :=
  match (s.calls c).phase with
  | .outside => begin_ s c
  | .begun => setCall s c (.all s.counters.BytesTotal)
  | .all all => setCall s c (.total (all - min s.counters.ToSkip all))
  | .total total => setCall s c (.pos total s.counters.BytesDone)
  | .pos total pos => setCall s c (.free total pos s.counters.FreeSkipped)
  | .free total pos free =>
      let skipped := free + s.counters.LeftOut
      setCall s c (.loop total (min (pos - min skipped pos) total))
  | .loop total done =>
      if done ≤ s.counters.readHigh then return_ s c ⟨min s.counters.readHigh total, total⟩
      else setCall s c (.swap total done s.counters.readHigh)
  | .swap total done high =>
      if s.counters.readHigh = high then
        return_ { s with counters := { s.counters with readHigh := done } } c ⟨done, total⟩
      else setCall s c (.loop total done)

/-- The updates: Backup stores the size of the job once, setDiskPos stores how far the
reader is, and the reader adds what it will skip, has skipped and has left out. -/
inductive Update where
  | total (size : Nat)
  | done (jobDone : Nat)
  | free (n : Nat)
  | left (n : Nat)
  | toSkip (n : Nat)

def update (c : Counters) : Update → Option Counters
  | .total size => if c.BytesTotal = 0 then some { c with BytesTotal := size } else none
  | .done jobDone => some { c with BytesDone := jobDone }
  | .free n => some { c with FreeSkipped := c.FreeSkipped + n }
  | .left n => some { c with LeftOut := c.LeftOut + n }
  | .toSkip n => some { c with ToSkip := c.ToSkip + n }

inductive Action where
  | call (c : Nat)
  | update (u : Update)

def step (s : State) : Action → Option State
  | .call c => some (callStep s c)
  | .update u => (update s.counters u).map fun counters =>
      { s with counters := counters, calls := fun c => { s.calls c with complete := false } }

/-- An attempt begins with Reset. -/
def State.init : State := ⟨⟨0, 0, 0, 0, 0, 0⟩, fun _ => ⟨.outside, [], false⟩, []⟩

def system : System State Action where
  start s := s = State.init
  step before action after := step before action = some after

def Counters.remaining (c : Counters) : Nat := c.BytesTotal - min c.ToSkip c.BytesTotal

/-- A total that was worked out is one there has been, and the total only shrinks. -/
def Counters.Past (c : Counters) (total : Nat) : Prop :=
  0 < total → 0 < c.BytesTotal ∧ c.remaining ≤ total

/-- The figures a call has loaded so far. -/
def Loaded (c : Counters) : Phase → Prop
  | .outside => True
  | .begun => True
  | .all all => all = 0 ∨ all = c.BytesTotal
  | .total total => c.Past total
  | .pos total _ => c.Past total
  | .free total _ _ => c.Past total
  | .loop total done => c.Past total ∧ done ≤ total
  | .swap total done high => c.Past total ∧ done ≤ total ∧ high < done

/-- The total of a call that has worked it out. -/
def worked : Phase → Option Nat
  | .total total => some total
  | .pos total _ => some total
  | .free total _ _ => some total
  | .loop total _ => some total
  | .swap total _ _ => some total
  | _ => none

/-- The same figures, for a call that sees the counters at rest. -/
def Settled (c : Counters) : Phase → Prop
  | .outside => True
  | .begun => True
  | .all all => all = c.BytesTotal
  | .total total => total = c.remaining
  | .pos total pos => total = c.remaining ∧ pos = c.BytesDone
  | .free total pos free => total = c.remaining ∧ pos = c.BytesDone ∧ free = c.FreeSkipped
  | .loop total done => done = total
  | .swap total done _ => done = total

structure CallOk (c : Counters) (progresses : List Progress) (call : Call) : Prop where
  known : call.prior ⊆ progresses
  loaded : Loaded c call.phase
  shrunk : ∀ total ∈ worked call.phase, ∀ p ∈ call.prior, 0 < p.total → total ≤ p.total
  settled : call.complete = true → c.Complete ∧ Settled c call.phase

/-- p is no larger a fraction than q. -/
def NotAhead (p q : Progress) : Prop := 0 < p.total → p.done * q.total ≤ q.done * p.total

structure ReportOk (c : Counters) (r : Report) : Prop where
  within : r.progress.done ≤ r.progress.total
  high : r.progress.done ≤ c.readHigh
  past : c.Past r.progress.total
  order : ∀ p ∈ r.prior, NotAhead p r.progress
  whole : r.complete = true → r.progress.done = r.progress.total

structure Ordered (s : State) : Prop where
  calls : ∀ c, CallOk s.counters s.progresses (s.calls c)
  reports : ∀ r ∈ s.reports, ReportOk s.counters r

theorem past_zero (c : Counters) : c.Past 0 := fun positive => absurd positive (Nat.lt_irrefl 0)

/-- The counters move on: the total of the job stays or is stored first, and what is to
be skipped and the highest figure only grow. -/
structure Onward (before after : Counters) : Prop where
  total : before.BytesTotal = 0 ∨ after.BytesTotal = before.BytesTotal
  toSkip : before.ToSkip ≤ after.ToSkip
  high : before.readHigh ≤ after.readHigh

theorem Onward.past {before after : Counters} (onward : Onward before after) {total : Nat}
    (past : before.Past total) : after.Past total := by
  intro positive
  have known := past positive
  have grown := onward.toSkip
  rcases onward.total with none_ | same
  · omega
  · simp only [Counters.remaining] at known ⊢
    omega

theorem Onward.loaded {before after : Counters} (onward : Onward before after) {phase : Phase}
    (loaded : Loaded before phase) : Loaded after phase := by
  cases phase with
  | outside => trivial
  | begun => trivial
  | all all =>
    rcases loaded with zero | same
    · exact Or.inl zero
    · rcases onward.total with none_ | kept
      · exact Or.inl (same.trans none_)
      · exact Or.inr (same.trans kept.symm)
  | total total => exact onward.past loaded
  | pos total pos => exact onward.past loaded
  | free total pos free => exact onward.past loaded
  | loop total done => exact ⟨onward.past loaded.1, loaded.2⟩
  | swap total done high => exact ⟨onward.past loaded.1, loaded.2⟩

theorem Onward.report {before after : Counters} (onward : Onward before after) {r : Report}
    (ok : ReportOk before r) : ReportOk after r :=
  ⟨ok.within, Nat.le_trans ok.high onward.high, onward.past ok.past, ok.order, ok.whole⟩

theorem update_onward (c after : Counters) (u : Update) (taken : update c u = some after) :
    Onward c after := by
  cases u with
  | total size =>
    simp only [update] at taken
    split at taken
    · next zero =>
        cases taken
        exact ⟨Or.inl zero, Nat.le_refl _, Nat.le_refl _⟩
    · cases taken
  | toSkip n =>
    cases taken
    exact ⟨Or.inr rfl, Nat.le_add_right _ _, Nat.le_refl _⟩
  | _ =>
    cases taken
    exact ⟨Or.inr rfl, Nat.le_refl _, Nat.le_refl _⟩

theorem ordered_start : Ordered State.init where
  calls := by
    intro c
    constructor
    · exact List.nil_subset _
    · trivial
    · intro total none_
      cases none_
    · intro no
      cases no
  reports := fun _ member => by cases member

theorem update_ordered (s : State) (counters : Counters) (held : Ordered s)
    (onward : Onward s.counters counters) :
    Ordered { s with
      counters := counters, calls := fun c => { s.calls c with complete := false } } where
  calls := by
    intro c
    have ok := held.calls c
    refine ⟨ok.known, onward.loaded ok.loaded, ok.shrunk, ?_⟩
    intro no
    cases no
  reports := fun r member => onward.report (held.reports r member)

/-- A step of one call that sets its phase alone. -/
theorem setCall_ordered (s : State) (c : Nat) (phase : Phase) (held : Ordered s)
    (loaded : Loaded s.counters phase)
    (shrunk : ∀ total ∈ worked phase, ∀ p ∈ (s.calls c).prior, 0 < p.total → total ≤ p.total)
    (settled : (s.calls c).complete = true → s.counters.Complete →
      Settled s.counters (s.calls c).phase → Settled s.counters phase) : Ordered (setCall s c phase) where
  calls := by
    intro other
    by_cases same : other = c
    · subst same
      have ok := held.calls other
      simp only [setCall, Function.update_self]
      refine ⟨ok.known, loaded, shrunk, ?_⟩
      intro quiet
      have before := ok.settled quiet
      exact ⟨before.1, settled quiet before.1 before.2⟩
    · simp only [setCall, Function.update_of_ne same]
      exact held.calls other
  reports := held.reports

theorem begin_ordered (s : State) (c : Nat) (held : Ordered s) : Ordered (begin_ s c) where
  calls := by
    intro other
    by_cases same : other = c
    · subst same
      simp only [begin_, Function.update_self]
      constructor
      · exact List.Subset.refl _
      · trivial
      · intro total none_
        cases none_
      · intro quiet
        have complete : s.counters.Complete := of_decide_eq_true quiet
        exact ⟨complete, trivial⟩
    · simp only [begin_, Function.update_of_ne same]
      exact held.calls other
  reports := held.reports

/-- A call that returns, perhaps with a new highest figure. -/
theorem return_ordered (s : State) (c high : Nat) (p : Progress) (held : Ordered s)
    (grown : s.counters.readHigh ≤ high)
    (report : ReportOk { s.counters with readHigh := high }
      ⟨p, (s.calls c).prior, (s.calls c).complete⟩) :
    Ordered (return_ { s with counters := { s.counters with readHigh := high } } c p) := by
  have onward : Onward s.counters { s.counters with readHigh := high } :=
    ⟨Or.inr rfl, Nat.le_refl _, grown⟩
  constructor
  · intro other
    have ok := held.calls other
    let report : Report := ⟨p, (s.calls c).prior, (s.calls c).complete⟩
    have more : (s.calls other).prior ⊆ (s.reports ++ [report]).map Report.progress := by
      rw [List.map_append]
      exact List.Subset.trans ok.known (List.subset_append_left _ _)
    by_cases same : other = c
    · subst same
      simp only [return_, Function.update_self]
      constructor
      · exact more
      · trivial
      · intro total none_
        cases none_
      · intro quiet
        exact ⟨(ok.settled quiet).1, trivial⟩
    · simp only [return_, Function.update_of_ne same]
      refine ⟨more, onward.loaded ok.loaded, ok.shrunk, ?_⟩
      intro quiet
      have before := ok.settled quiet
      refine ⟨before.1, ?_⟩
      cases phase : (s.calls other).phase with
      | _ =>
        rw [phase] at before
        exact before.2
  · intro r member
    rcases List.mem_append.mp member with old | new
    · exact onward.report (held.reports r old)
    · rw [List.mem_singleton.mp new]
      exact report

/-- What the calls before returned, as a call sees it that has found the highest figure. -/
theorem Ordered.prior {s : State} (held : Ordered s) (c : Nat) :
    ∀ p ∈ (s.calls c).prior, p.done ≤ p.total ∧ p.done ≤ s.counters.readHigh := by
  intro p member
  obtain ⟨r, listed, same⟩ := List.mem_map.mp ((held.calls c).known member)
  have ok := held.reports r listed
  rw [← same]
  exact ⟨ok.within, ok.high⟩

theorem callStep_ordered (s : State) (c : Nat) (held : Ordered s) : Ordered (callStep s c) := by
  have ok := held.calls c
  have loaded := ok.loaded
  have shrunk := ok.shrunk
  have settled := ok.settled
  unfold callStep
  split
  · exact begin_ordered s c held
  · apply setCall_ordered s c _ held
    · exact Or.inr rfl
    · intro total none_
      cases none_
    · intro _ _ _
      rfl
  · next all phase =>
      rw [phase] at loaded
      have past : s.counters.Past (all - min s.counters.ToSkip all) := by
        rcases loaded with zero | same
        · rw [zero, Nat.zero_sub]
          exact past_zero _
        · subst same
          intro positive
          exact ⟨by omega, Nat.le_refl _⟩
      apply setCall_ordered s c _ held
      · exact past
      · -- The total only shrinks, so it is no larger than what any earlier call has seen.
        intro total now p member positive
        cases now
        obtain ⟨r, listed, same⟩ := List.mem_map.mp (ok.known member)
        have old := (held.reports r listed).past
        rw [same] at old
        have known := old positive
        rcases loaded with zero | all_
        · omega
        · simp only [Counters.remaining] at known
          omega
      · intro _ _ before
        rw [phase] at before
        have same : all = s.counters.BytesTotal := before
        subst same
        rfl
  · next total phase =>
      rw [phase] at loaded shrunk
      apply setCall_ordered s c (.pos total s.counters.BytesDone) held loaded shrunk
      intro _ _ before
      rw [phase] at before
      exact ⟨before, rfl⟩
  · next total pos phase =>
      rw [phase] at loaded shrunk
      apply setCall_ordered s c (.free total pos s.counters.FreeSkipped) held loaded shrunk
      intro _ _ before
      rw [phase] at before
      exact ⟨before.1, before.2, rfl⟩
  · next total pos free phase =>
      rw [phase] at loaded shrunk
      apply setCall_ordered s c
        (.loop total (min (pos - min (free + s.counters.LeftOut) pos) total)) held
        ⟨loaded, Nat.min_le_right _ _⟩ shrunk
      intro _ complete before
      rw [phase] at before
      obtain ⟨all, done, skipped⟩ := before
      have both := complete
      simp only [Counters.Complete] at both
      simp only [Counters.remaining] at all
      simp only [Settled]
      omega
  · next total done phase =>
      rw [phase] at loaded shrunk settled
      split
      · next reached =>
          apply return_ordered s c s.counters.readHigh _ held (Nat.le_refl _)
          constructor
          · exact Nat.min_le_right _ _
          · exact Nat.min_le_left _ _
          · exact loaded.1
          · intro p member positive
            have known := held.prior c p member
            have less := shrunk total rfl p member positive
            -- The highest figure is reached by now; above the total the fraction is 1.
            by_cases above : total ≤ s.counters.readHigh
            · simp only [Nat.min_eq_right above]
              rw [Nat.mul_comm total]
              exact Nat.mul_le_mul_right total known.1
            · simp only [Nat.min_eq_left (Nat.le_of_not_le above)]
              exact Nat.mul_le_mul known.2 less
          · intro quiet
            have full : done = total := (settled quiet).2
            exact Nat.min_eq_right (full ▸ reached)
      · next higher =>
          apply setCall_ordered s c (.swap total done s.counters.readHigh) held
            ⟨loaded.1, loaded.2, Nat.lt_of_not_le higher⟩ shrunk
          intro _ _ before
          rw [phase] at before
          exact before
  · next total done high phase =>
      rw [phase] at loaded shrunk settled
      split
      · next unchanged =>
          have grown : s.counters.readHigh ≤ done := by
            rw [unchanged]
            exact Nat.le_of_lt loaded.2.2
          apply return_ordered s c done _ held grown
          constructor
          · exact loaded.2.1
          · exact Nat.le_refl _
          · exact loaded.1
          · intro p member positive
            have known := held.prior c p member
            exact Nat.mul_le_mul (Nat.le_trans known.2 grown) (shrunk total rfl p member positive)
          · intro quiet
            exact (settled quiet).2
      · apply setCall_ordered s c (.loop total done) held ⟨loaded.1, loaded.2.1⟩ shrunk
        intro _ _ before
        rw [phase] at before
        exact before

theorem ordered_invariant : Invariant system Ordered where
  start state initial := initial ▸ ordered_start
  step before action after held taken := by
    cases action with
    | call c =>
      cases taken
      exact callStep_ordered before c held
    | update u =>
      obtain ⟨counters, moved, same⟩ := Option.map_eq_some_iff.mp taken
      rw [← same]
      exact update_ordered before counters held (update_onward _ _ u moved)

/-- Any number of goroutines may ask: what a call reports is a fraction between 0 and 1,
no less than what any call has reported that was over when it began, and 1 if all was
done and skipped. -/
theorem read_progress_forward (s : State) (reached : Reachable system s) :
    ∀ r ∈ s.reports, ∀ f, r.progress.fraction = some f →
      0 ≤ f ∧ f ≤ 1 ∧ (∀ p ∈ r.prior, ∀ g, p.fraction = some g → g ≤ f) ∧
        (r.complete = true → f = 1) := by
  intro r member f reported
  have ok := (ordered_invariant.reachable reached).reports r member
  unfold Progress.fraction at reported
  split at reported
  · cases reported
  · next some_ =>
      cases reported
      have positive : (0 : ℚ) < r.progress.total := by exact_mod_cast Nat.pos_of_ne_zero some_
      refine ⟨?_, ?_, ?_, ?_⟩
      · positivity
      · rw [div_le_one positive]
        exact_mod_cast ok.within
      · intro p before g earlier
        unfold Progress.fraction at earlier
        split at earlier
        · cases earlier
        · next other =>
            cases earlier
            have start : (0 : ℚ) < p.total := by exact_mod_cast Nat.pos_of_ne_zero other
            rw [div_le_div_iff₀ start positive]
            exact_mod_cast ok.order p before (Nat.pos_of_ne_zero other)
      · intro complete
        rw [ok.whole complete]
        exact div_self (ne_of_gt positive)

/-- A call in the middle of a window that is skipped, and one at the end. -/
def twoCalls : List Action :=
  [.update (.total 10), .update (.toSkip 6), .update (.done 5), .update (.free 3)] ++
    List.replicate 8 (.call 0) ++
    [.update (.done 10), .update (.free 1), .update (.left 2)] ++ List.replicate 8 (.call 1)

theorem twoCalls_forward : ∃ (s : State) (r : Report), r ∈ s.reports ∧
    r.progress = ⟨4, 4⟩ ∧ r.prior = [⟨2, 4⟩] ∧
    r.complete = true ∧ ∀ f, r.progress.fraction = some f →
      0 ≤ f ∧ f ≤ 1 ∧ (∀ p ∈ r.prior, ∀ g, p.fraction = some g → g ≤ f) ∧
        (r.complete = true → f = 1) := by
  have ran : (twoCalls.foldlM step State.init).map (fun s => s.reports.map
      fun r => (r.progress, r.prior, r.complete)) =
        some [(⟨2, 4⟩, [], false), (⟨4, 4⟩, [⟨2, 4⟩], true)] := by decide +kernel
  obtain ⟨s, executed, facts⟩ := Option.map_eq_some_iff.mp ran
  have reached : Reachable system s :=
    ⟨State.init, twoCalls, rfl, run_of_foldlM step (fun _ _ _ taken => taken) executed⟩
  have last : (⟨4, 4⟩, [⟨2, 4⟩], true) ∈
      s.reports.map fun r => (r.progress, r.prior, r.complete) := by
    rw [facts]
    exact List.mem_cons_of_mem _ List.mem_cons_self
  obtain ⟨r, member, same⟩ := List.mem_map.mp last
  injection same with progress rest
  injection rest with prior complete
  exact ⟨s, r, member, progress, prior, complete, read_progress_forward s reached r member⟩

end ProxmoxBackup.ReadProgress
