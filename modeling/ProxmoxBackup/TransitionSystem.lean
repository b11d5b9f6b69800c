import Mathlib.Logic.Relation

/-! Labelled transition systems over an arbitrary state and action type: runs,
reachability, the invariant rule with its relative form, and termination by a
measure. Every concurrent component below is an instance of `System`, so each
of its safety results is a start lemma and a step lemma. -/

namespace ProxmoxBackup.TransitionSystem

variable {State Action : Type*}

structure System (State Action : Type*) where
  start : State → Prop
  step : State → Action → State → Prop

inductive Run (sys : System State Action) : State → List Action → State → Prop where
  | stop (state : State) : Run sys state [] state
  | next {before middle after : State} {action : Action} {rest : List Action} :
      sys.step before action middle → Run sys middle rest after →
        Run sys before (action :: rest) after

def Reachable (sys : System State Action) (state : State) : Prop :=
  ∃ origin actions, sys.start origin ∧ Run sys origin actions state

structure Invariant (sys : System State Action) (holds : State → Prop) : Prop where
  start : ∀ state, sys.start state → holds state
  step : ∀ before action after, holds before → sys.step before action after → holds after

theorem run_append {sys : System State Action} {before middle after : State}
    {first second : List Action} (left : Run sys before first middle)
    (right : Run sys middle second after) : Run sys before (first ++ second) after := by
  induction left with
  | stop => exact right
  | next step _ ih => exact Run.next step (ih right)

theorem run_snoc {sys : System State Action} {before middle after : State}
    {actions : List Action} {action : Action} (run : Run sys before actions middle)
    (step : sys.step middle action after) : Run sys before (actions ++ [action]) after :=
  run_append run (Run.next step (Run.stop after))

/-- Executing a step function that the system allows is a run of the system. -/
theorem run_of_foldlM {sys : System State Action} (step : State → Action → Option State)
    (allowed : ∀ s action next, step s action = some next → sys.step s action next)
    {before after : State} {actions : List Action}
    (executed : actions.foldlM step before = some after) : Run sys before actions after := by
  induction actions generalizing before with
  | nil =>
      cases executed
      exact Run.stop _
  | cons action rest ih =>
      obtain ⟨middle, taken, later⟩ := Option.bind_eq_some_iff.mp executed
      exact Run.next (allowed before action middle taken) (ih later)

theorem reachable_start {sys : System State Action} {state : State}
    (start : sys.start state) : Reachable sys state :=
  ⟨state, [], start, Run.stop state⟩

theorem reachable_step {sys : System State Action} {before after : State} {action : Action}
    (reached : Reachable sys before) (step : sys.step before action after) :
    Reachable sys after := by
  obtain ⟨origin, actions, start, run⟩ := reached
  exact ⟨origin, actions ++ [action], start, run_snoc run step⟩

theorem run_keeps {sys : System State Action} (holds : State → Prop)
    (kept : ∀ before action after, holds before → sys.step before action after → holds after)
    {before after : State} {actions : List Action} (run : Run sys before actions after)
    (initial : holds before) : holds after := by
  induction run with
  | stop => exact initial
  | next step _ ih => exact ih (kept _ _ _ initial step)

theorem Invariant.run {sys : System State Action} {holds : State → Prop}
    (invariant : Invariant sys holds) {before after : State} {actions : List Action}
    (run : Run sys before actions after) (initial : holds before) : holds after :=
  run_keeps holds invariant.step run initial

theorem Invariant.reachable {sys : System State Action} {holds : State → Prop}
    (invariant : Invariant sys holds) {state : State} (reached : Reachable sys state) :
    holds state := by
  obtain ⟨origin, actions, start, run⟩ := reached
  exact invariant.run run (invariant.start origin start)

/-- An invariant may be proved relative to one already known: the known one is
available before and after the step. -/
theorem Invariant.relative {sys : System State Action} {known holds : State → Prop}
    (base : Invariant sys known) (start : ∀ state, sys.start state → holds state)
    (step : ∀ before action after, known before → known after → holds before →
      sys.step before action after → holds after) :
    Invariant sys (fun state => known state ∧ holds state) where
  start state initial := ⟨base.start state initial, start state initial⟩
  step before action after both taken := by
    have next := base.step before action after both.1 taken
    exact ⟨next, step before action after both.1 next both.2 taken⟩

/-- The same system, taking only the steps that `allowed` admits. -/
def System.restrict (sys : System State Action) (allowed : State → Action → Prop) :
    System State Action where
  start := sys.start
  step before action after := sys.step before action after ∧ allowed before action

theorem restrict_run {sys : System State Action} {allowed : State → Action → Prop}
    {before after : State} {actions : List Action}
    (run : Run (sys.restrict allowed) before actions after) : Run sys before actions after := by
  induction run with
  | stop => exact Run.stop _
  | next step _ ih => exact Run.next step.1 ih

/-- A step function that takes the allowed steps only. -/
def checked (step : State → Action → Option State) (allowed : State → Action → Prop)
    [∀ s action, Decidable (allowed s action)] (s : State) (action : Action) : Option State :=
  if allowed s action then step s action else none

theorem reachable_of_checked {sys : System State Action} {step : State → Action → Option State}
    {allowed : State → Action → Prop} [∀ s action, Decidable (allowed s action)]
    (steps : ∀ s action next, step s action = some next → sys.step s action next)
    {before after : State} {actions : List Action} (start : sys.start before)
    (executed : actions.foldlM (checked step allowed) before = some after) :
    Reachable (sys.restrict allowed) after := by
  refine ⟨before, actions, start, run_of_foldlM (checked step allowed) ?_ executed⟩
  intro s action next taken
  unfold checked at taken
  split at taken
  · next admitted => exact ⟨steps s action next taken, admitted⟩
  · cases taken

/-- A run took allowed steps only, or it ends in what the first other step led to. -/
theorem run_restrict_or {sys : System State Action} {allowed : State → Action → Prop}
    (holds lost : State → Prop)
    (always : ∀ before action after, holds before → sys.step before action after → holds after)
    (kept : ∀ before action after, holds before → lost before → sys.step before action after →
      lost after)
    (falls : ∀ before action after, holds before → sys.step before action after →
      ¬ allowed before action → lost after)
    {before after : State} {actions : List Action} (run : Run sys before actions after)
    (initial : holds before) : Run (sys.restrict allowed) before actions after ∨ lost after := by
  induction run with
  | stop => exact Or.inl (Run.stop _)
  | @next before middle after action rest step tail ih =>
      have next := always before action middle initial step
      by_cases admitted : allowed before action
      · exact (ih next).imp_left (Run.next ⟨step, admitted⟩)
      · have fallen := falls before action middle initial step admitted
        have both := run_keeps (fun state => holds state ∧ lost state)
          (fun _ _ _ held taken =>
            ⟨always _ _ _ held.1 taken, kept _ _ _ held.1 held.2 taken⟩) tail ⟨next, fallen⟩
        exact Or.inr both.2

/-- A state in which no component can move. -/
def Stuck (sys : System State Action) (state : State) : Prop :=
  ∀ action after, ¬ sys.step state action after

/-- Every step lowers the measure on the states an invariant describes. -/
def Decreasing (sys : System State Action) (holds : State → Prop)
    (measure : State → Nat) : Prop :=
  ∀ before action after, holds before → sys.step before action after →
    measure after < measure before

theorem run_length_le_measure {sys : System State Action} {holds : State → Prop}
    (invariant : Invariant sys holds) {measure : State → Nat}
    (decreasing : Decreasing sys holds measure) {before after : State} {actions : List Action}
    (run : Run sys before actions after) (initial : holds before) :
    actions.length + measure after ≤ measure before := by
  induction run with
  | stop => simp
  | next step _ ih =>
      have kept := invariant.step _ _ _ initial step
      have lower := decreasing _ _ _ initial step
      have tail := ih kept
      simp only [List.length_cons]
      omega

end ProxmoxBackup.TransitionSystem
