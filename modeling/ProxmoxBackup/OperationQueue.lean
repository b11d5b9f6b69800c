import ProxmoxBackup.TransitionSystem
import Mathlib.Data.List.Basic
import Mathlib.Logic.Function.Basic

/-! The operation queue of gui/operation_queue.go. A ticket pointer is its
sequence number, which the code never reuses; `admitted` lists the tickets
whose `admitted` channel is closed, in the order they were closed. Every
locked section of acquireOperation and Release is one action, so a list of
actions is an arbitrary interleaving of callers under `opMu`. -/

namespace ProxmoxBackup.OperationQueue

open TransitionSystem

inductive OpKind where
  | opBackup
  | opMachine
  | opRestore
  | opExclusive
  deriving DecidableEq

structure OpRequest where
  name : String
  kind : OpKind
  group : String
  deriving DecidableEq

structure OpTicket extends OpRequest where
  seq : Nat
  deriving DecidableEq

def defaultMaxConcurrentRuns : Int := 3

def maxConcurrentRunsLimit : Int := 8

def clampRunLimit (n : Int) : Int :=
  if n ≤ 0 then defaultMaxConcurrentRuns
  else if n > maxConcurrentRunsLimit then maxConcurrentRunsLimit
  else n

structure OpQueue where
  opSeq : Nat
  opRunning : List OpTicket
  opWaiting : List OpTicket
  admitted : List Nat
  groupEnded : String → Option Int

def OpQueue.empty : OpQueue := ⟨0, [], [], [], fun _ => none⟩

def removeTicket (list : List OpTicket) (t : OpTicket) : List OpTicket :=
  list.eraseP fun x => x.seq = t.seq

def makesSnapshot (t : OpTicket) : Bool :=
  t.group ≠ "" && (t.kind = .opBackup || t.kind = .opMachine)

def waitingAhead (opWaiting : List OpTicket) (t : OpTicket) : List OpTicket :=
  opWaiting.filter fun w => w.seq < t.seq

/-- The rules over one running operation `r` that keep `t` from starting. -/
def clashes (t r : OpTicket) : Bool :=
  r.kind = .opExclusive
    || (t.kind = .opMachine && r.kind = .opMachine)
    || (t.kind = .opRestore && r.kind = .opRestore)
    || (t.group ≠ "" && r.group = t.group)

def blockersLocked (opRunning : List OpTicket) (t : OpTicket) (limit : Int)
    (ahead : List OpTicket) : List OpTicket :=
  match ahead.find? fun w => w.kind = .opExclusive with
  | some w => [w]
  | none =>
      if opRunning.length = 0 then []
      else if t.kind = .opExclusive ∨ limit ≤ opRunning.length then opRunning
      else opRunning.filter (clashes t)

/-- The loop of admitWaitingLocked over the operations still to look at; the
last argument is its `still` list. -/
def admitLoop (limit : Int) :
    List OpTicket → List OpTicket → List Nat → List OpTicket →
      List OpTicket × List Nat × List OpTicket
  | [], opRunning, admitted, still => (opRunning, admitted, still)
  | t :: rest, opRunning, admitted, still =>
      if 0 < (blockersLocked opRunning t limit still).length then
        admitLoop limit rest opRunning admitted (still ++ [t])
      else
        admitLoop limit rest (opRunning ++ [t]) (admitted ++ [t.seq]) still

def admitWaitingLocked (limit : Int) (q : OpQueue) : OpQueue :=
  let result := admitLoop limit q.opWaiting q.opRunning q.admitted []
  { q with opRunning := result.1, admitted := result.2.1, opWaiting := result.2.2 }

def ticketAdmitted (q : OpQueue) (t : OpTicket) : Bool := t.seq ∈ q.admitted

/-- The names of the blockers, each once, as the progress line lists them. -/
def blockerNames : List OpTicket → List String → List String
  | [], names => names
  | b :: rest, names =>
      if b.name ∈ names then blockerNames rest names else blockerNames rest (names ++ [b.name])

def describeBlockers (list : List OpTicket) : String :=
  match blockerNames list [] with
  | [] => "another backup"
  | [only] => only
  | names => ", ".intercalate names.dropLast ++ " and " ++ names.getLast?.getD ""

/-- The first locked section of acquireOperation: the queue after it, the
ticket, and `waitingFor`. -/
def enqueueOperation (limit : Int) (q : OpQueue) (req : OpRequest) :
    OpQueue × OpTicket × String :=
  let t : OpTicket := { toOpRequest := req, seq := q.opSeq + 1 }
  let joined := { q with opSeq := q.opSeq + 1, opWaiting := q.opWaiting ++ [t] }
  let next := admitWaitingLocked limit joined
  let waitingFor := if ticketAdmitted next t then "" else
    describeBlockers (blockersLocked next.opRunning t limit (waitingAhead next.opWaiting t))
  (next, t, waitingFor)

/-- The locked section of acquireOperation after `ctx` ended the wait. -/
def cancelOperation (limit : Int) (q : OpQueue) (t : OpTicket) : OpQueue :=
  admitWaitingLocked limit <|
    if ticketAdmitted q t then { q with opRunning := removeTicket q.opRunning t }
    else { q with opWaiting := removeTicket q.opWaiting t }

def releaseOperation (limit : Int) (q : OpQueue) (t : OpTicket) (now : Int) : OpQueue :=
  admitWaitingLocked limit
    { q with
      groupEnded := if makesSnapshot t then Function.update q.groupEnded t.group (some now)
        else q.groupEnded
      opRunning := removeTicket q.opRunning t }

inductive QueueAction where
  | request (req : OpRequest)
  | cancel (t : OpTicket)
  | release (t : OpTicket) (now : Int)

def queueStep (limit : Int) (q : OpQueue) : QueueAction → OpQueue
  | .request req => (enqueueOperation limit q req).1
  | .cancel t => cancelOperation limit q t
  | .release t now => releaseOperation limit q t now

/-- The queue under one fixed setting of maxConcurrentRuns. -/
def queueSystem (maxConcurrentRuns : Int) : System OpQueue QueueAction where
  start q := q = OpQueue.empty
  step before action after := after = queueStep (clampRunLimit maxConcurrentRuns) before action

theorem clampRunLimit_pos (n : Int) : 1 ≤ clampRunLimit n := by
  unfold clampRunLimit defaultMaxConcurrentRuns maxConcurrentRunsLimit
  split
  · decide
  · split <;> omega

theorem removeTicket_sublist (list : List OpTicket) (t : OpTicket) :
    (removeTicket list t).Sublist list :=
  List.eraseP_sublist

/-- Two operations may run side by side; `later` was admitted while `earlier` ran. -/
def Compatible (earlier later : OpTicket) : Prop :=
  later.kind ≠ .opExclusive ∧ clashes later earlier = false

theorem blockersLocked_eq_nil_iff (opRunning : List OpTicket) (t : OpTicket) (limit : Int)
    (ahead : List OpTicket) :
    blockersLocked opRunning t limit ahead = [] ↔
      (∀ w ∈ ahead, w.kind ≠ .opExclusive) ∧
        (opRunning = [] ∨ ((opRunning.length : Int) < limit ∧
          ∀ r ∈ opRunning, Compatible r t)) := by
  unfold blockersLocked
  cases found : ahead.find? fun w => w.kind = .opExclusive with
  | some w =>
      have waiting := List.mem_of_find?_eq_some found
      have exclusive := List.find?_some found
      simp only [List.cons_ne_nil, false_iff, not_and]
      intro noneAhead
      exact absurd (by simpa using exclusive) (noneAhead w waiting)
  | none =>
      have noneAhead : ∀ w ∈ ahead, w.kind ≠ .opExclusive := by
        intro w member
        simpa using List.find?_eq_none.mp found w member
      by_cases idle : opRunning = []
      · simp [idle]
        exact noneAhead
      · have busy : opRunning.length ≠ 0 := by simpa using idle
        by_cases full : t.kind = .opExclusive ∨ limit ≤ opRunning.length
        · simp only [busy, full, ↓reduceIte, idle, false_or, false_iff, not_and]
          rintro - room compatible
          rcases full with exclusive | reached
          · obtain ⟨r, member⟩ := List.exists_mem_of_ne_nil opRunning idle
            exact (compatible r member).1 exclusive
          · omega
        · rw [not_or] at full
          simp only [busy, ↓reduceIte, idle, false_or, full.1, full.2, or_self,
            List.filter_eq_nil_iff, Compatible]
          constructor
          · intro free
            exact ⟨noneAhead, by omega, fun r member => ⟨full.1, by simpa using free r member⟩⟩
          · rintro ⟨-, -, compatible⟩ r member
            simp [(compatible r member).2]

theorem blockersLocked_present (opRunning : List OpTicket) (t : OpTicket) (limit : Int)
    (ahead : List OpTicket) (b : OpTicket) (blocks : b ∈ blockersLocked opRunning t limit ahead) :
    b ∈ opRunning ∨ b ∈ ahead := by
  unfold blockersLocked at blocks
  split at blocks
  · next w found =>
      rw [List.mem_singleton.mp blocks]
      exact Or.inr (List.mem_of_find?_eq_some found)
  · split at blocks
    · simp at blocks
    · split at blocks
      · exact Or.inl blocks
      · exact Or.inl (List.mem_filter.mp blocks).1

/-- A further admission never unblocks an operation that was passed over. -/
theorem blockersLocked_grow (opRunning : List OpTicket) (admittedNow t : OpTicket) (limit : Int)
    (ahead : List OpTicket) (blocked : blockersLocked opRunning t limit ahead ≠ []) :
    blockersLocked (opRunning ++ [admittedNow]) t limit ahead ≠ [] := by
  intro free
  obtain ⟨noneAhead, impossible | ⟨room, compatible⟩⟩ :=
    (blockersLocked_eq_nil_iff _ _ _ _).mp free
  · simp at impossible
  · apply blocked
    refine (blockersLocked_eq_nil_iff _ _ _ _).mpr ⟨noneAhead, Or.inr ⟨?_, ?_⟩⟩
    · simp only [List.length_append, List.length_singleton] at room
      omega
    · intro r member
      exact compatible r (List.mem_append.mpr (Or.inl member))

/-- What the admission loop keeps: `rest` is still to be looked at, `still` was
passed over. -/
structure LoopInvariant (limit : Int) (rest opRunning : List OpTicket) (admitted : List Nat)
    (still : List OpTicket) : Prop where
  withinLimit : (opRunning.length : Int) ≤ limit
  compatible : opRunning.Pairwise Compatible
  sorted : (still ++ rest).Pairwise fun a b => a.seq < b.seq
  exclusiveFirst : ∀ w ∈ still ++ rest, w.kind = .opExclusive → ∀ s ∈ admitted, s < w.seq
  blocked : ∀ t ∈ still, blockersLocked opRunning t limit (waitingAhead still t) ≠ []

theorem waitingAhead_snoc (still : List OpTicket) (t : OpTicket)
    (sorted : (still ++ [t]).Pairwise fun a b => a.seq < b.seq) :
    waitingAhead (still ++ [t]) t = still ∧
      ∀ x ∈ still, waitingAhead (still ++ [t]) x = waitingAhead still x := by
  have before := (List.pairwise_append.mp sorted).2.2
  constructor
  · have all : still.filter (fun w => decide (w.seq < t.seq)) = still := by
      apply List.filter_eq_self.mpr
      intro w member
      simpa using before w member t (List.mem_singleton_self t)
    simp [waitingAhead, List.filter_append, all]
  · intro x member
    have earlier := before x member t (List.mem_singleton_self t)
    simp [waitingAhead, List.filter_append, Nat.not_lt.mpr (Nat.le_of_lt earlier)]

theorem loop_skip (limit : Int) (t : OpTicket) (rest opRunning : List OpTicket)
    (admitted : List Nat) (still : List OpTicket)
    (held : LoopInvariant limit (t :: rest) opRunning admitted still)
    (stops : blockersLocked opRunning t limit still ≠ []) :
    LoopInvariant limit rest opRunning admitted (still ++ [t]) := by
  have regroup : still ++ t :: rest = (still ++ [t]) ++ rest := by simp
  have sorted := held.sorted
  rw [regroup] at sorted
  obtain ⟨atEnd, others⟩ := waitingAhead_snoc still t (List.pairwise_append.mp sorted).1
  refine ⟨held.withinLimit, held.compatible, sorted, ?_, ?_⟩
  · rw [← regroup]
    exact held.exclusiveFirst
  · intro x member
    rcases List.mem_append.mp member with old | new
    · rw [others x old]
      exact held.blocked x old
    · rw [List.mem_singleton.mp new, atEnd]
      exact stops

theorem loop_admits (limit : Int) (positive : 1 ≤ limit) (t : OpTicket)
    (rest opRunning : List OpTicket) (admitted : List Nat) (still : List OpTicket)
    (held : LoopInvariant limit (t :: rest) opRunning admitted still)
    (free : blockersLocked opRunning t limit still = []) :
    LoopInvariant limit rest (opRunning ++ [t]) (admitted ++ [t.seq]) still := by
  obtain ⟨noneAhead, place⟩ := (blockersLocked_eq_nil_iff _ _ _ _).mp free
  have sorted := List.pairwise_append.mp held.sorted
  have tail := List.pairwise_cons.mp sorted.2.1
  refine ⟨?_, ?_, ?_, ?_, ?_⟩
  · simp only [List.length_append, List.length_singleton]
    rcases place with idle | ⟨room, -⟩
    · simpa [idle] using positive
    · omega
  · apply List.pairwise_append.mpr
    refine ⟨held.compatible, List.pairwise_singleton _ _, ?_⟩
    intro r member x last
    rw [List.mem_singleton.mp last]
    rcases place with idle | ⟨-, compatible⟩
    · simp [idle] at member
    · exact compatible r member
  · apply List.pairwise_append.mpr
    exact ⟨sorted.1, tail.2, fun a left b right => sorted.2.2 a left b (List.mem_cons_of_mem t right)⟩
  · intro w member exclusive s admittedSeq
    rcases List.mem_append.mp admittedSeq with old | new
    · refine held.exclusiveFirst w ?_ exclusive s old
      rcases List.mem_append.mp member with left | right
      · exact List.mem_append.mpr (Or.inl left)
      · exact List.mem_append.mpr (Or.inr (List.mem_cons_of_mem t right))
    · rw [List.mem_singleton.mp new]
      rcases List.mem_append.mp member with left | right
      · exact absurd exclusive (noneAhead w left)
      · exact tail.1 w right
  · intro x member
    exact blockersLocked_grow opRunning t x limit _ (held.blocked x member)

theorem admitLoop_invariant (limit : Int) (positive : 1 ≤ limit) (rest opRunning : List OpTicket)
    (admitted : List Nat) (still : List OpTicket)
    (held : LoopInvariant limit rest opRunning admitted still) :
    LoopInvariant limit [] (admitLoop limit rest opRunning admitted still).1
      (admitLoop limit rest opRunning admitted still).2.1
      (admitLoop limit rest opRunning admitted still).2.2 := by
  induction rest generalizing opRunning admitted still with
  | nil => exact held
  | cons t rest ih =>
      simp only [admitLoop]
      split
      · next stops =>
          exact ih _ _ _ (loop_skip limit t rest opRunning admitted still held
            (List.ne_nil_of_length_pos stops))
      · next free =>
          refine ih _ _ _ (loop_admits limit positive t rest opRunning admitted still held ?_)
          exact List.length_eq_zero_iff.mp (Nat.eq_zero_of_not_pos free)

theorem admitLoop_tickets (limit : Int) (rest opRunning : List OpTicket)
    (admitted : List Nat) (still : List OpTicket) :
    (∀ w ∈ (admitLoop limit rest opRunning admitted still).2.2, w ∈ still ++ rest) ∧
      ∀ s ∈ (admitLoop limit rest opRunning admitted still).2.1,
        s ∈ admitted ∨ ∃ t ∈ rest, s = t.seq := by
  induction rest generalizing opRunning admitted still with
  | nil => simp [admitLoop]
  | cons t rest ih =>
      simp only [admitLoop]
      split
      · obtain ⟨waiting, started⟩ := ih opRunning admitted (still ++ [t])
        refine ⟨fun w member => by simpa using waiting w member, fun s member => ?_⟩
        rcases started s member with old | ⟨x, inRest, same⟩
        · exact Or.inl old
        · exact Or.inr ⟨x, List.mem_cons_of_mem t inRest, same⟩
      · obtain ⟨waiting, started⟩ := ih (opRunning ++ [t]) (admitted ++ [t.seq]) still
        refine ⟨fun w member => ?_, fun s member => ?_⟩
        · rcases List.mem_append.mp (waiting w member) with left | right
          · exact List.mem_append.mpr (Or.inl left)
          · exact List.mem_append.mpr (Or.inr (List.mem_cons_of_mem t right))
        · rcases started s member with old | ⟨x, inRest, same⟩
          · rcases List.mem_append.mp old with older | new
            · exact Or.inl older
            · exact Or.inr ⟨t, List.mem_cons_self, List.mem_singleton.mp new⟩
          · exact Or.inr ⟨x, List.mem_cons_of_mem t inRest, same⟩

/-- What holds between two locked sections of the queue. -/
structure QueueInvariant (limit : Int) (q : OpQueue) : Prop where
  settled : LoopInvariant limit [] q.opRunning q.admitted q.opWaiting
  waitingIssued : ∀ t ∈ q.opWaiting, t.seq ≤ q.opSeq
  admittedIssued : ∀ s ∈ q.admitted, s ≤ q.opSeq

theorem admitWaitingLocked_invariant (limit : Int) (positive : 1 ≤ limit) (q : OpQueue)
    (open_ : LoopInvariant limit q.opWaiting q.opRunning q.admitted [])
    (waitingIssued : ∀ t ∈ q.opWaiting, t.seq ≤ q.opSeq)
    (admittedIssued : ∀ s ∈ q.admitted, s ≤ q.opSeq) :
    QueueInvariant limit (admitWaitingLocked limit q) := by
  obtain ⟨waiting, started⟩ := admitLoop_tickets limit q.opWaiting q.opRunning q.admitted []
  refine ⟨admitLoop_invariant limit positive _ _ _ _ open_, ?_, ?_⟩
  · intro t member
    exact waitingIssued t (by simpa using waiting t member)
  · intro s member
    rcases started s member with old | ⟨t, wasWaiting, same⟩
    · exact admittedIssued s old
    · exact same ▸ waitingIssued t wasWaiting

/-- Removing tickets, from either list, leaves the loop where it can start again. -/
theorem reopen (limit : Int) (q : OpQueue) (held : QueueInvariant limit q)
    (opRunning opWaiting : List OpTicket) (fewerRunning : opRunning.Sublist q.opRunning)
    (fewerWaiting : opWaiting.Sublist q.opWaiting) :
    LoopInvariant limit opWaiting opRunning q.admitted [] := by
  have inside := held.settled
  refine ⟨?_, inside.compatible.sublist fewerRunning, ?_, ?_, by simp⟩
  · have shorter := fewerRunning.length_le
    have limited := inside.withinLimit
    omega
  · simpa using (by simpa using inside.sorted : q.opWaiting.Pairwise _).sublist fewerWaiting
  · intro w member
    exact inside.exclusiveFirst w (by simpa using fewerWaiting.subset (by simpa using member))

theorem enqueueOperation_invariant (limit : Int) (positive : 1 ≤ limit) (q : OpQueue)
    (req : OpRequest) (held : QueueInvariant limit q) :
    QueueInvariant limit (enqueueOperation limit q req).1 := by
  have inside := held.settled
  have sorted : q.opWaiting.Pairwise fun a b => a.seq < b.seq := by simpa using inside.sorted
  apply admitWaitingLocked_invariant limit positive
  · refine ⟨inside.withinLimit, inside.compatible, ?_, ?_, by simp⟩
    · rw [List.nil_append]
      apply List.pairwise_append.mpr
      refine ⟨sorted, List.pairwise_singleton _ _, ?_⟩
      intro w member last isLast
      rw [List.mem_singleton.mp isLast]
      exact Nat.lt_succ_of_le (held.waitingIssued w member)
    · intro w member exclusive s started
      rw [List.nil_append] at member
      rcases List.mem_append.mp member with old | new
      · exact inside.exclusiveFirst w (by simpa using old) exclusive s started
      · rw [List.mem_singleton.mp new]
        exact Nat.lt_succ_of_le (held.admittedIssued s started)
  · intro t member
    rcases List.mem_append.mp member with old | new
    · exact Nat.le_succ_of_le (held.waitingIssued t old)
    · obtain rfl := List.mem_singleton.mp new
      exact Nat.le_refl _
  · intro s started
    exact Nat.le_succ_of_le (held.admittedIssued s started)

theorem cancelOperation_invariant (limit : Int) (positive : 1 ≤ limit) (q : OpQueue)
    (t : OpTicket) (held : QueueInvariant limit q) :
    QueueInvariant limit (cancelOperation limit q t) := by
  unfold cancelOperation
  split
  · apply admitWaitingLocked_invariant limit positive
    · exact reopen limit q held _ _ (removeTicket_sublist _ t) (List.Sublist.refl _)
    · exact held.waitingIssued
    · exact held.admittedIssued
  · have fewer := removeTicket_sublist q.opWaiting t
    apply admitWaitingLocked_invariant limit positive
    · exact reopen limit q held _ _ (List.Sublist.refl _) fewer
    · exact fun x member => held.waitingIssued x (fewer.subset member)
    · exact held.admittedIssued

theorem releaseOperation_invariant (limit : Int) (positive : 1 ≤ limit) (q : OpQueue)
    (t : OpTicket) (now : Int) (held : QueueInvariant limit q) :
    QueueInvariant limit (releaseOperation limit q t now) := by
  apply admitWaitingLocked_invariant limit positive
  · exact reopen limit q held _ _ (removeTicket_sublist _ t) (List.Sublist.refl _)
  · exact held.waitingIssued
  · exact held.admittedIssued

theorem queue_invariant (maxConcurrentRuns : Int) :
    Invariant (queueSystem maxConcurrentRuns)
      (QueueInvariant (clampRunLimit maxConcurrentRuns)) where
  start q initial := by
    subst initial
    have positive := clampRunLimit_pos maxConcurrentRuns
    refine ⟨⟨?_, ?_, ?_, ?_, ?_⟩, ?_, ?_⟩ <;> simp [OpQueue.empty]
    omega
  step before action after held taken := by
    have positive := clampRunLimit_pos maxConcurrentRuns
    subst taken
    cases action with
    | request req => exact enqueueOperation_invariant _ positive before req held
    | cancel t => exact cancelOperation_invariant _ positive before t held
    | release t now => exact releaseOperation_invariant _ positive before t now held

/-- The queue after a sequence of requests, cancellations and releases. -/
def runQueue (maxConcurrentRuns : Int) (actions : List QueueAction) : OpQueue :=
  actions.foldl (queueStep (clampRunLimit maxConcurrentRuns)) OpQueue.empty

theorem run_foldl (maxConcurrentRuns : Int) (actions : List QueueAction) (q : OpQueue) :
    Run (queueSystem maxConcurrentRuns) q actions
      (actions.foldl (queueStep (clampRunLimit maxConcurrentRuns)) q) := by
  induction actions generalizing q with
  | nil => exact Run.stop q
  | cons action rest ih => exact Run.next rfl (ih _)

theorem runQueue_invariant (maxConcurrentRuns : Int) (actions : List QueueAction) :
    QueueInvariant (clampRunLimit maxConcurrentRuns) (runQueue maxConcurrentRuns actions) :=
  (queue_invariant maxConcurrentRuns).run (run_foldl maxConcurrentRuns actions OpQueue.empty)
    ((queue_invariant maxConcurrentRuns).start _ rfl)

theorem at_most_one {α : Type*} (list : List α) (relation : α → α → Prop) (selected : α → Bool)
    (pairwise : list.Pairwise relation)
    (apart : ∀ a b, selected a = true → selected b = true → ¬ relation a b) :
    (list.filter selected).length ≤ 1 := by
  have kept := pairwise.filter selected
  cases shape : list.filter selected with
  | nil => simp
  | cons a rest =>
      cases rest with
      | nil => simp
      | cons b more =>
          have inside (x : α) (member : x ∈ a :: b :: more) : selected x = true :=
            (List.mem_filter.mp (shape ▸ member)).2
          rw [shape] at kept
          have related := (List.pairwise_cons.mp kept).1 b List.mem_cons_self
          exact absurd related (apart a b (inside a (by simp)) (inside b (by simp)))

theorem exclusive_alone (opRunning : List OpTicket) (compatible : opRunning.Pairwise Compatible)
    (r : OpTicket) (running : r ∈ opRunning) (exclusive : r.kind = .opExclusive) :
    opRunning = [r] := by
  cases opRunning with
  | nil => simp at running
  | cons first rest =>
      have tail := (List.pairwise_cons.mp compatible).1
      rcases List.mem_cons.mp running with same | later
      · subst same
        cases rest with
        | nil => rfl
        | cons x more =>
            have clear := (tail x List.mem_cons_self).2
            simp [clashes, exclusive] at clear
      · exact absurd exclusive (tail r later).1

/-- The rules the queue keeps over its running and waiting operations. -/
structure AdmissionRules (limit : Int) (q : OpQueue) : Prop where
  withinLimit : (q.opRunning.length : Int) ≤ limit
  oneMachine : (q.opRunning.filter fun r => r.kind = .opMachine).length ≤ 1
  oneRestore : (q.opRunning.filter fun r => r.kind = .opRestore).length ≤ 1
  groupsApart : q.opRunning.Pairwise fun a b => a.group ≠ "" → a.group ≠ b.group
  exclusiveAlone : ∀ r ∈ q.opRunning, r.kind = .opExclusive → q.opRunning = [r]
  exclusiveFirst : ∀ w ∈ q.opWaiting, w.kind = .opExclusive → ∀ s ∈ q.admitted, s < w.seq
  blockerPresent : ∀ t ∈ q.opWaiting,
    ∃ b ∈ blockersLocked q.opRunning t limit (waitingAhead q.opWaiting t),
      b ∈ q.opRunning ∨ b ∈ q.opWaiting

end ProxmoxBackup.OperationQueue
