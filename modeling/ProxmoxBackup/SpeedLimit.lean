import ProxmoxBackup.ListPlaces
import ProxmoxBackup.RunningTotals
import ProxmoxBackup.TransitionSystem
import Mathlib.Algebra.Order.Ring.Rat
import Mathlib.Tactic.FieldSimp
import Mathlib.Tactic.Linarith
import Mathlib.Tactic.Positivity
import Mathlib.Tactic.Ring

/-! The speed limits (pbscommon/ratelimit.go): a token bucket that may go into debt,
shared by any number of calls of Wait. Times are exact, and a timer goes off at its
time: a call reaches its select when its timer is made, and the first of the timer,
the cancel and the change of the limit decides it. -/

namespace ProxmoxBackup.SpeedLimit

open RunningTotals TransitionSystem

/-- `changed` numbers the channels: those before it are closed. -/
structure RateLimiter where
  rate : Nat
  tokens : ℚ
  last : ℚ
  changed : Nat
  deriving DecidableEq

def burstFor (r : Nat) : Nat := if r / 5 > 32 * 1024 then r / 5 else 32 * 1024

def RateLimiter.setLimit (l : RateLimiter) (now : ℚ) (bytesPerSec : Int) : RateLimiter :=
  if l.rate = bytesPerSec.toNat then l
  else { rate := bytesPerSec.toNat, tokens := 0, last := now, changed := l.changed + 1 }

/-- NewRateLimiter; time 0 stands for the zero time of a limiter without a limit. -/
def newRateLimiter (now : ℚ) (bytesPerSec : Int) : RateLimiter :=
  RateLimiter.setLimit { rate := 0, tokens := 0, last := 0, changed := 0 } now bytesPerSec

/-- What the bucket holds at a time. -/
def RateLimiter.filled (l : RateLimiter) (now : ℚ) : ℚ :=
  if l.tokens + (now - l.last) * l.rate > burstFor l.rate then burstFor l.rate
  else l.tokens + (now - l.last) * l.rate

/-- How long the caller must wait, and the limiter after it. -/
def RateLimiter.take (l : RateLimiter) (now : ℚ) (n : Nat) : ℚ × RateLimiter :=
  if l.rate = 0 then (0, l)
  else
    let tokens := l.filled now - n
    (if 0 ≤ tokens then 0 else -tokens / l.rate, { l with tokens := tokens, last := now })

def RateLimiter.giveBack (l : RateLimiter) (n taken : Nat) : RateLimiter :=
  if l.changed = taken then { l with tokens := l.tokens + n } else l

/-! The calls of Wait. A call is between two pieces, or its piece is in the log. -/

inductive Call where
  | next (left : Nat)
  | taking (left piece : Nat)
  deriving DecidableEq

/-- A piece that was taken: its timer is not made yet, or runs until `wake`; the call
was cancelled and gives it back next; it was granted, or given back, or taken again. -/
inductive Phase where
  | armed (wait : ℚ)
  | asleep (wake : ℚ)
  | leaving
  | granted (time : ℚ)
  | back
  | again
  deriving DecidableEq

/-- `taken` is the channel it was taken under, `due` its time as it was taken. -/
structure Piece where
  left : Nat
  bytes : Nat
  taken : Nat
  due : ℚ
  phase : Phase
  deriving DecidableEq

/-- `since` is when the limit was set. -/
structure Process where
  limiter : RateLimiter
  since : ℚ
  now : ℚ
  calls : List Call
  log : List Piece
  deriving DecidableEq

inductive Action where
  | wait (n : Nat)
  | choose (i : Nat)
  | take (i : Nat)
  | arm (k : Nat)
  | fire (k : Nat)
  | cancel (k : Nat)
  | giveBack (k : Nat)
  | notice (k : Nat)
  | setLimit (bytesPerSec : Int)
  | pass (time : ℚ)
  deriving DecidableEq

def Process.put (s : Process) (k : Nat) (p : Piece) (phase : Phase) : Process :=
  { s with log := s.log.set k { p with phase := phase } }

/-- The head of Wait's loop: the call is over, or chooses its next piece. -/
def chosen (limiter : RateLimiter) (left : Nat) : Option Call :=
  if left = 0 ∨ limiter.rate = 0 then none
  else some (.taking left (min left (burstFor limiter.rate)))

def Process.choose (s : Process) (i left : Nat) : Process :=
  match chosen s.limiter left with
  | none => { s with calls := s.calls.eraseIdx i }
  | some call => { s with calls := s.calls.set i call }

/-- A piece that need not wait is granted at once. -/
def Process.take (s : Process) (i left piece : Nat) : Process :=
  let (wait, limiter) := s.limiter.take s.now piece
  if wait ≤ 0 then
    { s with
      limiter := limiter
      calls := s.calls.set i (.next (left - piece))
      log := s.log ++ [⟨left, piece, limiter.changed, s.now, .granted s.now⟩] }
  else
    { s with
      limiter := limiter
      calls := s.calls.eraseIdx i
      log := s.log ++ [⟨left, piece, limiter.changed, s.now + wait, .armed wait⟩] }

/-- No timer goes off before the time. -/
def quiet (changed : Nat) (time : ℚ) (p : Piece) : Bool :=
  match p.phase with
  | .asleep wake => p.taken ≠ changed || time ≤ wake
  | _ => true

def step (s : Process) : Action → Option Process
  | .wait n => if n = 0 ∨ s.limiter.rate = 0 then some s else some { s with calls := s.calls ++ [.next n] }
  | .choose i =>
      match s.calls[i]? with
      | some (.next left) => some (s.choose i left)
      | _ => none
  | .take i =>
      match s.calls[i]? with
      | some (.taking left piece) => some (s.take i left piece)
      | _ => none
  | .arm k =>
      match s.log[k]? with
      | some p =>
          match p.phase with
          | .armed wait => some (s.put k p (.asleep (s.now + wait)))
          | _ => none
      | none => none
  | .fire k =>
      match s.log[k]? with
      | some p =>
          match p.phase with
          | .asleep wake =>
              if p.taken = s.limiter.changed ∧ wake ≤ s.now then
                some { s.put k p (.granted s.now) with calls := s.calls ++ [.next (p.left - p.bytes)] }
              else none
          | _ => none
      | none => none
  | .cancel k =>
      match s.log[k]? with
      | some p =>
          match p.phase with
          | .asleep _ => some (s.put k p .leaving)
          | _ => none
      | none => none
  | .giveBack k =>
      match s.log[k]? with
      | some p =>
          match p.phase with
          | .leaving =>
              some { s.put k p .back with limiter := s.limiter.giveBack p.bytes p.taken }
          | _ => none
      | none => none
  | .notice k =>
      match s.log[k]? with
      | some p =>
          match p.phase with
          | .asleep _ =>
              if p.taken = s.limiter.changed then none
              else some { s.put k p .again with calls := s.calls ++ [.taking p.left p.bytes] }
          | _ => none
      | none => none
  | .setLimit bytesPerSec =>
      let limiter := s.limiter.setLimit s.now bytesPerSec
      some { s with
        limiter := limiter
        since := if limiter.changed = s.limiter.changed then s.since else s.now }
  | .pass time =>
      if s.now ≤ time ∧ s.log.all (quiet s.limiter.changed time) then some { s with now := time }
      else none

/-- A limit set at a time, and no calls yet. -/
def Process.start (r : Nat) (time : ℚ) : Process :=
  ⟨newRateLimiter time r, time, time, [], []⟩

def limited (r : Nat) (time : ℚ) : System Process Action where
  start s := s = Process.start r time
  step s action after := step s action = some after

/-! What a step does. -/

/-- How the phase of a piece changes, and the limiter with it. -/
inductive Moved (s : Process) (p : Piece) : Phase → RateLimiter → Prop where
  | arm {wait : ℚ} (was : p.phase = .armed wait) : Moved s p (.asleep (s.now + wait)) s.limiter
  | fire {wake : ℚ} (was : p.phase = .asleep wake) (here : p.taken = s.limiter.changed)
      (ripe : wake ≤ s.now) : Moved s p (.granted s.now) s.limiter
  | cancel {wake : ℚ} (was : p.phase = .asleep wake) : Moved s p .leaving s.limiter
  | giveBack (was : p.phase = .leaving) :
      Moved s p .back (s.limiter.giveBack p.bytes p.taken)
  | notice {wake : ℚ} (was : p.phase = .asleep wake) (closed : p.taken ≠ s.limiter.changed) :
      Moved s p .again s.limiter

inductive Change (s : Process) (action : Action) : Process → Prop where
  | calls (calls : List Call) : Change s action { s with calls := calls }
  | took (calls : List Call) (left n : Nat) (wait : ℚ) (limiter : RateLimiter)
      (given : s.limiter.take s.now n = (wait, limiter)) :
      Change s action { s with
        limiter := limiter
        calls := calls
        log := s.log ++ [⟨left, n, limiter.changed, if wait ≤ 0 then s.now else s.now + wait,
          if wait ≤ 0 then .granted s.now else .armed wait⟩] }
  | moved (calls : List Call) (k : Nat) (p : Piece) (phase : Phase) (limiter : RateLimiter)
      (here : s.log[k]? = some p) (move : Moved s p phase limiter) :
      Change s action { s with
        limiter := limiter
        calls := calls
        log := s.log.set k { p with phase := phase } }
  | limit (bytesPerSec : Int) (is : action = .setLimit bytesPerSec) :
      Change s action { s with
        limiter := s.limiter.setLimit s.now bytesPerSec
        since := if (s.limiter.setLimit s.now bytesPerSec).changed = s.limiter.changed then s.since
          else s.now }
  | pass (time : ℚ) (later : s.now ≤ time) (none_ : s.log.all (quiet s.limiter.changed time)) :
      Change s action { s with now := time }

theorem step_change {s after : Process} {action : Action} (taken : step s action = some after) :
    Change s action after := by
  cases action with
  | wait n =>
      simp only [step] at taken
      split at taken
      · cases taken
        exact .calls s.calls
      · cases taken
        exact .calls _
  | choose i =>
      simp only [step] at taken
      split at taken
      · cases taken
        unfold Process.choose
        split
        · exact .calls _
        · exact .calls _
      · cases taken
  | take i =>
      simp only [step] at taken
      split at taken
      · next left piece _ =>
          cases taken
          unfold Process.take
          cases given : s.limiter.take s.now piece with
          | mk wait limiter =>
              have took (calls : List Call) : Change s (.take i) _ :=
                .took calls left piece wait limiter given
              by_cases free : wait ≤ 0
              · simp only [if_pos free] at took ⊢
                exact took _
              · simp only [if_neg free] at took ⊢
                exact took _
      · cases taken
  | arm k =>
      simp only [step] at taken
      split at taken
      · next p here =>
          split at taken
          · next was =>
              cases taken
              exact .moved s.calls k p _ _ here (.arm was)
          · cases taken
      · cases taken
  | fire k =>
      simp only [step] at taken
      split at taken
      · next p here =>
          split at taken
          · next was =>
              split at taken
              · next ripe =>
                  cases taken
                  exact .moved _ k p _ _ here (.fire was ripe.1 ripe.2)
              · cases taken
          · cases taken
      · cases taken
  | cancel k =>
      simp only [step] at taken
      split at taken
      · next p here =>
          split at taken
          · next was =>
              cases taken
              exact .moved s.calls k p _ _ here (.cancel was)
          · cases taken
      · cases taken
  | giveBack k =>
      simp only [step] at taken
      split at taken
      · next p here =>
          split at taken
          · next was =>
              cases taken
              exact .moved s.calls k p _ _ here (.giveBack was)
          · cases taken
      · cases taken
  | notice k =>
      simp only [step] at taken
      split at taken
      · next p here =>
          split at taken
          · next was =>
              split at taken
              · cases taken
              · next closed =>
                  cases taken
                  exact .moved _ k p _ _ here (.notice was closed)
          · cases taken
      · cases taken
  | setLimit bytesPerSec =>
      cases taken
      exact .limit bytesPerSec rfl
  | pass time =>
      simp only [step] at taken
      split at taken
      · next goes =>
          cases taken
          exact .pass time goes.1 goes.2
      · cases taken

/-! The pieces that count against the limit. -/

/-- A piece is charged until it is given back or taken again. -/
def Phase.charged : Phase → Bool
  | .armed _ | .asleep _ | .leaving | .granted _ => true
  | .back | .again => false

/-- A piece charged to the present limit, with what the limit lets through by its time. -/
def item (changed rate : Nat) (since : ℚ) (p : Piece) : Option (Item ℚ) :=
  if p.taken = changed && p.phase.charged then some ⟨p.bytes, rate * (p.due - since)⟩ else none

def Process.items (s : Process) : List (Item ℚ) :=
  s.log.filterMap (item s.limiter.changed s.limiter.rate s.since)

/-- A piece is not granted before its time. -/
def OnTime (now : ℚ) (p : Piece) : Prop :=
  match p.phase with
  | .armed wait => 0 ≤ wait ∧ p.due ≤ now + wait
  | .asleep wake => p.due ≤ wake
  | .granted time => p.due ≤ time ∧ time ≤ now
  | _ => True

/-- The bucket of a limit and the pieces charged to it. -/
structure Bucket (s : Process) : Prop where
  started : s.since ≤ s.limiter.last
  filled : s.limiter.last ≤ s.now
  holds : total s.items + s.limiter.tokens ≤ s.limiter.rate * (s.limiter.last - s.since)
  under : Under 0 s.items

structure Paced (s : Process) : Prop where
  numbered : ∀ p ∈ s.log, p.taken ≤ s.limiter.changed
  onTime : ∀ p ∈ s.log, OnTime s.now p
  awake : ∀ p ∈ s.log, quiet s.limiter.changed s.now p = true
  bucket : 0 < s.limiter.rate → Bucket s

theorem item_weight {changed rate : Nat} {since : ℚ} {log : List Piece} {i : Item ℚ}
    (listed : i ∈ log.filterMap (item changed rate since)) : 0 ≤ i.weight := by
  obtain ⟨p, _, made⟩ := List.mem_filterMap.mp listed
  unfold item at made
  split at made
  · cases made
    exact Nat.cast_nonneg _
  · cases made

/-- A phase that is charged as before leaves the charged pieces as they were. -/
theorem items_same {log : List Piece} {k : Nat} {p q : Piece} (here : log[k]? = some p)
    (changed rate : Nat) (since : ℚ)
    (same : item changed rate since q = item changed rate since p) :
    (log.set k q).filterMap (item changed rate since) =
      log.filterMap (item changed rate since) := by
  obtain ⟨front, back, whole, _, set_⟩ := ListPlaces.parts here
  rw [set_ q, whole]
  simp only [List.filterMap_append, List.filterMap_cons, same]

/-- A piece that is charged no more is left out. -/
theorem items_less {log : List Piece} {k : Nat} {p q : Piece} (here : log[k]? = some p)
    {changed rate : Nat} {since : ℚ} {i : Item ℚ} (was : item changed rate since p = some i)
    (gone : item changed rate since q = none) :
    ((log.set k q).filterMap (item changed rate since)).Sublist
        (log.filterMap (item changed rate since)) ∧
      total ((log.set k q).filterMap (item changed rate since)) + i.weight =
        total (log.filterMap (item changed rate since)) := by
  obtain ⟨front, back, whole, _, set_⟩ := ListPlaces.parts here
  rw [set_ q, whole]
  simp only [List.filterMap_append, List.filterMap_cons, was, gone]
  refine ⟨List.Sublist.append_left (List.sublist_cons_self _ _) _, ?_⟩
  rw [total_append, total_append]
  simp only [total]
  ring

theorem take_unlimited {l : RateLimiter} (now : ℚ) (n : Nat) (none_ : l.rate = 0) :
    l.take now n = (0, l) := if_pos none_

theorem take_limited {l : RateLimiter} (now : ℚ) (n : Nat) (some_ : 0 < l.rate) :
    l.take now n = (if 0 ≤ l.filled now - n then 0 else -(l.filled now - n) / l.rate,
      { l with tokens := l.filled now - n, last := now }) := if_neg (by omega)

theorem filled_le (l : RateLimiter) (now : ℚ) :
    l.filled now ≤ l.tokens + (now - l.last) * l.rate := by
  unfold RateLimiter.filled
  split
  · next past => exact le_of_lt past
  · exact le_refl _

/-- What the limit lets through by the time a piece is due covers what was charged. -/
theorem take_due {l : RateLimiter} {now since charged : ℚ} (n : Nat) (limited : 0 < l.rate)
    (holds : charged + l.tokens ≤ l.rate * (l.last - since)) :
    charged + l.filled now ≤ l.rate * (now - since) ∧
      charged + n ≤ l.rate * ((if (l.take now n).1 ≤ 0 then now else now + (l.take now n).1) - since) := by
  have pace : (0 : ℚ) < l.rate := Nat.cast_pos.mpr limited
  have fills := filled_le l now
  have whole : charged + l.filled now ≤ l.rate * (now - since) := by linarith
  refine ⟨whole, ?_⟩
  rw [take_limited now n limited]
  by_cases free : 0 ≤ l.filled now - n
  · simp only [if_pos free, le_refl, if_true]
    linarith
  · have debt : 0 < -(l.filled now - n) / l.rate := div_pos (by linarith) pace
    simp only [if_neg free, if_neg (not_le.mpr debt)]
    have paid : l.rate * (now + -(l.filled now - n) / l.rate - since) =
        l.rate * (now - since) - (l.filled now - n) := by
      field_simp
      ring
    rw [paid]
    linarith

/-! The invariant. -/

theorem paced_start (r : Nat) (time : ℚ) : Paced (Process.start r time) := by
  have none_ (p : Piece) (listed : p ∈ (Process.start r time).log) : False :=
    List.not_mem_nil listed
  refine ⟨fun p listed => (none_ p listed).elim, fun p listed => (none_ p listed).elim,
    fun p listed => (none_ p listed).elim, fun limited => ?_⟩
  have set_ : newRateLimiter time r = ⟨r, 0, time, 1⟩ := by
    have positive : ¬ 0 = r := by
      intro zero
      have rate : (Process.start r time).limiter.rate = 0 := by
        simp only [Process.start, newRateLimiter, RateLimiter.setLimit, Int.toNat_natCast,
          if_pos zero]
      omega
    simp only [newRateLimiter, RateLimiter.setLimit, Int.toNat_natCast, if_neg positive]
  have last : (Process.start r time).limiter = ⟨r, 0, time, 1⟩ := set_
  refine ⟨?_, ?_, ?_, trivial⟩
  · rw [last]
    exact le_refl _
  · rw [last]
    exact le_refl _
  · rw [last]
    simp [Process.items, Process.start, total]

theorem quiet_of_not_asleep {changed : Nat} {time : ℚ} {p : Piece}
    (awake : ∀ wake, p.phase ≠ .asleep wake) : quiet changed time p = true := by
  unfold quiet
  split
  · next wake was => exact absurd was (awake wake)
  · rfl

theorem paced_took {s : Process} (paced : Paced s) (calls : List Call) (left n : Nat) {wait : ℚ}
    {limiter : RateLimiter} (given : s.limiter.take s.now n = (wait, limiter)) :
    Paced { s with
      limiter := limiter
      calls := calls
      log := s.log ++ [⟨left, n, limiter.changed, if wait ≤ 0 then s.now else s.now + wait,
        if wait ≤ 0 then .granted s.now else .armed wait⟩] } := by
  have same : limiter.changed = s.limiter.changed ∧ limiter.rate = s.limiter.rate := by
    by_cases limited : 0 < s.limiter.rate
    · rw [take_limited s.now n limited] at given
      cases given
      exact ⟨rfl, rfl⟩
    · rw [take_unlimited s.now n (by omega)] at given
      cases given
      exact ⟨rfl, rfl⟩
  constructor
  · intro p listed
    rcases List.mem_append.mp listed with old | new
    · exact same.1 ▸ paced.numbered p old
    · rw [List.mem_singleton.mp new]
  · intro p listed
    rcases List.mem_append.mp listed with old | new
    · exact paced.onTime p old
    · rw [List.mem_singleton.mp new]
      by_cases free : wait ≤ 0
      · simp only [OnTime, if_pos free]
        exact ⟨le_refl _, le_refl _⟩
      · simp only [OnTime, if_neg free]
        exact ⟨le_of_lt (not_le.mp free), le_refl _⟩
  · intro p listed
    rcases List.mem_append.mp listed with old | new
    · exact same.1 ▸ paced.awake p old
    · rw [List.mem_singleton.mp new]
      apply quiet_of_not_asleep
      intro wake
      by_cases free : wait ≤ 0
      · simp [if_pos free]
      · simp [if_neg free]
  · intro limited
    have rate : 0 < s.limiter.rate := same.2 ▸ limited
    obtain ⟨started, filled, holds, under⟩ := paced.bucket rate
    obtain ⟨whole, due⟩ := take_due n rate holds
    have wait_ : (s.limiter.take s.now n).1 = wait := by rw [given]
    have after : limiter = { s.limiter with tokens := s.limiter.filled s.now - n, last := s.now } := by
      rw [take_limited s.now n rate] at given
      exact (congrArg Prod.snd given).symm
    have items : Process.items { s with
        limiter := limiter
        calls := calls
        log := s.log ++ [⟨left, n, limiter.changed, if wait ≤ 0 then s.now else s.now + wait,
          if wait ≤ 0 then .granted s.now else .armed wait⟩] } =
        s.items ++ [⟨n, s.limiter.rate *
          ((if wait ≤ 0 then s.now else s.now + wait) - s.since)⟩] := by
      have charged : (if wait ≤ 0 then Phase.granted s.now else Phase.armed wait).charged = true := by
        split <;> rfl
      simp only [Process.items, same.1, same.2, List.filterMap_append, List.filterMap_cons,
        List.filterMap_nil, item, charged, decide_true, Bool.and_self, if_true]
    rw [wait_] at due
    refine ⟨?_, ?_, ?_, ?_⟩
    · rw [after]
      exact started.trans filled
    · rw [after]
    · rw [items, total_append, after]
      simp only [total, add_zero]
      linarith
    · rw [items]
      apply under_snoc under
      simpa using due

/-- A piece moves to a phase in which it is not granted before its time. -/
theorem moved_onTime {s : Process} {p : Piece} {phase : Phase} {limiter : RateLimiter}
    (move : Moved s p phase limiter) (onTime : OnTime s.now p) :
    OnTime s.now { p with phase := phase } := by
  cases move with
  | arm was =>
      simp only [OnTime, was] at onTime ⊢
      exact onTime.2
  | fire was _ ripe =>
      simp only [OnTime, was] at onTime ⊢
      exact ⟨onTime.trans ripe, le_refl _⟩
  | cancel was => trivial
  | giveBack was => trivial
  | notice was _ => trivial

theorem moved_quiet {s : Process} {p : Piece} {phase : Phase} {limiter : RateLimiter}
    (move : Moved s p phase limiter) (onTime : OnTime s.now p) :
    quiet s.limiter.changed s.now { p with phase := phase } = true := by
  cases move with
  | arm was =>
      simp only [OnTime, was] at onTime
      simp [quiet, onTime.1]
  | fire was _ ripe => rfl
  | cancel was => rfl
  | giveBack was => rfl
  | notice was _ => rfl

theorem moved_limiter {s : Process} {p : Piece} {phase : Phase} {limiter : RateLimiter}
    (move : Moved s p phase limiter) :
    limiter.changed = s.limiter.changed ∧ limiter.rate = s.limiter.rate ∧
      limiter.last = s.limiter.last := by
  cases move with
  | giveBack was =>
      unfold RateLimiter.giveBack
      split
      · exact ⟨rfl, rfl, rfl⟩
      · exact ⟨rfl, rfl, rfl⟩
  | arm was => exact ⟨rfl, rfl, rfl⟩
  | fire was _ ripe => exact ⟨rfl, rfl, rfl⟩
  | cancel was => exact ⟨rfl, rfl, rfl⟩
  | notice was _ => exact ⟨rfl, rfl, rfl⟩

/-- What is given back goes from the pieces to the bucket. -/
theorem moved_bucket {s : Process} {k : Nat} {p : Piece} {phase : Phase} {limiter : RateLimiter}
    (here : s.log[k]? = some p) (move : Moved s p phase limiter) (bucket : Bucket s) :
    total ((s.log.set k { p with phase := phase }).filterMap
        (item s.limiter.changed s.limiter.rate s.since)) + limiter.tokens =
      total s.items + s.limiter.tokens ∧
    Under 0 ((s.log.set k { p with phase := phase }).filterMap
        (item s.limiter.changed s.limiter.rate s.since)) := by
  have stays (same : item s.limiter.changed s.limiter.rate s.since { p with phase := phase } =
      item s.limiter.changed s.limiter.rate s.since p) (tokens : limiter.tokens = s.limiter.tokens) :
      total ((s.log.set k { p with phase := phase }).filterMap
          (item s.limiter.changed s.limiter.rate s.since)) + limiter.tokens =
        total s.items + s.limiter.tokens ∧
      Under 0 ((s.log.set k { p with phase := phase }).filterMap
          (item s.limiter.changed s.limiter.rate s.since)) := by
    rw [items_same here _ _ _ same, tokens]
    exact ⟨rfl, bucket.under⟩
  cases move with
  | arm was => exact stays (by simp [item, was, Phase.charged]) rfl
  | fire was _ ripe => exact stays (by simp [item, was, Phase.charged]) rfl
  | cancel was => exact stays (by simp [item, was, Phase.charged]) rfl
  | notice was closed => exact stays (by simp [item, closed]) rfl
  | giveBack was =>
      by_cases current : p.taken = s.limiter.changed
      · have charged : item s.limiter.changed s.limiter.rate s.since p =
            some ⟨p.bytes, s.limiter.rate * (p.due - s.since)⟩ := by
          simp [item, current, was, Phase.charged]
        obtain ⟨sub, less⟩ := items_less here charged
          (show item s.limiter.changed s.limiter.rate s.since { p with phase := .back } = none by
            simp [item, Phase.charged])
        refine ⟨?_, under_sublist sub (fun i listed => item_weight listed) bucket.under⟩
        rw [RateLimiter.giveBack, if_pos current.symm]
        show _ + (s.limiter.tokens + p.bytes) = _
        have same : total s.items = total (s.log.filterMap
          (item s.limiter.changed s.limiter.rate s.since)) := rfl
        rw [same, ← less]
        ring
      · refine stays (by simp [item, current]) ?_
        rw [RateLimiter.giveBack, if_neg fun is => current is.symm]

theorem paced_moved {s : Process} (paced : Paced s) (calls : List Call) {k : Nat} {p : Piece}
    {phase : Phase} {limiter : RateLimiter} (here : s.log[k]? = some p)
    (move : Moved s p phase limiter) :
    Paced { s with
      limiter := limiter
      calls := calls
      log := s.log.set k { p with phase := phase } } := by
  have listed : p ∈ s.log := List.mem_of_getElem? here
  obtain ⟨changed, rate, last⟩ := moved_limiter move
  constructor
  · intro q inLog
    rcases List.mem_or_eq_of_mem_set inLog with old | rfl
    · exact changed ▸ paced.numbered q old
    · exact changed ▸ paced.numbered p listed
  · intro q inLog
    rcases List.mem_or_eq_of_mem_set inLog with old | rfl
    · exact paced.onTime q old
    · exact moved_onTime (s := s) move (paced.onTime p listed)
  · intro q inLog
    show quiet limiter.changed s.now q = true
    rw [changed]
    rcases List.mem_or_eq_of_mem_set inLog with old | rfl
    · exact paced.awake q old
    · exact moved_quiet move (paced.onTime p listed)
  · intro limited
    have bucket := paced.bucket (rate ▸ limited)
    obtain ⟨holds, under⟩ := moved_bucket here move bucket
    have items : Process.items { s with
        limiter := limiter
        calls := calls
        log := s.log.set k { p with phase := phase } } =
        (s.log.set k { p with phase := phase }).filterMap
          (item s.limiter.changed s.limiter.rate s.since) := by
      simp only [Process.items, changed, rate]
    refine ⟨?_, ?_, ?_, ?_⟩
    · show s.since ≤ limiter.last
      rw [last]
      exact bucket.started
    · show limiter.last ≤ s.now
      rw [last]
      exact bucket.filled
    · rw [items]
      show _ + limiter.tokens ≤ limiter.rate * (limiter.last - s.since)
      rw [holds, rate, last]
      exact bucket.holds
    · rw [items]
      exact under

theorem setLimit_cases (l : RateLimiter) (now : ℚ) (bytesPerSec : Int) :
    l.setLimit now bytesPerSec = l ∨
      l.rate ≠ bytesPerSec.toNat ∧
        l.setLimit now bytesPerSec = ⟨bytesPerSec.toNat, 0, now, l.changed + 1⟩ := by
  unfold RateLimiter.setLimit
  split
  · exact .inl rfl
  · next other => exact .inr ⟨other, rfl⟩

theorem paced_limit {s : Process} (paced : Paced s) (bytesPerSec : Int) :
    Paced { s with
      limiter := s.limiter.setLimit s.now bytesPerSec
      since := if (s.limiter.setLimit s.now bytesPerSec).changed = s.limiter.changed then s.since
        else s.now } := by
  rcases setLimit_cases s.limiter s.now bytesPerSec with same | ⟨_, new⟩
  · rw [same, if_pos rfl]
    exact paced
  · rw [new, if_neg (Nat.succ_ne_self _)]
    have older (p : Piece) (listed : p ∈ s.log) : p.taken ≠ s.limiter.changed + 1 := by
      have := paced.numbered p listed
      omega
    refine ⟨fun p listed => Nat.le_succ_of_le (paced.numbered p listed), paced.onTime, ?_, ?_⟩
    · intro p listed
      unfold quiet
      split
      · simp [older p listed]
      · rfl
    · intro _
      -- no piece was taken under the new limit yet
      have none_ : Process.items { s with
          limiter := ⟨bytesPerSec.toNat, 0, s.now, s.limiter.changed + 1⟩
          since := s.now } = [] := by
        apply List.filterMap_eq_nil_iff.mpr
        intro p listed
        simp [item, older p listed]
      refine ⟨le_refl _, le_refl _, ?_, ?_⟩
      · rw [none_]
        simp [total]
      · rw [none_]
        trivial

theorem onTime_later {now time : ℚ} (later : now ≤ time) {p : Piece} (onTime : OnTime now p) :
    OnTime time p := by
  cases phase : p.phase with
  | armed wait =>
      simp only [OnTime, phase] at onTime ⊢
      exact ⟨onTime.1, by linarith [onTime.2]⟩
  | asleep wake =>
      simp only [OnTime, phase] at onTime ⊢
      exact onTime
  | granted at_ =>
      simp only [OnTime, phase] at onTime ⊢
      exact ⟨onTime.1, onTime.2.trans later⟩
  | leaving => simp only [OnTime, phase]
  | back => simp only [OnTime, phase]
  | again => simp only [OnTime, phase]

theorem paced_change {s after : Process} {action : Action} (paced : Paced s)
    (change : Change s action after) : Paced after := by
  cases change with
  | calls calls => exact ⟨paced.numbered, paced.onTime, paced.awake, fun limited =>
      ⟨(paced.bucket limited).started, (paced.bucket limited).filled,
        (paced.bucket limited).holds, (paced.bucket limited).under⟩⟩
  | took calls left n wait limiter given => exact paced_took paced calls left n given
  | moved calls k p phase limiter here move => exact paced_moved paced calls here move
  | limit bytesPerSec _ => exact paced_limit paced bytesPerSec
  | pass time later none_ =>
      refine ⟨paced.numbered, fun p listed => onTime_later later (paced.onTime p listed),
        fun p listed => List.all_eq_true.mp none_ p listed, fun limited => ?_⟩
      have bucket := paced.bucket limited
      exact ⟨bucket.started, bucket.filled.trans later, bucket.holds, bucket.under⟩

theorem paced_run {r : Nat} {time : ℚ} {actions : List Action} {s after : Process}
    (run : Run (limited r time) s actions after) (paced : Paced s) : Paced after :=
  run_keeps Paced (fun _ _ _ held taken => paced_change held (step_change taken)) run paced

/-! The bytes granted. -/

def Phase.grantedBy (time : ℚ) : Phase → Bool
  | .granted at_ => at_ ≤ time
  | _ => false

/-- The bytes of the pieces granted by a time. -/
def grantedBytes (time : ℚ) : List Piece → ℚ
  | [] => 0
  | p :: rest => (if p.phase.grantedBy time then (p.bytes : ℚ) else 0) + grantedBytes time rest

/-- The pieces taken under the present limit. -/
def Process.present (s : Process) : List Piece := s.log.filter (·.taken = s.limiter.changed)

theorem grantedBytes_total (time : ℚ) (changed rate : Nat) (since : ℚ) (log : List Piece) :
    grantedBytes time (log.filter (·.taken = changed)) =
      total ((log.filter fun p => p.taken = changed && p.phase.grantedBy time).filterMap
        (item changed rate since)) := by
  induction log with
  | nil => rfl
  | cons p rest ih =>
      by_cases current : p.taken = changed
      · rw [List.filter_cons_of_pos (by simpa using current), grantedBytes, ih]
        by_cases granted : p.phase.grantedBy time = true
        · have charged : p.phase.charged = true := by
            cases phase : p.phase with
            | granted at_ => rfl
            | armed wait => rw [phase] at granted; cases granted
            | asleep wake => rw [phase] at granted; cases granted
            | leaving => rw [phase] at granted; cases granted
            | back => rw [phase] at granted; cases granted
            | again => rw [phase] at granted; cases granted
          rw [List.filter_cons_of_pos (by simp [current, granted]), if_pos granted]
          simp [item, current, charged, total]
        · rw [List.filter_cons_of_neg (by simp [granted]), if_neg granted, zero_add]
      · rw [List.filter_cons_of_neg (by simpa using current),
          List.filter_cons_of_neg (by simp [current]), ih]

/-- The pieces granted by a time under a limit are within what it lets through. -/
theorem granted_paced {s : Process} (paced : Paced s) (rate : 0 < s.limiter.rate) {time : ℚ}
    (behind : s.since ≤ time) :
    grantedBytes time s.present ≤ s.limiter.rate * (time - s.since) := by
  have pace : (0 : ℚ) < s.limiter.rate := Nat.cast_pos.mpr rate
  have sub := (List.filter_sublist (l := s.log)
    (p := fun p => p.taken = s.limiter.changed && p.phase.grantedBy time)).filterMap
      (item s.limiter.changed s.limiter.rate s.since)
  have under := under_sublist sub (fun i listed => item_weight listed) (paced.bucket rate).under
  have start : (0 : ℚ) ≤ s.limiter.rate * (time - s.since) :=
    mul_nonneg (le_of_lt pace) (by linarith)
  have whole := under_total under start (by
    intro i listed
    obtain ⟨p, chosen_, made⟩ := List.mem_filterMap.mp listed
    obtain ⟨inLog, granted⟩ := List.mem_filter.mp chosen_
    simp only [Bool.and_eq_true, decide_eq_true_eq] at granted
    have onTime := paced.onTime p inLog
    have due : p.due ≤ time := by
      cases phase : p.phase with
      | granted at_ =>
          simp only [OnTime, phase] at onTime
          have by_ : at_ ≤ time := by simpa [phase, Phase.grantedBy] using granted.2
          exact onTime.1.trans by_
      | armed wait => rw [phase] at granted; cases granted.2
      | asleep wake => rw [phase] at granted; cases granted.2
      | leaving => rw [phase] at granted; cases granted.2
      | back => rw [phase] at granted; cases granted.2
      | again => rw [phase] at granted; cases granted.2
    unfold item at made
    split at made
    · cases made
      exact mul_le_mul_of_nonneg_left (by linarith) (le_of_lt pace)
    · cases made)
  rw [zero_add, ← grantedBytes_total] at whole
  exact whole

/-! A limit that is kept. -/

def keepsLimit (r : Nat) : Action → Bool
  | .setLimit bytesPerSec => bytesPerSec.toNat = r
  | _ => true

theorem start_limiter {r : Nat} (positive : 0 < r) (time : ℚ) :
    (Process.start r time).limiter = ⟨r, 0, time, 1⟩ := by
  have other : ¬ 0 = r := by omega
  simp only [Process.start, newRateLimiter, RateLimiter.setLimit, Int.toNat_natCast, if_neg other]

/-- The process still has the limit it started with, and all its pieces are taken under it. -/
structure Kept (r : Nat) (time : ℚ) (s : Process) : Prop where
  rate : s.limiter.rate = r
  since : s.since = time
  changed : s.limiter.changed = 1
  pieces : ∀ p ∈ s.log, p.taken = 1

theorem kept_took {r : Nat} {time : ℚ} {s : Process} (kept : Kept r time s) (n : Nat) :
    (s.limiter.take s.now n).2.rate = r ∧ (s.limiter.take s.now n).2.changed = 1 := by
  unfold RateLimiter.take
  split
  · exact ⟨kept.rate, kept.changed⟩
  · exact ⟨kept.rate, kept.changed⟩

theorem kept_change {r : Nat} {time : ℚ} {s after : Process} {action : Action}
    (kept : Kept r time s) (change : Change s action after) (keeps : keepsLimit r action = true) :
    Kept r time after := by
  cases change with
  | calls calls => exact ⟨kept.rate, kept.since, kept.changed, kept.pieces⟩
  | took calls left n wait limiter given =>
      have took := kept_took kept n
      rw [given] at took
      refine ⟨took.1, kept.since, took.2, fun p listed => ?_⟩
      rcases List.mem_append.mp listed with old | new
      · exact kept.pieces p old
      · rw [List.mem_singleton.mp new]
        exact took.2
  | moved calls k p phase limiter here move =>
      obtain ⟨changed, rate, _⟩ := moved_limiter move
      refine ⟨rate.trans kept.rate, kept.since, changed.trans kept.changed, fun q listed => ?_⟩
      rcases List.mem_or_eq_of_mem_set listed with old | rfl
      · exact kept.pieces q old
      · exact kept.pieces p (List.mem_of_getElem? here)
  | limit bytesPerSec is =>
      subst is
      have rate : s.limiter.rate = bytesPerSec.toNat := by
        simp only [keepsLimit, decide_eq_true_eq] at keeps
        exact kept.rate.trans keeps.symm
      have same : s.limiter.setLimit s.now bytesPerSec = s.limiter := if_pos rate
      rw [same, if_pos rfl]
      exact kept
  | pass now later none_ => exact ⟨kept.rate, kept.since, kept.changed, kept.pieces⟩

theorem kept_run {r r' : Nat} {time time' : ℚ} {actions : List Action} {s after : Process}
    (run : Run (limited r' time') s actions after) (keeps : ∀ a ∈ actions, keepsLimit r a = true)
    (kept : Kept r time s) : Kept r time after := by
  induction run with
  | stop => exact kept
  | next taken _ ih =>
      have one := kept_change kept (step_change taken) (keeps _ (List.mem_cons_self ..))
      exact ih (fun a listed => keeps a (List.mem_cons_of_mem _ listed)) one

theorem kept_present {r : Nat} {time : ℚ} {s : Process} (kept : Kept r time s) :
    s.present = s.log := by
  apply List.filter_eq_self.mpr
  intro p listed
  simp [kept.pieces p listed, kept.changed]

/-! The pieces that wait. -/

/-- A piece of the log stays there, in its phase or in one it has moved to. -/
theorem change_piece {s after : Process} {action : Action} (change : Change s action after)
    {k : Nat} {p : Piece} (here : s.log[k]? = some p) :
    ∃ phase, after.log[k]? = some { p with phase := phase } ∧
      (phase = p.phase ∨ ∃ limiter, Moved s p phase limiter) := by
  cases change with
  | calls calls => exact ⟨p.phase, here, .inl rfl⟩
  | took calls left n wait limiter given =>
      have inside := (List.getElem?_eq_some_iff.mp here).1
      exact ⟨p.phase, (List.getElem?_append_left inside).trans here, .inl rfl⟩
  | moved calls j q phase limiter there move =>
      by_cases same : j = k
      · subst same
        rw [here] at there
        cases there
        have inside := (List.getElem?_eq_some_iff.mp here).1
        exact ⟨phase, List.getElem?_set_self inside, .inr ⟨limiter, move⟩⟩
      · exact ⟨p.phase, (List.getElem?_set_ne same).trans here, .inl rfl⟩
  | limit bytesPerSec is => exact ⟨p.phase, here, .inl rfl⟩
  | pass time later none_ => exact ⟨p.phase, here, .inl rfl⟩

theorem change_changed {s after : Process} {action : Action} (change : Change s action after) :
    s.limiter.changed ≤ after.limiter.changed := by
  cases change with
  | calls calls => exact Nat.le_refl _
  | took calls left n wait limiter given =>
      have same : (s.limiter.take s.now n).2.changed = s.limiter.changed := by
        unfold RateLimiter.take
        split
        · rfl
        · rfl
      rw [given] at same
      exact Nat.le_of_eq same.symm
  | moved calls k p phase limiter here move => exact Nat.le_of_eq (moved_limiter move).1.symm
  | limit bytesPerSec is =>
      rcases setLimit_cases s.limiter s.now bytesPerSec with same | ⟨_, new⟩
      · show s.limiter.changed ≤ (s.limiter.setLimit s.now bytesPerSec).changed
        rw [same]
      · show s.limiter.changed ≤ (s.limiter.setLimit s.now bytesPerSec).changed
        rw [new]
        exact Nat.le_succ _
  | pass time later none_ => exact Nat.le_refl _

def Phase.isGranted : Phase → Bool
  | .granted _ => true
  | _ => false

/-- A piece of an old limit that was not granted never is. -/
def Stale (k : Nat) (p : Piece) (s : Process) : Prop :=
  p.taken < s.limiter.changed ∧
    ∃ phase, s.log[k]? = some { p with phase := phase } ∧ phase.isGranted = false

theorem stale_change {k : Nat} {p : Piece} {s after : Process} {action : Action}
    (stale : Stale k p s) (change : Change s action after) : Stale k p after := by
  obtain ⟨old, phase, here, waiting⟩ := stale
  obtain ⟨next, there, moves⟩ := change_piece change here
  refine ⟨Nat.lt_of_lt_of_le old (change_changed change), next, there, ?_⟩
  rcases moves with same | ⟨limiter, move⟩
  · rw [same]
    exact waiting
  · cases move with
    | arm was => rfl
    | fire was current ripe => exact absurd current (Nat.ne_of_lt old)
    | cancel was => rfl
    | giveBack was => rfl
    | notice was closed => rfl

theorem stale_run {r : Nat} {time : ℚ} {k : Nat} {p : Piece} {actions : List Action}
    {s after : Process} (run : Run (limited r time) s actions after) (stale : Stale k p s) :
    Stale k p after :=
  run_keeps (Stale k p) (fun _ _ _ held taken => stale_change held (step_change taken)) run stale

/-- A sleeping piece until it is decided: it is granted at its very time, unless its call
was cancelled or the limit was changed. -/
def Decided (k : Nat) (p : Piece) (wake : ℚ) (s : Process) : Prop :=
  p.taken < s.limiter.changed ∨
    ∃ phase, s.log[k]? = some { p with phase := phase } ∧
      (phase = .asleep wake ∨ phase = .granted wake ∨ phase = .leaving ∨ phase = .back)

theorem decided_change {k : Nat} {p : Piece} {wake : ℚ} {s after : Process} {action : Action}
    (paced : Paced s) (decided : Decided k p wake s) (change : Change s action after) :
    Decided k p wake after := by
  rcases decided with old | ⟨phase, here, is⟩
  · exact .inl (Nat.lt_of_lt_of_le old (change_changed change))
  · obtain ⟨next, there, moves⟩ := change_piece change here
    have listed : ({ p with phase := phase } : Piece) ∈ s.log := List.mem_of_getElem? here
    rcases moves with same | ⟨limiter, move⟩
    · exact .inr ⟨next, there, by rw [same]; exact is⟩
    · cases move with
      | arm was => rw [show phase = _ from was] at is; simp at is
      | @fire wake' was current ripe =>
          rw [show phase = _ from was] at is
          have wakes : wake' = wake := by simpa using is
          subst wakes
          have awake := paced.awake _ listed
          have before : s.now ≤ wake' := by
            have held : phase = .asleep wake' := was
            simpa [quiet, held, show p.taken = s.limiter.changed from current] using awake
          exact .inr ⟨_, there, .inr (.inl (by rw [le_antisymm before ripe]))⟩
      | cancel was => exact .inr ⟨_, there, .inr (.inr (.inl rfl))⟩
      | giveBack was => exact .inr ⟨_, there, .inr (.inr (.inr rfl))⟩
      | notice was closed =>
          have numbered := paced.numbered _ listed
          have older : p.taken < s.limiter.changed := Nat.lt_of_le_of_ne numbered closed
          exact .inl (Nat.lt_of_lt_of_le older (change_changed change))

/-- Once its time is over, a sleeping piece has been granted at it. -/
theorem asleep_granted {r : Nat} {time : ℚ} {s after : Process} {actions : List Action}
    (paced : Paced s) {k : Nat} {p : Piece} {wake : ℚ} (here : s.log[k]? = some p)
    (was : p.phase = .asleep wake) (run : Run (limited r time) s actions after)
    (kept : after.limiter.changed = p.taken) (past : wake < after.now) :
    ∃ phase, after.log[k]? = some { p with phase := phase } ∧
      (phase = .granted wake ∨ phase = .leaving ∨ phase = .back) := by
  have start : Paced s ∧ Decided k p wake s :=
    ⟨paced, .inr ⟨.asleep wake, by rw [here, ← was], .inl rfl⟩⟩
  obtain ⟨paced, decided⟩ := run_keeps (fun s => Paced s ∧ Decided k p wake s)
    (fun _ _ _ held taken => ⟨paced_change held.1 (step_change taken),
      decided_change held.1 held.2 (step_change taken)⟩) run start
  rcases decided with old | ⟨phase, there, is⟩
  · omega
  · refine ⟨phase, there, ?_⟩
    rcases is with still | rest
    · -- no time passes over the wake-up of a timer that runs
      have awake := paced.awake _ (List.mem_of_getElem? there)
      have before : after.now ≤ wake := by simpa [quiet, still, kept] using awake
      exact absurd past (not_lt.mpr before)
    · exact rest

/-! A waiting piece is granted: the timers before its own go off, and then its own. -/

def sleeps (changed : Nat) (p : Piece) : Bool :=
  match p.phase with
  | .asleep _ => p.taken = changed
  | _ => false

theorem sleeps_asleep {changed : Nat} {p : Piece} (asleep : sleeps changed p = true) :
    p.taken = changed ∧ ∃ wake, p.phase = .asleep wake := by
  unfold sleeps at asleep
  split at asleep
  · next wake was => exact ⟨by simpa using asleep, wake, was⟩
  · cases asleep

theorem quiet_other {changed : Nat} {p : Piece} (awake : sleeps changed p = false) (time : ℚ) :
    quiet changed time p = true := by
  unfold quiet
  unfold sleeps at awake
  split
  · next wake was =>
      rw [was] at awake
      simp only [decide_eq_false_iff_not] at awake
      simp [awake]
  · rfl

theorem quiet_earlier {changed : Nat} {early late : ℚ} (order : early ≤ late) {p : Piece}
    (silent : quiet changed late p = true) : quiet changed early p = true := by
  unfold quiet at silent ⊢
  split
  · next wake was =>
      rw [was] at silent
      simp only [Bool.or_eq_true, decide_eq_true_eq] at silent ⊢
      exact silent.imp_right order.trans
  · rfl

/-- Of the pieces asleep one wakes first. -/
theorem first_to_wake (changed : Nat) (log : List Piece)
    (some_ : ∃ p ∈ log, sleeps changed p = true) :
    ∃ (j : Nat) (p : Piece) (wake : ℚ), log[j]? = some p ∧ p.phase = .asleep wake ∧
      p.taken = changed ∧ ∀ q ∈ log, quiet changed wake q = true := by
  induction log with
  | nil =>
      obtain ⟨p, listed, _⟩ := some_
      cases listed
  | cons first rest ih =>
      by_cases later : ∃ p ∈ rest, sleeps changed p = true
      · obtain ⟨j, p, wake, here, was, current, silent⟩ := ih later
        by_cases quietFirst : quiet changed wake first = true
        · refine ⟨j + 1, p, wake, here, was, current, fun q listed => ?_⟩
          rcases List.mem_cons.mp listed with rfl | inRest
          · exact quietFirst
          · exact silent q inRest
        · -- the first piece wakes before the others
          have asleep : sleeps changed first = true := by
            cases is : sleeps changed first with
            | true => rfl
            | false => exact absurd (quiet_other is wake) quietFirst
          obtain ⟨taken, time, slept⟩ := sleeps_asleep asleep
          have sooner : time ≤ wake := by
            by_contra past
            apply quietFirst
            simp [quiet, slept, le_of_lt (not_le.mp past)]
          refine ⟨0, first, time, rfl, slept, taken, fun q listed => ?_⟩
          rcases List.mem_cons.mp listed with rfl | inRest
          · simp [quiet, slept]
          · exact quiet_earlier sooner (silent q inRest)
      · obtain ⟨p, listed, asleep⟩ := some_
        have own : p = first := by
          rcases List.mem_cons.mp listed with same | inRest
          · exact same
          · exact absurd ⟨p, inRest, asleep⟩ later
        subst own
        obtain ⟨taken, wake, slept⟩ := sleeps_asleep asleep
        refine ⟨0, p, wake, rfl, slept, taken, fun q listed => ?_⟩
        rcases List.mem_cons.mp listed with rfl | inRest
        · simp [quiet, slept]
        · apply quiet_other
          cases is : sleeps changed q with
          | false => rfl
          | true => exact absurd ⟨q, inRest, is⟩ later

theorem sleepers_fewer {changed : Nat} {log : List Piece} {j : Nat} {p q : Piece}
    (here : log[j]? = some p) (asleep : sleeps changed p = true) (awake : sleeps changed q = false) :
    ((log.set j q).filter (sleeps changed)).length < (log.filter (sleeps changed)).length := by
  obtain ⟨front, back, whole, _, set_⟩ := ListPlaces.parts here
  rw [set_ q, whole, List.filter_append, List.filter_append,
    List.filter_cons_of_pos asleep, List.filter_cons_of_neg (by simp [awake])]
  simp only [List.length_append, List.length_cons]
  omega

/-- The wake-up of a piece: time passes to it, and its timer goes off. -/
theorem wakes {s : Process} (paced : Paced s) {j : Nat} {p : Piece} {wake : ℚ}
    (here : s.log[j]? = some p) (was : p.phase = .asleep wake)
    (current : p.taken = s.limiter.changed)
    (silent : ∀ q ∈ s.log, quiet s.limiter.changed wake q = true) :
    ∃ after, (∀ r time, Run (limited r time) s [.pass wake, .fire j] after) ∧
      after.limiter = s.limiter ∧ after.log = s.log.set j { p with phase := .granted wake } := by
  have awake : s.now ≤ wake := by
    have held := paced.awake p (List.mem_of_getElem? here)
    simpa [quiet, was, current] using held
  have passed : step s (.pass wake) = some { s with now := wake } :=
    if_pos ⟨awake, List.all_eq_true.mpr silent⟩
  have fired : step { s with now := wake } (.fire j) = some { s with
      now := wake
      calls := s.calls ++ [.next (p.left - p.bytes)]
      log := s.log.set j { p with phase := .granted wake } } := by
    simp only [step, here, was, current, le_refl, and_self, if_true, Process.put]
  exact ⟨_, fun r time => Run.next passed (Run.next fired (Run.stop _)), rfl, rfl⟩

theorem asleep_wakes {r : Nat} {time : ℚ} (sleepers : Nat) {s : Process} (paced : Paced s)
    (many : (s.log.filter (sleeps s.limiter.changed)).length ≤ sleepers) {k : Nat} {p : Piece}
    {wake : ℚ} (here : s.log[k]? = some p) (was : p.phase = .asleep wake)
    (current : p.taken = s.limiter.changed) :
    ∃ actions after, Run (limited r time) s actions after ∧ after.limiter = s.limiter ∧
      after.log[k]? = some { p with phase := .granted wake } := by
  have asleep : sleeps s.limiter.changed p = true := by simp [sleeps, was, current]
  -- On the pieces asleep: the first to wake is this one, or one less sleeps.
  induction sleepers generalizing s with
  | zero =>
      have inside : p ∈ s.log.filter (sleeps s.limiter.changed) :=
        List.mem_filter.mpr ⟨List.mem_of_getElem? here, asleep⟩
      rw [List.eq_nil_of_length_eq_zero (Nat.le_zero.mp many)] at inside
      cases inside
  | succ sleepers ih =>
      obtain ⟨j, q, first, there, slept, taken, silent⟩ :=
        first_to_wake s.limiter.changed s.log ⟨p, List.mem_of_getElem? here, asleep⟩
      obtain ⟨middle, run, limiter, log⟩ := wakes paced there slept taken silent
      by_cases same : j = k
      · subst same
        rw [here] at there
        cases there
        rw [was] at slept
        cases slept
        have inside := (List.getElem?_eq_some_iff.mp here).1
        exact ⟨_, middle, run r time, limiter, by rw [log]; exact List.getElem?_set_self inside⟩
      · have fewer := sleepers_fewer (q := { q with phase := .granted first }) there
          (show sleeps s.limiter.changed q = true by simp [sleeps, slept, taken]) rfl
        obtain ⟨actions, after, later, kept, granted⟩ := ih (s := middle)
          (paced_run (run r time) paced) (by rw [log, limiter]; omega)
          (by rw [log]; exact (List.getElem?_set_ne same).trans here)
          (by rw [limiter]; exact current) (by rw [limiter]; exact asleep)
        exact ⟨_, after, run_append (run r time) later, kept.trans limiter, granted⟩

def Phase.waits : Phase → Bool
  | .armed _ | .asleep _ => true
  | _ => false

/-- A piece that waits under the present limit is granted at a finite time. -/
theorem waiting_granted {r : Nat} {time : ℚ} {s : Process} (paced : Paced s) {k : Nat} {p : Piece}
    (here : s.log[k]? = some p) (current : p.taken = s.limiter.changed)
    (waits : p.phase.waits = true) :
    ∃ actions after at_, Run (limited r time) s actions after ∧ after.limiter = s.limiter ∧
      after.log[k]? = some { p with phase := .granted at_ } := by
  cases was : p.phase with
  | asleep wake =>
      obtain ⟨actions, after, run, kept, granted⟩ :=
        asleep_wakes (r := r) _ paced (Nat.le_refl _) here was current
      exact ⟨actions, after, wake, run, kept, granted⟩
  | armed wait =>
      have armed : step s (.arm k) = some (s.put k p (.asleep (s.now + wait))) := by
        simp only [step, here, was]
      have inside := (List.getElem?_eq_some_iff.mp here).1
      have there : (s.put k p (.asleep (s.now + wait))).log[k]? =
          some { p with phase := .asleep (s.now + wait) } := List.getElem?_set_self inside
      obtain ⟨actions, after, run, kept, granted⟩ := @asleep_wakes r time _ _
        (paced_change paced (step_change armed)) (Nat.le_refl _) _ _ _ there rfl current
      exact ⟨_, after, _, Run.next armed run, kept, granted⟩
  | leaving => rw [was] at waits; cases waits
  | granted at_ => rw [was] at waits; cases waits
  | back => rw [was] at waits; cases waits
  | again => rw [was] at waits; cases waits

/-! A cancelled wait. -/

/-- What the other calls do with the bucket under a limit that is kept. -/
inductive Use where
  | take (now : ℚ) (n : Nat)
  | giveBack (n : Nat)

def RateLimiter.use (l : RateLimiter) : Use → RateLimiter
  | .take now n => (l.take now n).2
  | .giveBack n => l.giveBack n l.changed

/-- The takes come one after another, from a time to another. -/
def InOrder : ℚ → List Use → ℚ → Prop
  | from_, [], until_ => from_ ≤ until_
  | from_, .take now _ :: rest, until_ => from_ ≤ now ∧ InOrder now rest until_
  | from_, .giveBack _ :: rest, until_ => InOrder from_ rest until_

/-- The bucket at a time, before it is cut to the burst. -/
def RateLimiter.level (l : RateLimiter) (now : ℚ) : ℚ := l.tokens + (now - l.last) * l.rate

theorem filled_min (l : RateLimiter) (now : ℚ) :
    l.filled now = min (burstFor l.rate : ℚ) (l.level now) := by
  unfold RateLimiter.filled RateLimiter.level
  split
  · next past => exact (min_eq_left (le_of_lt past)).symm
  · next under => exact (min_eq_right (not_lt.mp under)).symm

/-- A bucket that lacks no more than the piece against another with the same limit. -/
structure Lacks (n : Nat) (now : ℚ) (without with_ : RateLimiter) : Prop where
  rate : with_.rate = without.rate
  limited : 0 < without.rate
  lacks : ∀ time, now ≤ time → without.filled time - n ≤ with_.level time

theorem filled_later (l : RateLimiter) {now time : ℚ} (later : now ≤ time) :
    l.filled time ≤ l.filled now + (time - now) * l.rate := by
  have pace : (0 : ℚ) ≤ (time - now) * l.rate :=
    mul_nonneg (by linarith) (Nat.cast_nonneg _)
  have grown : l.level time = l.level now + (time - now) * l.rate := by
    unfold RateLimiter.level
    ring
  rw [filled_min, filled_min, grown]
  rcases le_total (burstFor l.rate : ℚ) (l.level now) with full | room
  · rw [min_eq_left full]
    exact (min_le_left _ _).trans (by linarith)
  · rw [min_eq_right room]
    exact min_le_right _ _

theorem lacks_take {n : Nat} {start now : ℚ} {without with_ : RateLimiter}
    (lacks : Lacks n start without with_) (later : start ≤ now) (m : Nat) :
    Lacks n now (without.take now m).2 (with_.take now m).2 := by
  have limited : 0 < with_.rate := lacks.rate ▸ lacks.limited
  rw [take_limited now m lacks.limited, take_limited now m limited]
  refine ⟨lacks.rate, lacks.limited, fun time behind => ?_⟩
  have left : ({ without with tokens := without.filled now - m, last := now } :
      RateLimiter).filled time ≤ without.filled now - m + (time - now) * without.rate := by
    rw [filled_min]
    exact min_le_right _ _
  have right : ({ with_ with tokens := with_.filled now - m, last := now } :
      RateLimiter).level time = with_.filled now - m + (time - now) * with_.rate := rfl
  have kept : without.filled now - n ≤ with_.filled now := by
    rw [filled_min with_]
    apply le_min
    · rw [filled_min, lacks.rate]
      have cut := min_le_left (burstFor without.rate : ℚ) (without.level now)
      have size : (0 : ℚ) ≤ n := Nat.cast_nonneg _
      linarith
    · exact lacks.lacks now later
  rw [right, lacks.rate]
  linarith

theorem lacks_giveBack {n : Nat} {start : ℚ} {without with_ : RateLimiter}
    (lacks : Lacks n start without with_) (m : Nat) :
    Lacks n start (without.giveBack m without.changed) (with_.giveBack m with_.changed) := by
  rw [RateLimiter.giveBack, if_pos rfl, RateLimiter.giveBack, if_pos rfl]
  refine ⟨lacks.rate, lacks.limited, fun time behind => ?_⟩
  have before := lacks.lacks time behind
  have size : (0 : ℚ) ≤ m := Nat.cast_nonneg _
  have left : ({ without with tokens := without.tokens + m } : RateLimiter).filled time ≤
      without.filled time + m := by
    rw [filled_min, filled_min]
    have level : ({ without with tokens := without.tokens + m } : RateLimiter).level time =
        without.level time + m := by
      unfold RateLimiter.level
      ring
    rw [level]
    rcases le_total (burstFor without.rate : ℚ) (without.level time) with full | room
    · rw [min_eq_left full]
      exact (min_le_left _ _).trans (by linarith)
    · rw [min_eq_right room]
      exact min_le_right _ _
  have right : ({ with_ with tokens := with_.tokens + m } : RateLimiter).level time =
      with_.level time + m := by
    unfold RateLimiter.level
    ring
  rw [right]
  linarith

theorem lacks_uses {n : Nat} (uses : List Use) {start until_ : ℚ} {without with_ : RateLimiter}
    (lacks : Lacks n start without with_) (order : InOrder start uses until_) :
    Lacks n until_ (uses.foldl RateLimiter.use without) (uses.foldl RateLimiter.use with_) := by
  induction uses generalizing start without with_ with
  | nil => exact ⟨lacks.rate, lacks.limited, fun time behind => lacks.lacks time (order.trans behind)⟩
  | cons first rest ih =>
      cases first with
      | take now m => exact ih (lacks_take lacks order.1 m) order.2
      | giveBack m => exact ih (lacks_giveBack lacks m) order

/-- Once a cancelled piece is given back, the bucket holds at any time at least what it would
hold if the piece had never been taken, whatever the other calls took meanwhile. -/
theorem cancelled_returns (l : RateLimiter) (limited : 0 < l.rate) (n : Nat) (uses : List Use)
    {start until_ : ℚ} (order : InOrder start uses until_) {time : ℚ} (behind : until_ ≤ time) :
    (uses.foldl RateLimiter.use l).filled time ≤
      ((uses.foldl RateLimiter.use (l.take start n).2).giveBack n
        (uses.foldl RateLimiter.use (l.take start n).2).changed).filled time := by
  have first : Lacks n start l (l.take start n).2 := by
    rw [take_limited start n limited]
    refine ⟨rfl, limited, fun time behind => ?_⟩
    have grown := filled_later l behind
    show l.filled time - n ≤ l.filled start - n + (time - start) * l.rate
    linarith
  obtain ⟨rate, _, lacks⟩ := lacks_uses uses first order
  have before := lacks time behind
  rw [RateLimiter.giveBack, if_pos rfl]
  conv_rhs => rw [filled_min]
  apply le_min
  · rw [filled_min, ← rate]
    exact min_le_left _ _
  · have level : ({ uses.foldl RateLimiter.use (l.take start n).2 with
        tokens := (uses.foldl RateLimiter.use (l.take start n).2).tokens + n } :
        RateLimiter).level time =
        (uses.foldl RateLimiter.use (l.take start n).2).level time + n := by
      unfold RateLimiter.level
      ring
    rw [level]
    linarith

/-! The limit over time. -/

/-- What holds at any moment of a process that started with a limit at time 0. -/
structure Holds (r : Nat) (actions : List Action) (s : Process) : Prop where
  /-- Under a limit that is kept, the bytes granted by any time. -/
  kept : (∀ a ∈ actions, keepsLimit r a = true) → ∀ time, 0 ≤ time →
    grantedBytes time s.log ≤ r * time + burstFor r
  /-- The same from when the limit was set last. -/
  present : 0 < s.limiter.rate → ∀ time, s.since ≤ time →
    grantedBytes time s.present ≤ s.limiter.rate * (time - s.since) + burstFor s.limiter.rate
  /-- A piece that waits can be granted at some time, with no other call taking part. -/
  granted : ∀ (k : Nat) (p : Piece), s.log[k]? = some p → p.taken = s.limiter.changed →
    p.phase.waits = true → ∃ more after at_, Run (limited r 0) s more after ∧
      after.limiter = s.limiter ∧ after.log[k]? = some { p with phase := .granted at_ }
  /-- While the limit is kept, no run passes the wake-up of a piece without granting it
  then, but for a cancel. -/
  onTime : ∀ (k : Nat) (p : Piece) (wake : ℚ), s.log[k]? = some p → p.phase = .asleep wake →
    ∀ more after, Run (limited r 0) s more after → after.limiter.changed = p.taken →
      wake < after.now → ∃ phase, after.log[k]? = some { p with phase := phase } ∧
        (phase = .granted wake ∨ phase = .leaving ∨ phase = .back)
  /-- A cancelled piece is in the bucket again for whoever takes next. -/
  returned : 0 < s.limiter.rate → ∀ (n : Nat) (uses : List Use) (start until_ time : ℚ),
    InOrder start uses until_ → until_ ≤ time →
      (uses.foldl RateLimiter.use s.limiter).filled time ≤
        ((uses.foldl RateLimiter.use (s.limiter.take start n).2).giveBack n
          (uses.foldl RateLimiter.use (s.limiter.take start n).2).changed).filled time
  /-- A piece that waits when another limit is set is not granted any more: its call takes
  it again, under the limit set now. -/
  relimited : ∀ bytesPerSec : Int, bytesPerSec.toNat ≠ s.limiter.rate →
    ∀ new, step s (.setLimit bytesPerSec) = some new → new.since = s.now ∧
      new.limiter.rate = bytesPerSec.toNat ∧
      ∀ (k : Nat) (p : Piece), s.log[k]? = some p → p.phase.isGranted = false →
        ∀ more after, Run (limited r 0) new more after →
          ∃ phase, after.log[k]? = some { p with phase := phase } ∧ phase.isGranted = false

theorem setLimit_new {s new : Process} {bytesPerSec : Int}
    (other : bytesPerSec.toNat ≠ s.limiter.rate)
    (taken : step s (.setLimit bytesPerSec) = some new) :
    new = { s with
      limiter := ⟨bytesPerSec.toNat, 0, s.now, s.limiter.changed + 1⟩
      since := s.now } := by
  have limiter : s.limiter.setLimit s.now bytesPerSec =
      ⟨bytesPerSec.toNat, 0, s.now, s.limiter.changed + 1⟩ := if_neg fun same => other same.symm
  simp only [step, limiter, if_neg (Nat.succ_ne_self _)] at taken
  exact (Option.some.inj taken).symm

/-- In every run of any number of calls, cancels and changes of the limit, the speed limit
holds over time. -/
theorem speed_limit_holds (r : Nat) (positive : 0 < r) (actions : List Action) (s : Process)
    (run : Run (limited r 0) (Process.start r 0) actions s) : Holds r actions s := by
  have paced := paced_run run (paced_start r 0)
  constructor
  · intro keeps time behind
    have initial : Kept r 0 (Process.start r 0) := by
      refine ⟨by rw [start_limiter positive], rfl, by rw [start_limiter positive], fun p listed => ?_⟩
      exact (List.not_mem_nil listed).elim
    have kept := kept_run run keeps initial
    have within := granted_paced paced (by rw [kept.rate]; exact positive)
      (show s.since ≤ time by rw [kept.since]; exact behind)
    rw [kept_present kept, kept.rate, kept.since, sub_zero] at within
    have burst : (0 : ℚ) ≤ burstFor r := Nat.cast_nonneg _
    linarith
  · intro rate time behind
    have within := granted_paced paced rate behind
    have burst : (0 : ℚ) ≤ burstFor s.limiter.rate := Nat.cast_nonneg _
    linarith
  · exact fun k p here current waits => waiting_granted paced here current waits
  · exact fun k p wake here was more after later kept past =>
      asleep_granted paced here was later kept past
  · exact fun rate n uses start until_ time order behind =>
      cancelled_returns s.limiter rate n uses order behind
  · intro bytesPerSec other new taken
    have is := setLimit_new other taken
    refine ⟨by rw [is], by rw [is], fun k p here waiting more after later => ?_⟩
    have older := paced.numbered p (List.mem_of_getElem? here)
    have stale : Stale k p new := by
      rw [is]
      exact ⟨Nat.lt_succ_of_le older, p.phase, here, waiting⟩
    exact (stale_run later stale).2

/-- Two bursts under the lowest limit that has one a second: the second waits its turn. -/
def twoBursts : List Action :=
  [.wait 65536, .choose 0, .take 0, .arm 0, .pass 1, .fire 0, .choose 0, .take 0, .arm 1, .pass 2,
    .fire 1]

theorem two_bursts_hold :
    ∃ s, Run (limited 32768 0) (Process.start 32768 0) twoBursts s ∧
      grantedBytes 2 s.log = 65536 ∧ ∀ time, 0 ≤ time →
        grantedBytes time s.log ≤ 32768 * time + 32768 := by
  have executed : (twoBursts.foldlM step (Process.start 32768 0)).map
      (fun s => grantedBytes 2 s.log) = some 65536 := by decide +kernel
  obtain ⟨s, ran, bytes⟩ := Option.map_eq_some_iff.mp executed
  have run : Run (limited 32768 0) (Process.start 32768 0) twoBursts s :=
    run_of_foldlM step (fun _ _ _ taken => taken) ran
  refine ⟨s, run, bytes, fun time behind => ?_⟩
  have held := (speed_limit_holds 32768 (by decide) twoBursts s run).kept (by decide) time behind
  have burst : burstFor 32768 = 32768 := by decide
  rw [burst] at held
  exact_mod_cast held

end ProxmoxBackup.SpeedLimit
