import ProxmoxBackup.OperationQueue

/-! Callers of acquireOperation between its locked sections: what a handle and an error
say about a ticket. maxConcurrentRuns is read anew every time, so any limit may come
back, also twice in one locked section. -/

namespace ProxmoxBackup.OperationHandles

open OperationQueue TransitionSystem

/-- Where a caller is: in the select, in waitNewSecond, with its handle, with an error,
or done. -/
inductive Caller where
  | idle
  | queued (t : OpTicket)
  | entering (t : OpTicket)
  | holds (t : OpTicket)
  | failed (t : OpTicket)
  | released (t : OpTicket)
  deriving DecidableEq

structure State where
  queue : OpQueue
  caller : Nat → Caller

/-- n and n' are what maxConcurrentRuns returns. -/
inductive Action where
  | request (c : Nat) (req : OpRequest) (n n' : Int)
  | admitted (c : Nat)
  | ended (c : Nat) (n : Int)
  | newSecond (c : Nat)
  | stopped (c : Nat) (now n : Int)
  | release (c : Nat) (now n : Int)

/-- The queue and the ticket behind the first locked section. -/
def queueAfter (q : OpQueue) (req : OpRequest) (n : Int) : OpQueue :=
  (enqueueOperation (clampRunLimit n) q req).1

def ticketOf (q : OpQueue) (req : OpRequest) : OpTicket := { toOpRequest := req, seq := q.opSeq + 1 }

def blockersOf (q : OpQueue) (t : OpTicket) (n : Int) : List OpTicket :=
  blockersLocked q.opRunning t (clampRunLimit n) (waitingAhead q.opWaiting t)

def waitingFor (q : OpQueue) (t : OpTicket) (n : Int) : String :=
  if ticketAdmitted q t then "" else describeBlockers (blockersOf q t n)

def step (s : State) : Action → Option State
  | .request c req n n' =>
      match s.caller c with
      | .idle =>
          let q := queueAfter s.queue req n
          let t := ticketOf s.queue req
          some ⟨q, Function.update s.caller c
            (if waitingFor q t n' ≠ "" then .queued t else .entering t)⟩
      | _ => none
  | .admitted c =>
      match s.caller c with
      | .queued t =>
          if ticketAdmitted s.queue t then some ⟨s.queue, Function.update s.caller c (.entering t)⟩
          else none
      | _ => none
  | .ended c n =>
      match s.caller c with
      | .queued t =>
          some ⟨cancelOperation (clampRunLimit n) s.queue t, Function.update s.caller c (.failed t)⟩
      | _ => none
  | .newSecond c =>
      match s.caller c with
      | .entering t => some ⟨s.queue, Function.update s.caller c (.holds t)⟩
      | _ => none
  | .stopped c now n =>
      match s.caller c with
      | .entering t =>
          if makesSnapshot t ∧ (s.queue.groupEnded t.group).isSome then
            some ⟨releaseOperation (clampRunLimit n) s.queue t now, Function.update s.caller c (.failed t)⟩
          else none
      | _ => none
  | .release c now n =>
      match s.caller c with
      | .holds t =>
          some ⟨releaseOperation (clampRunLimit n) s.queue t now, Function.update s.caller c (.released t)⟩
      | _ => none

def fresh : State := ⟨OpQueue.empty, fun _ => .idle⟩

def callers : System State Action where
  start s := s = fresh
  step s action next := step s action = some next

/-- A handle is of a running operation, and an error of one in neither list. -/
structure HandleIsAdmission (s : State) : Prop where
  running : ∀ c t, s.caller c = .holds t → t ∈ s.queue.opRunning
  gone : ∀ c t, s.caller c = .failed t → t ∉ s.queue.opWaiting ∧ t ∉ s.queue.opRunning

/-- A request that has to wait, waits for an operation that has a name. -/
def named (s : State) (action : Action) : Bool :=
  match action with
  | .request _ req n n' =>
      let q := queueAfter s.queue req n
      let t := ticketOf s.queue req
      ticketAdmitted q t || (blockersOf q t n').isEmpty || (blockersOf q t n').any fun b => b.name ≠ ""
  | _ => true

def namedCallers : System State Action := callers.restrict fun s action => named s action = true

/-! The text that decides. -/

theorem blockerNames_mem (list : List OpTicket) (names : List String) (name : String) :
    name ∈ blockerNames list names ↔ name ∈ names ∨ ∃ b ∈ list, b.name = name := by
  induction list generalizing names with
  | nil => simp [blockerNames]
  | cons b rest ih =>
      rw [blockerNames]
      split
      · next known =>
          rw [ih]
          constructor
          · rintro (old | ⟨x, member, same⟩)
            · exact Or.inl old
            · exact Or.inr ⟨x, List.mem_cons_of_mem b member, same⟩
          · rintro (old | ⟨x, member, same⟩)
            · exact Or.inl old
            · rcases List.mem_cons.mp member with here | later
              · exact Or.inl (same ▸ here ▸ known)
              · exact Or.inr ⟨x, later, same⟩
      · rw [ih]
        constructor
        · rintro (old | ⟨x, member, same⟩)
          · rcases List.mem_append.mp old with older | new
            · exact Or.inl older
            · exact Or.inr ⟨b, List.mem_cons_self, (List.mem_singleton.mp new).symm⟩
          · exact Or.inr ⟨x, List.mem_cons_of_mem b member, same⟩
        · rintro (old | ⟨x, member, same⟩)
          · exact Or.inl (List.mem_append_left _ old)
          · rcases List.mem_cons.mp member with here | later
            · exact Or.inl (List.mem_append_right _ (by rw [← same, here]; exact List.mem_singleton_self _))
            · exact Or.inr ⟨x, later, same⟩

/-- The text is empty only for operations without a name. -/
theorem describeBlockers_empty (list : List OpTicket) (blank : describeBlockers list = "") :
    list ≠ [] ∧ ∀ b ∈ list, b.name = "" := by
  unfold describeBlockers at blank
  split at blank
  · exact absurd blank (by decide)
  · next only shape =>
      have names := blockerNames_mem list []
      rw [shape] at names
      constructor
      · intro none_
        rw [none_] at shape
        cases shape
      · intro b member
        have listed := (names b.name).mpr (Or.inr ⟨b, member, rfl⟩)
        rw [List.mem_singleton.mp listed, blank]
  · have size := congrArg String.length blank
    rw [String.length_append, String.length_append] at size
    have joined : " and ".length = 5 := by decide
    have zero : "".length = 0 := by decide
    omega

/-! What the queue's operations do to the lists. -/

/-- The loop moves some operations over and closes their channels. -/
theorem admitLoop_moves (limit : Int) (rest opRunning : List OpTicket) (admitted : List Nat)
    (still : List OpTicket) :
    ∃ moved, (admitLoop limit rest opRunning admitted still).1 = opRunning ++ moved ∧
      (admitLoop limit rest opRunning admitted still).2.1 = admitted ++ moved.map (fun t => t.seq) ∧
      (moved ++ (admitLoop limit rest opRunning admitted still).2.2).Perm (still ++ rest) := by
  induction rest generalizing opRunning admitted still with
  | nil => exact ⟨[], by simp [admitLoop], by simp [admitLoop], by simp [admitLoop]⟩
  | cons t rest ih =>
      rw [admitLoop]
      split
      · obtain ⟨moved, running, closed, lists⟩ := ih opRunning admitted (still ++ [t])
        exact ⟨moved, running, closed, by simpa using lists⟩
      · obtain ⟨moved, running, closed, lists⟩ := ih (opRunning ++ [t]) (admitted ++ [t.seq]) still
        refine ⟨t :: moved, by simpa using running, by simpa using closed, ?_⟩
        rw [List.cons_append]
        exact (List.Perm.cons t lists).trans (List.perm_middle.symm)

/-- The tickets of a queue: each in one list, a running one with its channel closed and
a waiting one with its channel open. -/
structure Listed (q : OpQueue) : Prop where
  distinct : ((q.opRunning ++ q.opWaiting).map fun t => t.seq).Nodup
  issued : ∀ t ∈ q.opRunning ++ q.opWaiting, t.seq ≤ q.opSeq
  closed : ∀ t ∈ q.opRunning, t.seq ∈ q.admitted
  open_ : ∀ t ∈ q.opWaiting, t.seq ∉ q.admitted
  past : ∀ n ∈ q.admitted, n ≤ q.opSeq

theorem admit_lists (limit : Int) (q : OpQueue) :
    ((admitWaitingLocked limit q).opRunning ++ (admitWaitingLocked limit q).opWaiting).Perm
      (q.opRunning ++ q.opWaiting) ∧
    ∀ t ∈ q.opRunning, t ∈ (admitWaitingLocked limit q).opRunning := by
  obtain ⟨moved, running, -, lists⟩ := admitLoop_moves limit q.opWaiting q.opRunning q.admitted []
  rw [List.nil_append] at lists
  unfold admitWaitingLocked
  dsimp only
  rw [running]
  constructor
  · rw [List.append_assoc]
    exact List.Perm.append_left _ lists
  · intro t member
    exact List.mem_append_left _ member

theorem admit_listed (limit : Int) {q : OpQueue} (listed : Listed q) :
    Listed (admitWaitingLocked limit q) := by
  have lists := (admit_lists limit q).1
  obtain ⟨moved, running, closed, parts⟩ := admitLoop_moves limit q.opWaiting q.opRunning q.admitted []
  rw [List.nil_append] at parts
  have waited : ∀ t ∈ moved, t ∈ q.opWaiting := by
    intro t member
    exact parts.subset (List.mem_append_left _ member)
  constructor
  · exact (lists.map _).nodup_iff.mpr listed.distinct
  · intro t member
    exact listed.issued t (lists.subset member)
  · intro t member
    have member : t ∈ q.opRunning ++ moved := running ▸ member
    change t.seq ∈ (admitLoop limit q.opWaiting q.opRunning q.admitted []).2.1
    rw [closed]
    rcases List.mem_append.mp member with old | new
    · exact List.mem_append_left _ (listed.closed t old)
    · exact List.mem_append_right _ (List.mem_map_of_mem new)
  · intro t member
    change t.seq ∉ (admitLoop limit q.opWaiting q.opRunning q.admitted []).2.1
    rw [closed]
    intro known
    rcases List.mem_append.mp known with old | new
    · exact listed.open_ t (parts.subset (List.mem_append_right _ member)) old
    · -- the ticket would be among the moved ones and among those left behind
      have apart : ((moved ++ (admitLoop limit q.opWaiting q.opRunning q.admitted []).2.2).map
          fun t => t.seq).Nodup := by
        apply (parts.map _).nodup_iff.mpr
        have whole := listed.distinct
        rw [List.map_append] at whole
        exact (List.nodup_append.mp whole).2.1
      rw [List.map_append] at apart
      exact (List.nodup_append.mp apart).2.2 _ new _ (List.mem_map_of_mem member) rfl
  · intro n known
    change n ∈ (admitLoop limit q.opWaiting q.opRunning q.admitted []).2.1 at known
    rw [closed] at known
    rcases List.mem_append.mp known with old | new
    · exact listed.past n old
    · obtain ⟨t, member, same⟩ := List.mem_map.mp new
      exact same ▸ listed.issued t (List.mem_append_right _ (waited t member))

theorem mem_removeTicket {list : List OpTicket} (distinct : (list.map fun t => t.seq).Nodup)
    (t x : OpTicket) : x ∈ removeTicket list t ↔ x ∈ list ∧ x.seq ≠ t.seq := by
  induction list with
  | nil => simp [removeTicket]
  | cons first rest ih =>
      rw [List.map_cons, List.nodup_cons] at distinct
      unfold removeTicket at ih ⊢
      by_cases here : first.seq = t.seq
      · rw [List.eraseP_cons_of_pos (by simpa using here)]
        constructor
        · intro member
          refine ⟨List.mem_cons_of_mem _ member, fun same => distinct.1 ?_⟩
          rw [here, ← same]
          exact List.mem_map_of_mem member
        · rintro ⟨member, other⟩
          rcases List.mem_cons.mp member with same | later
          · exact absurd (same ▸ here) other
          · exact later
      · rw [List.eraseP_cons_of_neg (by simpa using here)]
        constructor
        · intro member
          rcases List.mem_cons.mp member with same | later
          · exact ⟨same ▸ List.mem_cons_self, same ▸ here⟩
          · obtain ⟨kept, other⟩ := (ih distinct.2).mp later
            exact ⟨List.mem_cons_of_mem _ kept, other⟩
        · rintro ⟨member, other⟩
          rcases List.mem_cons.mp member with same | later
          · exact same ▸ List.mem_cons_self
          · exact List.mem_cons_of_mem _ ((ih distinct.2).mpr ⟨later, other⟩)

/-- A ticket leaves the queue, and no other one does. -/
structure Drops (q q' : OpQueue) (t : OpTicket) : Prop where
  listed : Listed q'
  issued : q'.opSeq = q.opSeq
  kept : ∀ x, x ∈ q'.opRunning ++ q'.opWaiting ↔ x ∈ q.opRunning ++ q.opWaiting ∧ x.seq ≠ t.seq
  runs : ∀ x ∈ q.opRunning, x.seq ≠ t.seq → x ∈ q'.opRunning

/-- The lists without a ticket, before the waiting ones are looked at again. -/
theorem drops_admit (limit : Int) {q : OpQueue} (listed : Listed q) (t : OpTicket)
    (opRunning opWaiting : List OpTicket) (ended : String → Option Int)
    (fewerRunning : opRunning.Sublist q.opRunning) (fewerWaiting : opWaiting.Sublist q.opWaiting)
    (kept : ∀ x, x ∈ opRunning ++ opWaiting ↔ x ∈ q.opRunning ++ q.opWaiting ∧ x.seq ≠ t.seq)
    (runs : ∀ x ∈ q.opRunning, x.seq ≠ t.seq → x ∈ opRunning) :
    Drops q (admitWaitingLocked limit
      { q with opRunning := opRunning, opWaiting := opWaiting, groupEnded := ended }) t := by
  have shorter := (fewerRunning.append fewerWaiting).map fun t => t.seq
  have inner : Listed { q with opRunning := opRunning, opWaiting := opWaiting, groupEnded := ended } := by
    constructor
    · exact listed.distinct.sublist shorter
    · intro x member
      exact listed.issued x ((kept x).mp member).1
    · intro x member
      exact listed.closed x (fewerRunning.subset member)
    · intro x member
      exact listed.open_ x (fewerWaiting.subset member)
    · exact listed.past
  obtain ⟨lists, grows⟩ := admit_lists limit
    { q with opRunning := opRunning, opWaiting := opWaiting, groupEnded := ended }
  constructor
  · exact admit_listed limit inner
  · rfl
  · intro x
    exact lists.mem_iff.trans (kept x)
  · intro x member other
    exact grows x (runs x member other)

theorem Listed.parts {q : OpQueue} (listed : Listed q) :
    (q.opRunning.map fun t => t.seq).Nodup ∧ (q.opWaiting.map fun t => t.seq).Nodup ∧
      ∀ x ∈ q.opRunning, ∀ y ∈ q.opWaiting, x.seq ≠ y.seq := by
  have whole := listed.distinct
  rw [List.map_append] at whole
  obtain ⟨running, waiting, apart⟩ := List.nodup_append.mp whole
  exact ⟨running, waiting, fun x left y right =>
    apart _ (List.mem_map_of_mem left) _ (List.mem_map_of_mem right)⟩

theorem drops_running (limit : Int) {q : OpQueue} (listed : Listed q) {t : OpTicket}
    (running : t ∈ q.opRunning) (ended : String → Option Int) :
    Drops q (admitWaitingLocked limit
      { q with opRunning := removeTicket q.opRunning t, groupEnded := ended }) t := by
  obtain ⟨distinct, -, apart⟩ := listed.parts
  apply drops_admit limit listed t _ _ ended (removeTicket_sublist _ t) (List.Sublist.refl _)
  · intro x
    rw [List.mem_append, List.mem_append, mem_removeTicket distinct]
    constructor
    · rintro (⟨member, other⟩ | waits)
      · exact ⟨Or.inl member, other⟩
      · exact ⟨Or.inr waits, (apart t running x waits).symm⟩
    · rintro ⟨member | waits, other⟩
      · exact Or.inl ⟨member, other⟩
      · exact Or.inr waits
  · intro x member other
    exact (mem_removeTicket distinct t x).mpr ⟨member, other⟩

theorem drops_waiting (limit : Int) {q : OpQueue} (listed : Listed q) {t : OpTicket}
    (waiting : t ∈ q.opWaiting) :
    Drops q (admitWaitingLocked limit { q with opWaiting := removeTicket q.opWaiting t }) t := by
  obtain ⟨-, distinct, apart⟩ := listed.parts
  apply drops_admit limit listed t _ _ q.groupEnded (List.Sublist.refl _) (removeTicket_sublist _ t)
  · intro x
    rw [List.mem_append, List.mem_append, mem_removeTicket distinct]
    constructor
    · rintro (runs | ⟨member, other⟩)
      · exact ⟨Or.inl runs, apart x runs t waiting⟩
      · exact ⟨Or.inr member, other⟩
    · rintro ⟨runs | member, other⟩
      · exact Or.inl runs
      · exact Or.inr ⟨member, other⟩
  · intro x member _
    exact member

theorem cancel_drops (limit : Int) {q : OpQueue} (listed : Listed q) {t : OpTicket}
    (present : t ∈ q.opRunning ++ q.opWaiting) : Drops q (cancelOperation limit q t) t := by
  unfold cancelOperation ticketAdmitted
  split
  · next closed =>
      rcases List.mem_append.mp present with running | waiting
      · exact drops_running limit listed running q.groupEnded
      · exact absurd (of_decide_eq_true closed) (listed.open_ t waiting)
  · next open_ =>
      rcases List.mem_append.mp present with running | waiting
      · exact absurd (decide_eq_true (listed.closed t running)) open_
      · exact drops_waiting limit listed waiting

/-- A new ticket is in one of the lists, and all others stay. -/
structure Joins (q q' : OpQueue) (t : OpTicket) : Prop where
  listed : Listed q'
  issued : q'.opSeq = q.opSeq + 1
  kept : ∀ x, x ∈ q'.opRunning ++ q'.opWaiting ↔ x ∈ q.opRunning ++ q.opWaiting ∨ x = t
  runs : ∀ x ∈ q.opRunning, x ∈ q'.opRunning

theorem request_joins {q : OpQueue} (listed : Listed q) (req : OpRequest) (n : Int) :
    Joins q (queueAfter q req n) (ticketOf q req) := by
  have later : ∀ x ∈ q.opRunning ++ q.opWaiting, x.seq ≠ q.opSeq + 1 := by
    intro x member same
    have issued := listed.issued x member
    omega
  have inner : Listed { q with
      opSeq := q.opSeq + 1, opWaiting := q.opWaiting ++ [ticketOf q req] } := by
    constructor
    · dsimp only
      rw [← List.append_assoc, List.map_append]
      apply List.nodup_append.mpr
      refine ⟨listed.distinct, List.pairwise_singleton _ _, ?_⟩
      intro a left b right same
      obtain ⟨x, member, rfl⟩ := List.mem_map.mp left
      rw [List.mem_singleton.mp right] at same
      exact later x member same
    · intro x member
      dsimp only at member ⊢
      rw [← List.append_assoc] at member
      rcases List.mem_append.mp member with old | new
      · exact Nat.le_succ_of_le (listed.issued x old)
      · rw [List.mem_singleton.mp new]
        exact Nat.le_refl _
    · exact listed.closed
    · intro x member closed
      rcases List.mem_append.mp member with old | new
      · exact listed.open_ x old closed
      · rw [List.mem_singleton.mp new] at closed
        have past := listed.past _ closed
        exact absurd past (Nat.not_succ_le_self q.opSeq)
    · intro m known
      exact Nat.le_succ_of_le (listed.past m known)
  obtain ⟨lists, grows⟩ := admit_lists (clampRunLimit n)
    { q with opSeq := q.opSeq + 1, opWaiting := q.opWaiting ++ [ticketOf q req] }
  constructor
  · exact admit_listed (clampRunLimit n) inner
  · rfl
  · intro x
    apply lists.mem_iff.trans
    dsimp only
    rw [← List.append_assoc, List.mem_append, List.mem_singleton]
  · exact grows

/-! The callers. -/

/-- The caller still has to do with the ticket. -/
def Live (th : Caller) (t : OpTicket) : Prop := th = .queued t ∨ th = .entering t ∨ th = .holds t

structure Admits (s : State) : Prop where
  listed : Listed s.queue
  apart : ∀ c c' t t', Live (s.caller c) t → Live (s.caller c') t' → t.seq = t'.seq → c = c'
  queued : ∀ c t, s.caller c = .queued t → t ∈ s.queue.opRunning ++ s.queue.opWaiting
  running : ∀ c t, s.caller c = .entering t ∨ s.caller c = .holds t → t ∈ s.queue.opRunning
  gone : ∀ c t, s.caller c = .failed t →
    t.seq ≤ s.queue.opSeq ∧ ∀ x ∈ s.queue.opRunning ++ s.queue.opWaiting, x.seq ≠ t.seq

theorem Admits.present {s : State} (admits : Admits s) {c : Nat} {t : OpTicket}
    (live : Live (s.caller c) t) : t ∈ s.queue.opRunning ++ s.queue.opWaiting := by
  rcases live with queued | entering | holds
  · exact admits.queued c t queued
  · exact List.mem_append_left _ (admits.running c t (Or.inl entering))
  · exact List.mem_append_left _ (admits.running c t (Or.inr holds))

/-- A caller whose ticket leaves the queue ends, and the others go on. -/
theorem admits_drop {s : State} (admits : Admits s) {c : Nat} {t : OpTicket} {q' : OpQueue} {th : Caller}
    (live : Live (s.caller c) t) (drops : Drops s.queue q' t) (ends : th = .failed t ∨ th = .released t) :
    Admits ⟨q', Function.update s.caller c th⟩ := by
  have over_ : ∀ x, ¬Live th x := by
    intro x wrong
    rcases ends with rfl | rfl
    · rcases wrong with wrong | wrong | wrong <;> cases wrong
    · rcases wrong with wrong | wrong | wrong <;> cases wrong
  have others : ∀ c' x, Live (Function.update s.caller c th c') x →
      Live (s.caller c') x ∧ x.seq ≠ t.seq := by
    intro c' x known
    rw [Function.update_apply] at known
    split at known
    · exact absurd known (over_ x)
    · next other => exact ⟨known, fun same => other (admits.apart c' c x t known live same)⟩
  constructor
  · exact drops.listed
  · intro a b x y left right same
    exact admits.apart a b x y (others a x left).1 (others b y right).1 same
  · intro a x known
    obtain ⟨before, other⟩ := others a x (Or.inl known)
    exact (drops.kept x).mpr ⟨admits.present before, other⟩
  · intro a x known
    obtain ⟨before, other⟩ := others a x (Or.inr known)
    have same : s.caller a = .entering x ∨ s.caller a = .holds x := by
      dsimp only at known
      rw [Function.update_apply] at known
      split at known
      · exact absurd (Or.inr known) (over_ x)
      · exact known
    exact drops.runs x (admits.running a x same) other
  · intro a x known
    dsimp only at known ⊢
    rw [drops.issued]
    rw [Function.update_apply] at known
    split at known
    · have mine : t = x := by
        rcases ends with same | same
        · rw [same] at known
          exact Caller.failed.inj known
        · rw [same] at known
          cases known
      refine ⟨mine ▸ admits.listed.issued t (admits.present live), fun y member => ?_⟩
      rw [← mine]
      exact ((drops.kept y).mp member).2
    · obtain ⟨issued, none_⟩ := admits.gone a x known
      exact ⟨issued, fun y member => none_ y ((drops.kept y).mp member).1⟩

/-- A caller that goes on with its ticket, in the same queue. -/
theorem admits_advance {s : State} (admits : Admits s) {c : Nat} {t : OpTicket} {th : Caller}
    (live : Live (s.caller c) t) (running : t ∈ s.queue.opRunning)
    (goes : th = .entering t ∨ th = .holds t) : Admits ⟨s.queue, Function.update s.caller c th⟩ := by
  have others : ∀ c' x, Live (Function.update s.caller c th c') x → Live (s.caller c') x := by
    intro c' x known
    rw [Function.update_apply] at known
    split at known
    · next same =>
        rw [same]
        rcases goes with rfl | rfl
        · rcases known with wrong | known | wrong
          · cases wrong
          · cases known
            exact live
          · cases wrong
        · rcases known with wrong | wrong | known
          · cases wrong
          · cases wrong
          · cases known
            exact live
    · exact known
  constructor
  · exact admits.listed
  · intro a b x y left right same
    exact admits.apart a b x y (others a x left) (others b y right) same
  · intro a x known
    exact admits.present (others a x (Or.inl known))
  · intro a x known
    dsimp only at known
    rw [Function.update_apply] at known
    split at known
    · have mine : t = x := by
        rcases goes with rfl | rfl
        · rcases known with known | wrong
          · exact Caller.entering.inj known
          · cases wrong
        · rcases known with wrong | known
          · cases wrong
          · exact Caller.holds.inj known
      exact mine ▸ running
    · exact admits.running a x known
  · intro a x known
    dsimp only at known
    rw [Function.update_apply] at known
    split at known
    · rcases goes with rfl | rfl
      · cases known
      · cases known
    · exact admits.gone a x known

/-- With a name among the blockers, no text means that the ticket runs. -/
theorem waitingFor_empty {s : State} {c : Nat} {req : OpRequest} {n n' : Int}
    (names : named s (.request c req n n') = true)
    (blank : waitingFor (queueAfter s.queue req n) (ticketOf s.queue req) n' = "") :
    ticketAdmitted (queueAfter s.queue req n) (ticketOf s.queue req) = true := by
  unfold waitingFor at blank
  split at blank
  · next closed => exact closed
  · next open_ =>
      obtain ⟨some_, nameless⟩ := describeBlockers_empty _ blank
      simp only [named, Bool.or_eq_true, List.isEmpty_iff, List.any_eq_true, decide_eq_true_eq] at names
      rcases names with (closed | none_) | ⟨b, member, name⟩
      · exact closed
      · exact absurd none_ some_
      · exact absurd (nameless b member) name

theorem admits_request {s : State} (admits : Admits s) {c : Nat} {req : OpRequest} {n n' : Int}
    (names : named s (.request c req n n') = true) (th : Caller)
    (is : th = if waitingFor (queueAfter s.queue req n) (ticketOf s.queue req) n' ≠ ""
      then .queued (ticketOf s.queue req) else .entering (ticketOf s.queue req)) :
    Admits ⟨queueAfter s.queue req n, Function.update s.caller c th⟩ := by
  have joins := request_joins admits.listed req n
  have here : ticketOf s.queue req ∈ (queueAfter s.queue req n).opRunning ++
      (queueAfter s.queue req n).opWaiting := (joins.kept _).mpr (Or.inr rfl)
  -- an entering caller has its ticket in the running list
  have shape : th = .queued (ticketOf s.queue req) ∨ th = .entering (ticketOf s.queue req) ∧
      ticketOf s.queue req ∈ (queueAfter s.queue req n).opRunning := by
    split at is
    · exact Or.inl is
    · next blank =>
        have closed := waitingFor_empty names (not_not.mp blank)
        refine Or.inr ⟨is, ?_⟩
        rcases List.mem_append.mp here with running | waiting
        · exact running
        · exact absurd (of_decide_eq_true closed) (joins.listed.open_ _ waiting)
  have mine : ∀ x, Live th x → x = ticketOf s.queue req := by
    intro x known
    rcases shape with rfl | ⟨rfl, -⟩
    · rcases known with known | wrong | wrong
      · exact (Caller.queued.inj known).symm
      · cases wrong
      · cases wrong
    · rcases known with wrong | known | wrong
      · cases wrong
      · exact (Caller.entering.inj known).symm
      · cases wrong
  have older : ∀ x, x ∈ s.queue.opRunning ++ s.queue.opWaiting → x.seq ≠ (ticketOf s.queue req).seq := by
    intro x member same
    have issued := admits.listed.issued x member
    have new : (ticketOf s.queue req).seq = s.queue.opSeq + 1 := rfl
    omega
  constructor
  · exact joins.listed
  · intro a b x y left right same
    dsimp only at left right
    rw [Function.update_apply] at left right
    split at left
    · split at right
      · next first second => exact first.trans second.symm
      · rw [mine x left] at same
        exact absurd same.symm (older y (admits.present right))
    · split at right
      · rw [mine y right] at same
        exact absurd same (older x (admits.present left))
      · exact admits.apart a b x y left right same
  · intro a x known
    dsimp only at known
    rw [Function.update_apply] at known
    split at known
    · rw [mine x (Or.inl known)]
      exact here
    · exact (joins.kept x).mpr (Or.inl (admits.queued a x known))
  · intro a x known
    dsimp only at known
    rw [Function.update_apply] at known
    split at known
    · rcases shape with rfl | ⟨rfl, running⟩
      · rcases known with wrong | wrong
        · cases wrong
        · cases wrong
      · rw [mine x (Or.inr known)]
        exact running
    · exact joins.runs x (admits.running a x known)
  · intro a x known
    dsimp only at known ⊢
    rw [Function.update_apply] at known
    split at known
    · rcases shape with rfl | ⟨rfl, -⟩
      · cases known
      · cases known
    · obtain ⟨issued, none_⟩ := admits.gone a x known
      rw [joins.issued]
      refine ⟨Nat.le_succ_of_le issued, fun y member => ?_⟩
      rcases (joins.kept y).mp member with old | new
      · exact none_ y old
      · have number : y.seq = s.queue.opSeq + 1 := congrArg OpTicket.seq new
        omega

theorem admits_step {s next : State} {action : Action} (admits : Admits s)
    (names : named s action = true) (taken : step s action = some next) : Admits next := by
  cases action with
  | request c req n n' =>
      simp only [step] at taken
      split at taken
      · cases taken
        exact admits_request admits names _ rfl
      · cases taken
  | admitted c =>
      simp only [step] at taken
      split at taken
      · next t at_ =>
          split at taken
          · next closed =>
              cases taken
              have live : Live (s.caller c) t := Or.inl at_
              rcases List.mem_append.mp (admits.present live) with running | waiting
              · exact admits_advance admits live running (Or.inl rfl)
              · exact absurd (of_decide_eq_true closed) (admits.listed.open_ t waiting)
          · cases taken
      · cases taken
  | ended c n =>
      simp only [step] at taken
      split at taken
      · next t at_ =>
          cases taken
          have live : Live (s.caller c) t := Or.inl at_
          exact admits_drop admits live (cancel_drops _ admits.listed (admits.present live)) (Or.inl rfl)
      · cases taken
  | newSecond c =>
      simp only [step] at taken
      split at taken
      · next t at_ =>
          cases taken
          exact admits_advance admits (Or.inr (Or.inl at_)) (admits.running c t (Or.inl at_)) (Or.inr rfl)
      · cases taken
  | stopped c now n =>
      simp only [step] at taken
      split at taken
      · next t at_ =>
          split at taken
          · cases taken
            exact admits_drop admits (Or.inr (Or.inl at_))
              (drops_running _ admits.listed (admits.running c t (Or.inl at_)) _) (Or.inl rfl)
          · cases taken
      · cases taken
  | release c now n =>
      simp only [step] at taken
      split at taken
      · next t at_ =>
          cases taken
          exact admits_drop admits (Or.inr (Or.inr at_))
            (drops_running _ admits.listed (admits.running c t (Or.inr at_)) _) (Or.inr rfl)
      · cases taken

theorem admits_fresh : Admits fresh := by
  constructor
  · constructor
    · exact List.nodup_nil
    · intro t member
      cases member
    · intro t member
      cases member
    · intro t member
      cases member
    · intro n member
      cases member
  · rintro c c' t t' (wrong | wrong | wrong)
    · cases wrong
    · cases wrong
    · cases wrong
  · intro c t wrong
    cases wrong
  · rintro c t (wrong | wrong)
    · cases wrong
    · cases wrong
  · intro c t wrong
    cases wrong

/-- In every state of a run in which each request that waits, waits for an operation with
a name. -/
theorem handle_is_admission {s : State} (reached : Reachable namedCallers s) : HandleIsAdmission s := by
  have invariant : Invariant namedCallers Admits := by
    constructor
    · intro s start
      rw [show s = fresh from start]
      exact admits_fresh
    · rintro s action next admits ⟨taken, names⟩
      exact admits_step admits names taken
  have admits := invariant.reachable reached
  constructor
  · intro c t holds
    exact admits.running c t (Or.inr holds)
  · intro c t failed
    obtain ⟨-, none_⟩ := admits.gone c t failed
    constructor
    · intro waiting
      exact none_ t (List.mem_append_right _ waiting) rfl
    · intro running
      exact none_ t (List.mem_append_left _ running) rfl

/-- The second machine backup waits for the first, and a third is stopped in the queue. -/
def waitsForNamed : List Action :=
  [.request 0 ⟨"disk", .opMachine, ""⟩ 3 3, .newSecond 0, .request 1 ⟨"vm", .opMachine, ""⟩ 3 3,
    .request 2 ⟨"nas", .opMachine, ""⟩ 3 3, .ended 2 3, .release 0 7 3, .admitted 1, .newSecond 1]

theorem waitsForNamed_admitted : ∃ s, Reachable namedCallers s ∧
    s.caller 1 = .holds ⟨⟨"vm", .opMachine, ""⟩, 2⟩ ∧ HandleIsAdmission s := by
  have executed : (waitsForNamed.foldlM (checked step fun s action => named s action = true) fresh).map
      (fun s => s.caller 1) = some (.holds ⟨⟨"vm", .opMachine, ""⟩, 2⟩) := by
    decide +kernel
  obtain ⟨s, ran, caller⟩ := Option.map_eq_some_iff.mp executed
  have reached : Reachable namedCallers s := reachable_of_checked (fun _ _ _ taken => taken) rfl ran
  exact ⟨s, reached, caller, handle_is_admission reached⟩

/-! An operation without a name. -/

/-- The second machine backup has a handle beside the first; and a backup of the same
group gives up in waitNewSecond and stays in the queue. -/
theorem nameless_not_admission :
    (∃ s c t, Reachable callers s ∧ s.caller c = .holds t ∧ t ∉ s.queue.opRunning) ∧
    ∃ s c t, Reachable callers s ∧ s.caller c = .failed t ∧ t ∈ s.queue.opWaiting := by
  constructor
  · have executed : (([.request 0 ⟨"", .opMachine, ""⟩ 3 3, .newSecond 0,
          .request 1 ⟨"", .opMachine, ""⟩ 3 3, .newSecond 1] : List Action).foldlM step fresh).map
        (fun s => (s.caller 1, s.queue.opRunning)) =
        some (.holds ⟨⟨"", .opMachine, ""⟩, 2⟩, [⟨⟨"", .opMachine, ""⟩, 1⟩]) := by
      decide +kernel
    obtain ⟨s, ran, known⟩ := Option.map_eq_some_iff.mp executed
    have caller : s.caller 1 = _ := congrArg Prod.fst known
    have running : s.queue.opRunning = _ := congrArg Prod.snd known
    refine ⟨s, 1, _, ⟨fresh, _, rfl, run_of_foldlM step (fun _ _ _ taken => taken) ran⟩, caller, ?_⟩
    rw [running]
    decide
  · have executed : (([.request 0 ⟨"", .opBackup, "g"⟩ 3 3, .newSecond 0, .release 0 7 3,
          .request 1 ⟨"", .opBackup, "g"⟩ 3 3, .newSecond 1,
          .request 2 ⟨"", .opBackup, "g"⟩ 3 3, .stopped 2 7 3] : List Action).foldlM step fresh).map
        (fun s => (s.caller 2, s.queue.opWaiting)) =
        some (.failed ⟨⟨"", .opBackup, "g"⟩, 3⟩, [⟨⟨"", .opBackup, "g"⟩, 3⟩]) := by
      decide +kernel
    obtain ⟨s, ran, known⟩ := Option.map_eq_some_iff.mp executed
    have caller : s.caller 2 = _ := congrArg Prod.fst known
    have waiting : s.queue.opWaiting = _ := congrArg Prod.snd known
    refine ⟨s, 2, _, ⟨fresh, _, rfl, run_of_foldlM step (fun _ _ _ taken => taken) ran⟩, caller, ?_⟩
    rw [waiting]
    exact List.mem_singleton_self _

end ProxmoxBackup.OperationHandles
