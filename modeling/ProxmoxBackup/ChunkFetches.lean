import ProxmoxBackup.ChunkReader

/-! fetchOnce does no coalescing of its own: who runs it at a time, and for which
chunks. A waiter that is woken and does not find its chunk runs it beside all others. -/

namespace ProxmoxBackup.ChunkFetches

open ChunkIndex GoValues TransitionSystem
open ProxmoxBackup.ChunkReader

/-- What a thread is to the others. -/
inductive Role where
  | out
  | checking
  | owner (ci ch : Nat)
  | stray

def role : Thread → Role
  | .busy _ _ .check => .checking
  | .busy _ ci (.starting (some ch)) => .owner ci ch
  | .busy _ ci (.fetching (some ch)) => .owner ci ch
  | .busy _ ci (.storing (some ch) _) => .owner ci ch
  | .busy _ ci (.leaving ch _) => .owner ci ch
  | .busy _ _ (.starting none) => .stray
  | .busy _ _ (.fetching none) => .stray
  | .busy _ _ (.storing none _) => .stray
  | _ => .out

/-- In fetchOnce for a chunk. -/
def Fetches : Thread → Nat → Prop
  | .busy _ ci (.fetching _), k => k = ci
  | .busy _ ci (.storing _ _), k => k = ci
  | _, _ => False

/-- About to begin it. -/
def Begins : Thread → Nat → Prop
  | .busy _ ci (.starting _), k => k = ci
  | _, _ => False

/-- One fetch of a chunk at a time, and none of a chunk that is in the cache. -/
structure NeverDoubled (s : State) : Prop where
  single : ∀ t u ci, Fetches (s.thread t) ci → Fetches (s.thread u) ci → t = u
  missing : ∀ t ci, Begins (s.thread t) ci → ∀ e ∈ s.cache, e.1 ≠ ci

/-- A waiter that goes on finds its chunk in the cache. -/
def finds (s : State) (action : Action) : Bool :=
  match action with
  | .turn t =>
      match s.thread t with
      | .busy _ ci .woken => (s.cache.get ci).isSome
      | _ => true
  | _ => true

def findingReader (g : Setting) : System State Action :=
  (reader g).restrict fun s action => finds s action = true

theorem proceed_out (g : Setting) (off len : Nat) (p : Bytes) : role (proceed g off len p) = .out := by
  unfold proceed
  split <;> rfl

theorem resume_out (g : Setting) (task : Task) (ci : Nat) (result : Except ReadError Bytes) :
    role (resume g task ci result) = .out := by
  unfold resume
  split
  · rfl
  · split
    · rfl
    · split
      · rfl
      · exact proceed_out g _ _ _

theorem enter_out (g : Setting) (off : Int) (len : Nat) (cancelled : Bool) :
    role (enter g off len cancelled) = .out := by
  unfold enter
  split
  · rfl
  · split
    · rfl
    · split
      · rfl
      · exact proceed_out g _ _ _

/-- The order behind it: who fetches has its channel in inflight, and inflightMu is held
between the second look into the cache and the look at inflight. -/
structure Exclusive (s : State) : Prop where
  registered : ∀ t ci ch, role (s.thread t) = .owner ci ch → s.inflight ci = some ch
  single : ∀ t u ci ch ch', role (s.thread t) = .owner ci ch → role (s.thread u) = .owner ci ch' → t = u
  none_ : ∀ t, role (s.thread t) ≠ .stray
  holds : ∀ t, role (s.thread t) = .checking → s.holder = some t
  checked : ∀ t task ci, s.thread t = .busy task ci .check → s.inflight ci = none →
    ∀ e ∈ s.cache, e.1 ≠ ci
  begun : ∀ t ci, Begins (s.thread t) ci → ∀ e ∈ s.cache, e.1 ≠ ci

theorem exclusive_never_doubled {s : State} (exclusive : Exclusive s) : NeverDoubled s := by
  have owner : ∀ t ci, Fetches (s.thread t) ci → ∃ ch, role (s.thread t) = .owner ci ch := by
    intro t ci fetches
    have known := exclusive.none_ t
    revert fetches known
    cases s.thread t with
    | busy task k pc =>
        cases pc with
        | fetching own =>
            cases own with
            | none => exact fun _ wrong => absurd rfl wrong
            | some ch => exact fun same _ => ⟨ch, by rw [show ci = k from same]; rfl⟩
        | storing own chunk =>
            cases own with
            | none => exact fun _ wrong => absurd rfl wrong
            | some ch => exact fun same _ => ⟨ch, by rw [show ci = k from same]; rfl⟩
        | _ => exact fun wrong => wrong.elim
    | _ => exact fun wrong => wrong.elim
  refine ⟨fun t u ci first second => ?_, exclusive.begun⟩
  obtain ⟨ch, left⟩ := owner t ci first
  obtain ⟨ch', right⟩ := owner u ci second
  exact exclusive.single t u ci ch ch' left right

theorem begins_role {th : Thread} {ci : Nat} (begins : Begins th ci) :
    (∃ ch, role th = .owner ci ch) ∨ role th = .stray := by
  revert begins
  cases th with
  | busy task k pc =>
      cases pc with
      | starting own =>
          cases own with
          | none => exact fun _ => Or.inr rfl
          | some ch => exact fun same => Or.inl ⟨ch, by rw [show ci = k from same]; rfl⟩
      | _ => exact fun wrong => wrong.elim
  | _ => exact fun wrong => wrong.elim

/-- What a step of one thread has to leave in order, for itself and for the others. -/
structure Moves (s : State) (t : Nat) (th : Thread) (next : State) : Prop where
  thread : next.thread = Function.update s.thread t th
  owns : ∀ ci ch, role th = .owner ci ch → next.inflight ci = some ch ∧
    ∀ u, u ≠ t → ∀ ch', role (s.thread u) ≠ .owner ci ch'
  kept : ∀ u, u ≠ t → ∀ ci ch, role (s.thread u) = .owner ci ch → next.inflight ci = some ch
  coalesces : role th ≠ .stray
  locks : role th = .checking → next.holder = some t
  waits : ∀ u, u ≠ t → role (s.thread u) = .checking → next.holder = some u ∧ next.inflight = s.inflight
  looks : ∀ task ci, th = .busy task ci .check → next.inflight ci = none → ∀ e ∈ next.cache, e.1 ≠ ci
  begins : ∀ ci, Begins th ci → ∀ e ∈ next.cache, e.1 ≠ ci
  cache : ∀ e ∈ next.cache, e ∈ s.cache ∨ ∃ ch, role (s.thread t) = .owner e.1 ch

theorem Moves.exclusive {s next : State} {t : Nat} {th : Thread} (moves : Moves s t th next)
    (exclusive : Exclusive s) : Exclusive next := by
  have here : next.thread t = th := by rw [moves.thread, Function.update_self]
  have there : ∀ u, u ≠ t → next.thread u = s.thread u := by
    intro u other
    rw [moves.thread, Function.update_of_ne other]
  constructor
  · intro u ci ch known
    by_cases same : u = t
    · rw [same, here] at known
      exact (moves.owns ci ch known).1
    · rw [there u same] at known
      exact moves.kept u same ci ch known
  · intro u v ci ch ch' first second
    by_cases left : u = t
    · by_cases right : v = t
      · exact left.trans right.symm
      · rw [left, here] at first
        rw [there v right] at second
        exact absurd second ((moves.owns ci ch first).2 v right ch')
    · rw [there u left] at first
      by_cases right : v = t
      · rw [right, here] at second
        exact absurd first ((moves.owns ci ch' second).2 u left ch)
      · rw [there v right] at second
        exact exclusive.single u v ci ch ch' first second
  · intro u known
    by_cases same : u = t
    · rw [same, here] at known
      exact moves.coalesces known
    · rw [there u same] at known
      exact exclusive.none_ u known
  · intro u known
    by_cases same : u = t
    · rw [same, here] at known
      exact same ▸ moves.locks known
    · rw [there u same] at known
      exact (moves.waits u same known).1
  · intro u task ci known free e listed
    by_cases same : u = t
    · rw [same, here] at known
      exact moves.looks task ci known free e listed
    · rw [there u same] at known
      have checking : role (s.thread u) = .checking := by
        rw [known]
        rfl
      rw [(moves.waits u same checking).2] at free
      rcases moves.cache e listed with before | ⟨ch, owned⟩
      · exact exclusive.checked u task ci known free e before
      · -- the chunk that came has its channel in inflight, and this one has none
        intro named
        rw [named] at owned
        have running := exclusive.registered t ci ch owned
        rw [free] at running
        cases running
  · intro u ci known e listed
    by_cases same : u = t
    · rw [same, here] at known
      exact moves.begins ci known e listed
    · rw [there u same] at known
      rcases moves.cache e listed with before | ⟨ch, owned⟩
      · exact exclusive.begun u ci known e before
      · intro named
        rw [named] at owned
        rcases begins_role known with ⟨ch', other⟩ | stray
        · exact same (exclusive.single u t ci ch' ch other owned)
        · exact exclusive.none_ u stray

/-- A step to a place outside the lock and fetchOnce. -/
theorem moves_out {s next : State} {t : Nat} {th : Thread}
    (thread : next.thread = Function.update s.thread t th) (out : role th = .out)
    (kept : ∀ u, u ≠ t → ∀ ci ch, role (s.thread u) = .owner ci ch → next.inflight ci = some ch)
    (waits : ∀ u, u ≠ t → role (s.thread u) = .checking →
      next.holder = some u ∧ next.inflight = s.inflight)
    (cache : ∀ e ∈ next.cache, e ∈ s.cache) : Moves s t th next := by
  refine ⟨thread, ?_, kept, ?_, ?_, waits, ?_, ?_, fun e listed => Or.inl (cache e listed)⟩
  · intro ci ch owned
    rw [out] at owned
    cases owned
  · rw [out]
    exact Role.noConfusion
  · intro checking
    rw [out] at checking
    cases checking
  · intro task ci same
    rw [same] at out
    cases out
  · intro ci known
    rcases begins_role known with ⟨ch, owned⟩ | stray
    · rw [out] at owned
      cases owned
    · rw [out] at stray
      cases stray

/-- A step of the owner that goes on, behind its start. -/
theorem moves_owner {s next : State} (exclusive : Exclusive s) {t ci ch : Nat} {th : Thread}
    (thread : next.thread = Function.update s.thread t th) (owner : role th = .owner ci ch)
    (begun : ∀ ci, ¬Begins th ci) (mine : role (s.thread t) = .owner ci ch)
    (inflight : next.inflight = s.inflight) (holder : next.holder = s.holder)
    (cache : ∀ e ∈ next.cache, e ∈ s.cache ∨ ∃ ch, role (s.thread t) = .owner e.1 ch) :
    Moves s t th next := by
  refine ⟨thread, ?_, ?_, ?_, ?_, ?_, ?_, fun k known => absurd known (begun k), cache⟩
  · intro ci' ch' owned
    rw [owner] at owned
    cases owned
    rw [inflight]
    exact ⟨exclusive.registered t ci ch mine,
      fun u other ch' owned => other (exclusive.single u t ci ch' ch owned mine)⟩
  · intro u _ ci' ch' owned
    rw [inflight]
    exact exclusive.registered u ci' ch' owned
  · rw [owner]
    exact Role.noConfusion
  · intro checking
    rw [owner] at checking
    cases checking
  · intro u _ checking
    rw [holder]
    exact ⟨exclusive.holds u checking, inflight⟩
  · intro task ci' same
    rw [same] at owner
    cases owner

/-- A step of one thread that keeps its role or gives it up, and neither locks nor
registers nor stores. -/
theorem exclusive_plain {s next : State} (exclusive : Exclusive s) (t : Nat) (th : Thread)
    (thread : next.thread = Function.update s.thread t th) (inflight : next.inflight = s.inflight)
    (holder : next.holder = s.holder) (cache : ∀ e ∈ next.cache, e ∈ s.cache)
    (quiet : role th = .out ∨
      (∃ ci ch, role th = .owner ci ch ∧ role (s.thread t) = .owner ci ch) ∧ ∀ ci, ¬Begins th ci) :
    Exclusive next := by
  rcases quiet with out | ⟨⟨ci, ch, owner, mine⟩, begun⟩
  · apply (moves_out thread out _ _ cache).exclusive exclusive
    · intro u _ ci ch owned
      rw [inflight]
      exact exclusive.registered u ci ch owned
    · intro u _ checking
      rw [holder]
      exact ⟨exclusive.holds u checking, inflight⟩
  · apply (moves_owner exclusive thread owner begun mine inflight holder _).exclusive exclusive
    exact fun e listed => Or.inl (cache e listed)

/-- Nobody is at the look at inflight while the lock is free. -/
theorem none_checking {s : State} (exclusive : Exclusive s) (free : s.holder = none) (t : Nat) :
    role (s.thread t) ≠ .checking := by
  intro checking
  have held := exclusive.holds t checking
  rw [free] at held
  cases held

/-- Nor is anybody but its holder. -/
theorem others_checking {s : State} (exclusive : Exclusive s) {t : Nat} {task : Task} {ci : Nat}
    (at_ : s.thread t = .busy task ci .check) (u : Nat) (other : u ≠ t) :
    role (s.thread u) ≠ .checking := by
  intro checking
  have held := exclusive.holds t (by rw [at_]; rfl)
  have mine := exclusive.holds u checking
  rw [held] at mine
  exact other (Option.some.inj mine).symm

theorem exclusive_locked {s : State} (exclusive : Exclusive s) (t : Nat) (task : Task) (ci : Nat)
    (free : s.holder = none)
    (missing : s.cache.get ci = none) :
    Exclusive ({ s with holder := some t }.move t (.busy task ci .check)) := by
  refine Moves.exclusive (?_ : Moves s t (.busy task ci .check) _) exclusive
  constructor
  · rfl
  · intro ci' ch wrong
    cases wrong
  · intro u _
    exact exclusive.registered u
  · exact Role.noConfusion
  · intro _
    rfl
  · intro u _ checking
    exact absurd checking (none_checking exclusive free u)
  · intro task' ci' same _
    cases same
    exact Cache.get_none missing
  · intro ci' wrong
    exact wrong.elim
  · exact fun e listed => Or.inl listed

/-- The holder gives the lock back and waits. -/
theorem exclusive_joined {s : State} (exclusive : Exclusive s) (t : Nat) (task : Task) (ci ch : Nat)
    (at_ : s.thread t = .busy task ci .check) :
    Exclusive ({ s with holder := none }.move t (.busy task ci (.waiting ch))) := by
  refine Moves.exclusive (moves_out (s := s) (t := t) rfl rfl ?_ ?_ fun e listed => listed) exclusive
  · intro u _
    exact exclusive.registered u
  · intro u other checking
    exact absurd checking (others_checking exclusive at_ u other)

/-- The holder opens a channel: no one else owns the chunk, and it is not in the cache. -/
theorem exclusive_opened {s : State} (exclusive : Exclusive s) (t : Nat) (task : Task) (ci : Nat)
    (at_ : s.thread t = .busy task ci .check) (free : s.inflight ci = none) :
    Exclusive ({ s with
      holder := none
      inflight := Function.update s.inflight ci (some s.channels)
      channels := s.channels + 1 }.move t (.busy task ci (.starting (some s.channels)))) := by
  have unowned : ∀ u ch, role (s.thread u) ≠ .owner ci ch := by
    intro u ch owned
    have running := exclusive.registered u ci ch owned
    rw [free] at running
    cases running
  refine Moves.exclusive (?_ : Moves s t (.busy task ci (.starting (some s.channels))) _) exclusive
  constructor
  · rfl
  · intro ci' ch' owned
    cases owned
    exact ⟨Function.update_self _ _ _, fun u _ ch => unowned u ch⟩
  · intro u _ ci' ch owned
    have other : ci' ≠ ci := by
      intro same
      rw [same] at owned
      exact unowned u ch owned
    exact (Function.update_of_ne other _ _).trans (exclusive.registered u ci' ch owned)
  · exact Role.noConfusion
  · intro wrong
    cases wrong
  · intro u other checking
    exact absurd checking (others_checking exclusive at_ u other)
  · intro task' ci' wrong
    cases wrong
  · intro ci' same
    rw [show ci' = ci from same]
    exact exclusive.checked t task ci at_ free
  · exact fun e listed => Or.inl listed

/-- The owner puts its chunk into the cache; no one else is about to fetch it. -/
theorem exclusive_stored {s : State} (exclusive : Exclusive s) (cap t : Nat) (task : Task) (ci ch : Nat)
    (chunk : Bytes) (at_ : s.thread t = .busy task ci (.storing (some ch) chunk)) :
    Exclusive ({ s with cache := s.cache.put cap ci chunk }.move t
      (.busy task ci (.leaving ch (.ok chunk)))) := by
  have mine : role (s.thread t) = .owner ci ch := by
    rw [at_]
    rfl
  refine Moves.exclusive (moves_owner exclusive rfl rfl (fun _ wrong => wrong) mine rfl rfl ?_) exclusive
  intro e listed
  rcases Cache.mem_put e listed with same | before
  · rw [same]
    exact Or.inr ⟨ch, mine⟩
  · exact Or.inl before

/-- The owner takes its channel out of inflight. -/
theorem exclusive_left {s : State} (exclusive : Exclusive s) (t : Nat) (task : Task) (ci ch : Nat)
    (result : Except ReadError Bytes) (at_ : s.thread t = .busy task ci (.leaving ch result))
    (free : s.holder = none) :
    Exclusive ({ s with inflight := Function.update s.inflight ci none }.move t
      (.busy task ci (.closing ch result))) := by
  have mine : role (s.thread t) = .owner ci ch := by
    rw [at_]
    rfl
  refine Moves.exclusive (moves_out (s := s) (t := t) rfl rfl ?_ ?_ fun e listed => listed) exclusive
  · intro u elsewhere ci' ch' owned
    have other : ci' ≠ ci := by
      intro same
      rw [same] at owned
      exact elsewhere (exclusive.single u t ci ch' ch owned mine)
    exact (Function.update_of_ne other _ _).trans (exclusive.registered u ci' ch' owned)
  · intro u _ checking
    exact absurd checking (none_checking exclusive free u)

theorem exclusive_cache {s : State} (exclusive : Exclusive s) (cache : Cache)
    (kept : ∀ e ∈ cache, e ∈ s.cache) : Exclusive { s with cache } :=
  ⟨exclusive.registered, exclusive.single, exclusive.none_, exclusive.holds,
    fun t task ci at_ free e listed => exclusive.checked t task ci at_ free e (kept e listed),
    fun t ci begins e listed => exclusive.begun t ci begins e (kept e listed)⟩

/-- A thread in fetchOnce has a channel. -/
theorem owner_of_fetching {s : State} (exclusive : Exclusive s) {t : Nat} {task : Task} {ci : Nat}
    {own : Option Nat} (pc : Option Nat → Pc) (at_ : s.thread t = .busy task ci (pc own))
    (strays : role (.busy task ci (pc none)) = .stray) : ∃ ch, own = some ch := by
  cases own with
  | none =>
      have stray := exclusive.none_ t
      rw [at_] at stray
      exact absurd strays stray
  | some ch => exact ⟨ch, rfl⟩

theorem exclusive_step {g : Setting} {s next : State} {action : Action} (exclusive : Exclusive s)
    (found : finds s action = true) (does : Does g s action next) : Exclusive next := by
  cases does with
  | readAt t off len cancelled at_ =>
      exact exclusive_plain exclusive t _ rfl rfl rfl (fun _ listed => listed)
        (Or.inl (enter_out g off len cancelled))
  | prefetch t ci at_ listed =>
      exact exclusive_plain exclusive t _ rfl rfl rfl (fun _ listed => listed) (Or.inl rfl)
  | glance ci data cache known =>
      exact exclusive_cache exclusive cache (Cache.get_some known).2
  | blank ci => exact exclusive
  | cancel t off len p ci at_ =>
      exact exclusive_plain exclusive t _ rfl rfl rfl (fun _ listed => listed) (Or.inl rfl)
  | hit t task ci pc data cache at_ where_ known =>
      exact exclusive_plain exclusive t _ rfl rfl rfl (Cache.get_some known).2
        (Or.inl (resume_out g task ci _))
  | miss t task ci at_ =>
      exact exclusive_plain exclusive t _ rfl rfl rfl (fun _ listed => listed) (Or.inl rfl)
  | locked t task ci at_ free missing => exact exclusive_locked exclusive t task ci free missing
  | joined t task ci ch at_ running => exact exclusive_joined exclusive t task ci ch at_
  | opened t task ci at_ none_ => exact exclusive_opened exclusive t task ci at_ none_
  | waited t task ci ch at_ =>
      exact exclusive_plain exclusive t _ rfl rfl rfl (fun _ listed => listed) (Or.inl rfl)
  | alone t task ci at_ missing =>
      -- the step that is left out
      simp only [finds, at_, missing] at found
      cases found
  | started t task ci own at_ =>
      obtain ⟨ch, rfl⟩ := owner_of_fetching exclusive Pc.starting at_ rfl
      refine exclusive_plain exclusive t _ rfl rfl rfl (fun _ listed => listed) (Or.inr ⟨⟨ci, ch, rfl, ?_⟩, fun _ wrong => wrong⟩)
      rw [at_]
      rfl
  | stored t task ci own chunk at_ =>
      obtain ⟨ch, rfl⟩ := owner_of_fetching exclusive (fun own => Pc.storing own chunk) at_ rfl
      exact exclusive_stored exclusive g.cap t task ci ch chunk at_
  | left t task ci ch result at_ free => exact exclusive_left exclusive t task ci ch result at_ free
  | closed t task ci ch result at_ =>
      exact exclusive_plain exclusive t _ rfl rfl rfl (fun _ listed => listed)
        (Or.inl (resume_out g task ci result))
  | replied t got task ci own at_ =>
      obtain ⟨ch, rfl⟩ := owner_of_fetching exclusive Pc.fetching at_ rfl
      refine exclusive_plain exclusive t _ rfl rfl rfl (fun _ listed => listed) ?_
      have mine : role (s.thread t) = .owner ci ch := by
        rw [at_]
        rfl
      unfold reply
      split
      · exact Or.inr ⟨⟨ci, ch, rfl, mine⟩, fun _ wrong => wrong⟩
      · exact Or.inr ⟨⟨ci, ch, rfl, mine⟩, fun _ wrong => wrong⟩
      · exact Or.inl rfl

theorem exclusive_fresh : Exclusive fresh :=
  ⟨fun _ _ _ wrong => (by cases wrong), fun _ _ _ _ _ wrong => (by cases wrong),
    fun _ wrong => (by cases wrong), fun _ wrong => (by cases wrong),
    fun _ _ _ wrong => (by cases wrong), fun _ _ wrong => wrong.elim⟩

/-- In every state of a run in which the waiters that go on find their chunks, no chunk
is fetched twice at a time, and none that is in the cache. -/
theorem fetches_never_doubled {g : Setting} {s : State} (reached : Reachable (findingReader g) s) :
    NeverDoubled s := by
  have invariant : Invariant (findingReader g) Exclusive := by
    constructor
    · intro s start
      rw [show s = fresh from start]
      exact exclusive_fresh
    · rintro s action next exclusive ⟨taken, found⟩
      exact exclusive_step exclusive found (step_does taken)
  exact exclusive_never_doubled (invariant.reachable reached)

/-- One chunk of one byte. -/
def oneChunk : Setting where
  idx := ⟨[1], ["ab".toList], 1⟩
  cap := 4
  ChunkMatchesDigest := fun _ _ => true

/-- Reader 1 waits for the chunk that reader 0 fetches, and finds it. -/
def coalesced : List Action :=
  [.readAt 0 0 1 false, .turn 0, .turn 0, .turn 0, .turn 0,
    .readAt 1 0 1 false, .turn 1, .turn 1, .turn 1,
    .reply 0 (some [7]), .turn 0, .turn 0, .turn 0, .turn 1, .turn 1]

theorem coalesced_once : ∃ s, Reachable (findingReader oneChunk) s ∧
    s.thread 1 = .returned 0 1 [7] none ∧ NeverDoubled s := by
  have executed : (coalesced.foldlM (checked (step oneChunk) fun s action => finds s action = true) fresh).map
      (fun s => s.thread 1) = some (.returned 0 1 [7] none) := by
    decide +kernel
  obtain ⟨s, ran, thread⟩ := Option.map_eq_some_iff.mp executed
  have reached : Reachable (findingReader oneChunk) s :=
    reachable_of_checked (fun _ _ _ taken => taken) rfl ran
  exact ⟨s, reached, thread, fetches_never_doubled reached⟩

/-! A fetch that fails under two waiters. -/

/-- Reader 0 fetches the chunk while 1 and 2 wait for it, and the fetch fails. -/
def failingFetch : List Action :=
  [.readAt 0 0 1 false, .turn 0, .turn 0, .turn 0, .turn 0,
    .readAt 1 0 1 false, .turn 1, .turn 1, .turn 1,
    .readAt 2 0 1 false, .turn 2, .turn 2, .turn 2,
    .reply 0 none, .turn 0, .turn 0,
    .turn 1, .turn 1, .turn 2, .turn 2]

/-- Then both waiters fetch it at a time; or one has put it into the cache when the
other begins. -/
theorem waiters_fetch_doubled : (∃ s, Reachable (reader oneChunk) s ∧ ¬NeverDoubled s) ∧
    ∃ s, Reachable (reader oneChunk) s ∧ ∃ t ci data, Begins (s.thread t) ci ∧ (ci, data) ∈ s.cache := by
  have both : ((failingFetch ++ [Action.turn 1, Action.turn 2]).foldlM (step oneChunk) fresh).map
      (fun s => (s.thread 1, s.thread 2)) =
      some (.busy (.read 0 1 []) 0 (.fetching none), .busy (.read 0 1 []) 0 (.fetching none)) := by
    decide +kernel
  have late : ((failingFetch ++ [Action.turn 1, Action.reply 1 (some [7]), Action.turn 1]).foldlM (step oneChunk) fresh).map
      (fun s => (s.thread 2, s.cache)) = some (.busy (.read 0 1 []) 0 (.starting none), [(0, [7])]) := by
    decide +kernel
  constructor
  · obtain ⟨s, ran, threads⟩ := Option.map_eq_some_iff.mp both
    have first : s.thread 1 = _ := congrArg Prod.fst threads
    have second : s.thread 2 = _ := congrArg Prod.snd threads
    refine ⟨s, ⟨fresh, _, rfl, run_of_foldlM (step oneChunk) (fun _ _ _ taken => taken) ran⟩, fun never => ?_⟩
    have same := never.single 1 2 0 (by rw [first]; rfl) (by rw [second]; rfl)
    cases same
  · obtain ⟨s, ran, known⟩ := Option.map_eq_some_iff.mp late
    have thread : s.thread 2 = _ := congrArg Prod.fst known
    have cache : s.cache = [(0, [7])] := congrArg Prod.snd known
    refine ⟨s, ⟨fresh, _, rfl, run_of_foldlM (step oneChunk) (fun _ _ _ taken => taken) ran⟩, 2, 0, [7], ?_, ?_⟩
    · rw [thread]
      rfl
    · rw [cache]
      exact List.mem_singleton_self _

end ProxmoxBackup.ChunkFetches
