import ProxmoxBackup.ListPlaces
import ProxmoxBackup.TransitionSystem

/-! How the app lets go of the service's token (gui/token_drop.go): the window goes to
the tray and a grace period starts; its timer's callback looks at the tray under one
lock, lets it go and drops the token under another. Windows may be shown by a second
launch, of which the app is not told. -/

namespace ProxmoxBackup.TokenDrop

open TransitionSystem

/-- trayHideState; the timer is named by its number. -/
structure TrayHideState where
  hidden : Bool
  gen : Nat
  timer : Option Nat
  deriving DecidableEq

/-- A timer that has not gone off, and the grace period its callback is for. -/
structure Timer where
  number : Nat
  due : Nat
  gen : Nat
  deriving DecidableEq

/-- Where a callback of tokenGraceOver is. -/
inductive Stage where
  | fired
  | current
  | seen
  | dropping
  | holding
  | dropped
  | busy
  deriving DecidableEq

structure Callback where
  gen : Nat
  stage : Stage
  deriving DecidableEq

/-- What was the case when a token was dropped. -/
structure Drop where
  time : Nat
  visible : Bool
  hiddenSince : Option Nat
  deriving DecidableEq

/-- `delegated` is whether the app is in service mode and not on its own settings.
`hiddenSince` is since when the window is hidden, `periodStart` when the tray's grace
period began, `done` the grace periods whose callback has dropped the token or found
none to drop. -/
structure App where
  trayHide : TrayHideState
  timers : List Timer
  timersMade : Nat
  callbacks : List Callback
  tokenFetchMu : Bool
  delegated : Bool
  token : Bool
  fetchedTokenOnly : Bool
  svcConnected : Bool
  autoConnectTried : Bool
  now : Nat
  visible : Bool
  hiddenSince : Option Nat
  periodStart : Nat
  done : List Nat
  drops : List Drop
  deriving DecidableEq

/-- The grace period, the time to the next look, and whether mainWindowVisible can see
the window (on Windows; elsewhere it is never there). -/
structure Times where
  tokenDropGrace : Nat
  tokenDropRetry : Nat
  seesWindow : Bool

inductive Action where
  | hide
  | show_
  | secondLaunch
  | fire (k : Nat)
  | check (i : Nat)
  | look (i : Nat)
  | tell (i : Nat)
  | tryLock (i : Nat)
  | clear (i : Nat)
  | unlock (i : Nat)
  | retry (i : Nat)
  | connectLock
  | connectUnlock (got : Bool)
  | switch (delegated : Bool)
  | pass (time : Nat)
  deriving DecidableEq

def App.setTimer (a : App) (after gen : Nat) : App :=
  { a with
    trayHide := { a.trayHide with timer := some a.timersMade }
    timers := a.timers ++ [⟨a.timersMade, a.now + after, gen⟩]
    timersMade := a.timersMade + 1 }

/-- A window already hidden keeps the grace period it has. -/
def windowHiddenToTray (t : Times) (a : App) : App :=
  if a.trayHide.hidden ∧ a.trayHide.timer.isSome then a
  else
    let gen := a.trayHide.gen + 1
    { a with
      trayHide := { a.trayHide with hidden := true, gen := gen }
      periodStart := a.now }.setTimer t.tokenDropGrace gen

def windowShownAgain (a : App) : App :=
  { a with
    trayHide := ⟨false, a.trayHide.gen + 1, none⟩
    timers := a.timers.filter fun timer => some timer.number ≠ a.trayHide.timer }

def App.isCurrent (a : App) (c : Callback) : Bool :=
  a.trayHide.hidden && a.trayHide.gen = c.gen

def App.put (a : App) (i : Nat) (c : Callback) (stage : Stage) : App :=
  { a with callbacks := a.callbacks.set i { c with stage := stage } }

def App.end_ (a : App) (i : Nat) : App := { a with callbacks := a.callbacks.eraseIdx i }

/-- The end of a grace period whose callback has the token's lock. -/
def App.clear (a : App) (i : Nat) (c : Callback) : App :=
  { a.put i c .dropped with
    token := false
    fetchedTokenOnly := true
    svcConnected := false
    autoConnectTried := a.autoConnectTried && !a.svcConnected
    done := a.done ++ [c.gen]
    drops := a.drops ++ [⟨a.now, a.visible, a.hiddenSince⟩] }

/-- A step of the callback `c`, the i-th, from the stage it is at. -/
def callbackStep (t : Times) (a : App) (i : Nat) (c : Callback) : Action → Option App
  | .check _ =>
      if c.stage = .fired then some (if a.isCurrent c then a.put i c .current else a.end_ i) else none
  | .look _ =>
      if c.stage = .current then
        some (a.put i c (if t.seesWindow ∧ a.visible then .seen else .dropping))
      else none
  | .tell _ => if c.stage = .seen then some (windowShownAgain (a.end_ i)) else none
  | .tryLock _ =>
      if c.stage = .dropping then
        if !a.delegated then some { a.end_ i with done := a.done ++ [c.gen] }
        else if a.tokenFetchMu then some (a.put i c .busy)
        else some { a.put i c .holding with tokenFetchMu := true }
      else none
  | .clear _ => if c.stage = .holding then some (a.clear i c) else none
  | .unlock _ =>
      if c.stage = .dropped then some { a.end_ i with tokenFetchMu := false } else none
  | .retry _ =>
      if c.stage = .busy then
        some (if a.isCurrent c then (a.end_ i).setTimer t.tokenDropRetry c.gen else a.end_ i)
      else none
  | _ => none

def step (t : Times) (a : App) : Action → Option App
  | .hide =>
      some (windowHiddenToTray t { a with
        visible := false
        hiddenSince := if a.visible then some a.now else a.hiddenSince })
  | .show_ => some { windowShownAgain a with visible := true, hiddenSince := none }
  | .secondLaunch => some { a with visible := true, hiddenSince := none }
  | .fire k =>
      match a.timers[k]? with
      | some timer =>
          if timer.due ≤ a.now then
            some { a with
              timers := a.timers.eraseIdx k
              callbacks := a.callbacks ++ [⟨timer.gen, .fired⟩] }
          else none
      | none => none
  | .check i => a.callbacks[i]?.bind fun c => callbackStep t a i c (.check i)
  | .look i => a.callbacks[i]?.bind fun c => callbackStep t a i c (.look i)
  | .tell i => a.callbacks[i]?.bind fun c => callbackStep t a i c (.tell i)
  | .tryLock i => a.callbacks[i]?.bind fun c => callbackStep t a i c (.tryLock i)
  | .clear i => a.callbacks[i]?.bind fun c => callbackStep t a i c (.clear i)
  | .unlock i => a.callbacks[i]?.bind fun c => callbackStep t a i c (.unlock i)
  | .retry i => a.callbacks[i]?.bind fun c => callbackStep t a i c (.retry i)
  | .connectLock => if a.tokenFetchMu then none else some { a with tokenFetchMu := true }
  | .connectUnlock got =>
      if a.tokenFetchMu ∧ ¬ a.callbacks.any (fun c => c.stage = .holding || c.stage = .dropped) then
        some { a with
          tokenFetchMu := false
          token := a.token || got
          svcConnected := a.svcConnected || got
          fetchedTokenOnly := a.fetchedTokenOnly && !got }
      else none
  | .switch delegated => some { a with delegated := delegated }
  | .pass time => if a.now ≤ time then some { a with now := time } else none

/-- The app connected, its window in front. -/
def App.start : App where
  trayHide := ⟨false, 0, none⟩
  timers := []
  timersMade := 0
  callbacks := []
  tokenFetchMu := false
  delegated := true
  token := true
  fetchedTokenOnly := false
  svcConnected := true
  autoConnectTried := true
  now := 0
  visible := true
  hiddenSince := none
  periodStart := 0
  done := []
  drops := []

def app (t : Times) : System App Action where
  start a := a = App.start
  step a action after := step t a action = some after

/-! What is promised. -/

/-- The token was dropped while the window was hidden, and had been for a grace period. -/
def Drop.Hidden (t : Times) (d : Drop) : Prop :=
  d.visible = false ∧ ∃ since, d.hiddenSince = some since ∧ since + t.tokenDropGrace ≤ d.time

/-- While the window is hidden its grace period has a timer or a callback, or is done. -/
def Pending (a : App) : Prop :=
  a.visible = false → a.trayHide.hidden = true ∧
    ((∃ timer ∈ a.timers, timer.gen = a.trayHide.gen) ∨
      (∃ c ∈ a.callbacks, c.gen = a.trayHide.gen) ∨ a.trayHide.gen ∈ a.done)

/-- What the callback found at its check still holds when it acts on it: its grace period is
the window's and the window is hidden where it drops the token, and is visible where it ends
the grace period; and the window is hidden only when the app knows that it was shown. -/
def inOrder (a : App) : Action → Bool
  | .hide => !a.visible || !a.trayHide.hidden
  | .clear i => a.callbacks[i]?.all fun c => a.isCurrent c && !a.visible
  | .tell _ => a.visible
  | _ => true

/-! The invariant. -/

/-- The grace period of the tray has a timer or a callback, or is done. -/
def Covered (a : App) : Prop :=
  a.trayHide.gen ∈ a.timers.map (·.gen) ∨ a.trayHide.gen ∈ a.callbacks.map (·.gen) ∨
    a.trayHide.gen ∈ a.done

/-- A timer or a callback of the tray's grace period comes no earlier than its end. -/
structure Sound (t : Times) (a : App) : Prop where
  known : a.visible = false → a.trayHide.hidden = true ∧ a.hiddenSince = some a.periodStart
  timerSet : a.trayHide.hidden = true → a.trayHide.timer.isSome = true
  covered : a.trayHide.hidden = true → Covered a
  timersOld : ∀ timer ∈ a.timers, timer.gen ≤ a.trayHide.gen
  callbacksOld : ∀ c ∈ a.callbacks, c.gen ≤ a.trayHide.gen
  timersLate : ∀ timer ∈ a.timers, timer.gen = a.trayHide.gen →
    a.periodStart + t.tokenDropGrace ≤ timer.due
  callbacksLate : ∀ c ∈ a.callbacks, c.gen = a.trayHide.gen →
    a.periodStart + t.tokenDropGrace ≤ a.now
  droppedDone : ∀ c ∈ a.callbacks, c.stage = .dropped → c.gen ∈ a.done
  drops : ∀ d ∈ a.drops, d.Hidden t

variable {t : Times} {a : App}

theorem sound_start (t : Times) : Sound t App.start := by
  have noTimer (timer : Timer) (listed : timer ∈ App.start.timers) : False :=
    List.not_mem_nil listed
  have noCallback (c : Callback) (listed : c ∈ App.start.callbacks) : False :=
    List.not_mem_nil listed
  constructor
  · intro hidden
    cases hidden
  · intro hidden
    cases hidden
  · intro hidden
    cases hidden
  · exact fun timer listed => (noTimer timer listed).elim
  · exact fun c listed => (noCallback c listed).elim
  · exact fun timer listed _ => (noTimer timer listed).elim
  · exact fun c listed _ => (noCallback c listed).elim
  · exact fun c listed _ => (noCallback c listed).elim
  · exact fun d listed => (List.not_mem_nil listed).elim

/-- A callback goes on to another stage. -/
theorem sound_put (sound : Sound t a) {i : Nat} {c : Callback} (here : a.callbacks[i]? = some c)
    {stage : Stage} (earlier : stage ≠ .dropped) : Sound t (a.put i c stage) := by
  have listed : c ∈ a.callbacks := List.mem_of_getElem? here
  refine ⟨sound.known, sound.timerSet, fun hidden => ?_, sound.timersOld, fun d inList => ?_,
    sound.timersLate, fun d inList => ?_, fun d inList => ?_, sound.drops⟩
  · have gens : (a.put i c stage).callbacks.map (·.gen) = a.callbacks.map (·.gen) :=
      ListPlaces.map_set_same here (·.gen) rfl
    unfold Covered
    rw [gens]
    exact sound.covered hidden
  · rcases List.mem_or_eq_of_mem_set inList with old | rfl
    · exact sound.callbacksOld d old
    · exact sound.callbacksOld c listed
  · rcases List.mem_or_eq_of_mem_set inList with old | rfl
    · exact sound.callbacksLate d old
    · exact sound.callbacksLate c listed
  · rcases List.mem_or_eq_of_mem_set inList with old | rfl
    · exact sound.droppedDone d old
    · exact fun is => absurd is earlier

/-- A callback ends whose grace period is covered without it. -/
theorem sound_end (sound : Sound t a) (i : Nat)
    (covered : a.trayHide.hidden = true → Covered (a.end_ i)) : Sound t (a.end_ i) := by
  have kept (d : Callback) (inList : d ∈ (a.end_ i).callbacks) : d ∈ a.callbacks :=
    List.mem_of_mem_eraseIdx inList
  exact ⟨sound.known, sound.timerSet, covered, sound.timersOld,
    fun d inList => sound.callbacksOld d (kept d inList), sound.timersLate,
    fun d inList => sound.callbacksLate d (kept d inList),
    fun d inList => sound.droppedDone d (kept d inList), sound.drops⟩

/-- So it is where the callback's is not the tray's, or is done. -/
theorem covered_end (sound : Sound t a) {i : Nat} {c : Callback}
    (here : a.callbacks[i]? = some c) (past : a.isCurrent c = false ∨ c.gen ∈ a.done)
    (hidden : a.trayHide.hidden = true) : Covered (a.end_ i) := by
  rcases sound.covered hidden with timer | callback | done
  · exact .inl timer
  · obtain ⟨d, listed, same⟩ := List.mem_map.mp callback
    rcases ListPlaces.mem_erase_or here listed with rfl | still
    · rcases past with other | done
      · have own : a.isCurrent d = true := by simp [App.isCurrent, hidden, same]
        rw [other] at own
        cases own
      · exact .inr (.inr (same ▸ done))
    · exact .inr (.inl (List.mem_map.mpr ⟨d, still, same⟩))
  · exact .inr (.inr done)

/-- The window is shown, or seen to be, and some callbacks have ended. -/
theorem sound_shown (sound : Sound t a) {callbacks : List Callback}
    (kept : ∀ c ∈ callbacks, c ∈ a.callbacks) {visible : Bool} (since : Option Nat)
    (seen : visible = true) : Sound t { windowShownAgain a with
      callbacks := callbacks, visible := visible, hiddenSince := since } := by
  have old (timer : Timer) (listed : timer ∈ (windowShownAgain a).timers) : timer ∈ a.timers :=
    List.mem_of_mem_filter listed
  refine ⟨fun hidden => ?_, fun hidden => ?_, fun hidden => ?_, fun timer listed => ?_,
    fun c listed => ?_, fun timer listed same => ?_, fun c listed same => ?_,
    fun c listed => sound.droppedDone c (kept c listed), sound.drops⟩
  · rw [show visible = false from hidden] at seen
    cases seen
  · cases hidden
  · cases hidden
  · exact Nat.le_succ_of_le (sound.timersOld timer (old timer listed))
  · exact Nat.le_succ_of_le (sound.callbacksOld c (kept c listed))
  · have before := sound.timersOld timer (old timer listed)
    rw [show timer.gen = a.trayHide.gen + 1 from same] at before
    omega
  · have before := sound.callbacksOld c (kept c listed)
    rw [show c.gen = a.trayHide.gen + 1 from same] at before
    omega

/-- A new timer of the tray's grace period, after its end. -/
theorem sound_setTimer (sound : Sound t a) {after : Nat}
    (late : a.periodStart + t.tokenDropGrace ≤ a.now + after) :
    Sound t (a.setTimer after a.trayHide.gen) := by
  refine ⟨sound.known, fun _ => rfl, fun _ => ?_, fun timer listed => ?_, sound.callbacksOld,
    fun timer listed same => ?_, sound.callbacksLate, sound.droppedDone, sound.drops⟩
  · exact .inl (List.mem_map.mpr ⟨_, List.mem_append_right _ (List.mem_singleton_self _), rfl⟩)
  · rcases List.mem_append.mp listed with old | new
    · exact sound.timersOld timer old
    · rw [List.mem_singleton.mp new]
      exact Nat.le_refl _
  · rcases List.mem_append.mp listed with old | new
    · exact sound.timersLate timer old same
    · rw [List.mem_singleton.mp new]
      exact late

theorem sound_hide (sound : Sound t a) (order : inOrder a .hide = true) :
    Sound t (windowHiddenToTray t { a with
      visible := false
      hiddenSince := if a.visible then some a.now else a.hiddenSince }) := by
  simp only [inOrder, Bool.or_eq_true, Bool.not_eq_true'] at order
  unfold windowHiddenToTray
  by_cases hidden : a.trayHide.hidden = true
  · -- already in the tray: nothing begins
    have unseen : a.visible = false := by
      rcases order with is | shown
      · exact is
      · rw [hidden] at shown
        cases shown
    have known := sound.known unseen
    rw [if_pos ⟨hidden, sound.timerSet hidden⟩]
    refine ⟨fun _ => ⟨hidden, ?_⟩, sound.timerSet, sound.covered, sound.timersOld,
      sound.callbacksOld, sound.timersLate, sound.callbacksLate, sound.droppedDone, sound.drops⟩
    show (if a.visible then some a.now else a.hiddenSince) = some a.periodStart
    rw [unseen]
    exact known.2
  · -- a new grace period, from now
    have seen : a.visible = true := by
      cases is : a.visible with
      | true => rfl
      | false => exact absurd (sound.known is).1 hidden
    rw [if_neg fun both => hidden both.1]
    refine ⟨fun _ => ⟨rfl, ?_⟩, fun _ => rfl, fun _ => ?_, fun timer listed => ?_,
      fun c listed => ?_, fun timer listed same => ?_, fun c listed same => ?_, sound.droppedDone,
      sound.drops⟩
    · show (if a.visible then some a.now else a.hiddenSince) = some a.now
      rw [seen]
      rfl
    · exact .inl (List.mem_map.mpr ⟨_, List.mem_append_right _ (List.mem_singleton_self _), rfl⟩)
    · rcases List.mem_append.mp listed with old | new
      · exact Nat.le_succ_of_le (sound.timersOld timer old)
      · rw [List.mem_singleton.mp new]
        exact Nat.le_refl _
    · exact Nat.le_succ_of_le (sound.callbacksOld c listed)
    · rcases List.mem_append.mp listed with old | new
      · have before := sound.timersOld timer old
        rw [show timer.gen = a.trayHide.gen + 1 from same] at before
        omega
      · rw [List.mem_singleton.mp new]
        exact Nat.le_refl _
    · have before := sound.callbacksOld c listed
      rw [show c.gen = a.trayHide.gen + 1 from same] at before
      omega

theorem isCurrent_parts {c : Callback} (current : a.isCurrent c = true) :
    a.trayHide.hidden = true ∧ c.gen = a.trayHide.gen := by
  simp only [App.isCurrent, Bool.and_eq_true, decide_eq_true_eq] at current
  exact ⟨current.1, current.2.symm⟩

theorem sound_clear (sound : Sound t a) {i : Nat} {c : Callback}
    (here : a.callbacks[i]? = some c) (current : a.isCurrent c = true) (unseen : a.visible = false) :
    Sound t (a.clear i c) := by
  have listed : c ∈ a.callbacks := List.mem_of_getElem? here
  obtain ⟨hidden, own⟩ := isCurrent_parts current
  refine ⟨sound.known, sound.timerSet, fun _ => ?_, sound.timersOld, fun d inList => ?_,
    sound.timersLate, fun d inList => ?_, fun d inList is => ?_, fun d inList => ?_⟩
  · exact .inr (.inr (List.mem_append_right _ (List.mem_singleton.mpr own.symm)))
  · rcases List.mem_or_eq_of_mem_set inList with old | rfl
    · exact sound.callbacksOld d old
    · exact sound.callbacksOld c listed
  · rcases List.mem_or_eq_of_mem_set inList with old | rfl
    · exact sound.callbacksLate d old
    · exact sound.callbacksLate c listed
  · rcases List.mem_or_eq_of_mem_set inList with old | rfl
    · exact List.mem_append_left _ (sound.droppedDone d old is)
    · exact List.mem_append_right _ (List.mem_singleton_self _)
  · rcases List.mem_append.mp inList with old | new
    · exact sound.drops d old
    · rw [List.mem_singleton.mp new]
      exact ⟨unseen, a.periodStart, (sound.known unseen).2, sound.callbacksLate c listed own⟩

theorem sound_callback {after : App} {action : Action} (sound : Sound t a) {i : Nat} {c : Callback}
    (here : a.callbacks[i]? = some c) (taken : callbackStep t a i c action = some after)
    (clears : ∀ j, action = .clear j → a.isCurrent c = true ∧ a.visible = false)
    (tells : ∀ j, action = .tell j → a.visible = true) : Sound t after := by
  have listed : c ∈ a.callbacks := List.mem_of_getElem? here
  cases action with
  | check j =>
      simp only [callbackStep] at taken
      split at taken
      · cases current : a.isCurrent c with
        | true =>
            rw [current] at taken
            cases taken
            exact sound_put sound here (fun is => by cases is)
        | false =>
            rw [current] at taken
            cases taken
            exact sound_end sound i (covered_end sound here (.inl current))
      · cases taken
  | look j =>
      simp only [callbackStep] at taken
      split at taken
      · cases taken
        apply sound_put sound here
        split
        · exact fun is => by cases is
        · exact fun is => by cases is
      · cases taken
  | tell j =>
      simp only [callbackStep] at taken
      split at taken
      · cases taken
        exact sound_shown sound
          (fun d inList => List.mem_of_mem_eraseIdx inList) a.hiddenSince (tells j rfl)
      · cases taken
  | tryLock j =>
      simp only [callbackStep] at taken
      split at taken
      · split at taken
        · cases taken
          have noted : Sound t { a with done := a.done ++ [c.gen] } := by
            refine ⟨sound.known, sound.timerSet, fun hidden => ?_, sound.timersOld,
              sound.callbacksOld, sound.timersLate, sound.callbacksLate, fun d inList is => ?_,
              sound.drops⟩
            · exact (sound.covered hidden).imp_right (Or.imp_right (List.mem_append_left _))
            · exact List.mem_append_left _ (sound.droppedDone d inList is)
          exact sound_end noted i (covered_end noted here
            (.inr (List.mem_append_right _ (List.mem_singleton_self _))))
        · split at taken
          · cases taken
            exact sound_put sound here (fun is => by cases is)
          · cases taken
            have put : Sound t (a.put i c .holding) :=
              sound_put sound here (fun is => by cases is)
            exact ⟨put.known, put.timerSet, put.covered, put.timersOld, put.callbacksOld,
              put.timersLate, put.callbacksLate, put.droppedDone, put.drops⟩
      · cases taken
  | clear j =>
      simp only [callbackStep] at taken
      split at taken
      · cases taken
        exact sound_clear sound here (clears j rfl).1 (clears j rfl).2
      · cases taken
  | unlock j =>
      simp only [callbackStep] at taken
      split at taken
      · next is =>
          cases taken
          have ended := sound_end sound i
            (covered_end sound here (.inr (sound.droppedDone c listed is)))
          exact ⟨ended.known, ended.timerSet, ended.covered, ended.timersOld, ended.callbacksOld,
            ended.timersLate, ended.callbacksLate, ended.droppedDone, ended.drops⟩
      · cases taken
  | retry j =>
      simp only [callbackStep] at taken
      split at taken
      · cases current : a.isCurrent c with
        | true =>
            rw [current] at taken
            cases taken
            obtain ⟨hidden, own⟩ := isCurrent_parts current
            have late := sound.callbacksLate c listed own
            have set_ : Sound t (a.setTimer t.tokenDropRetry a.trayHide.gen) :=
              sound_setTimer sound (by omega)
            rw [← own] at set_
            -- the callback ends, and its grace period has the new timer
            exact sound_end set_ i fun _ => .inl (List.mem_map.mpr
              ⟨_, List.mem_append_right _ (List.mem_singleton_self _), own⟩)
        | false =>
            rw [current] at taken
            cases taken
            exact sound_end sound i (covered_end sound here (.inl current))
      · cases taken
  | hide => cases taken
  | show_ => cases taken
  | secondLaunch => cases taken
  | fire k => cases taken
  | connectLock => cases taken
  | connectUnlock got => cases taken
  | switch delegated => cases taken
  | pass time => cases taken

theorem sound_step {after : App} {action : Action} (sound : Sound t a)
    (taken : step t a action = some after) (order : inOrder a action = true) : Sound t after := by
  have callback {i : Nat} {inner : Action}
      (ran : (a.callbacks[i]?.bind fun c => callbackStep t a i c inner) = some after)
      (clears : ∀ c, a.callbacks[i]? = some c → ∀ j, inner = .clear j →
        a.isCurrent c = true ∧ a.visible = false)
      (tells : ∀ j, inner = .tell j → a.visible = true) : Sound t after := by
    obtain ⟨c, here, went⟩ := Option.bind_eq_some_iff.mp ran
    exact sound_callback sound here went (clears c here) tells
  cases action with
  | hide =>
      cases taken
      exact sound_hide sound order
  | show_ =>
      cases taken
      exact sound_shown sound (fun _ listed => listed) none rfl
  | secondLaunch =>
      cases taken
      exact ⟨(fun hidden => by cases hidden), sound.timerSet, sound.covered, sound.timersOld,
        sound.callbacksOld, sound.timersLate, sound.callbacksLate, sound.droppedDone, sound.drops⟩
  | fire k =>
      simp only [step] at taken
      split at taken
      · next timer here =>
          split at taken
          · next due =>
              cases taken
              have listed : timer ∈ a.timers := List.mem_of_getElem? here
              have kept (x : Timer) (inList : x ∈ a.timers.eraseIdx k) : x ∈ a.timers :=
                List.mem_of_mem_eraseIdx inList
              refine ⟨sound.known, sound.timerSet, fun hidden => ?_,
                fun x inList => sound.timersOld x (kept x inList), fun c inList => ?_,
                fun x inList => sound.timersLate x (kept x inList), fun c inList same => ?_,
                fun c inList is => ?_, sound.drops⟩
              · rcases sound.covered hidden with timers | callbacks | done
                · obtain ⟨x, inList, same⟩ := List.mem_map.mp timers
                  rcases ListPlaces.mem_erase_or here inList with rfl | still
                  · exact .inr (.inl (List.mem_map.mpr
                      ⟨_, List.mem_append_right _ (List.mem_singleton_self _), same⟩))
                  · exact .inl (List.mem_map.mpr ⟨x, still, same⟩)
                · obtain ⟨c, inList, same⟩ := List.mem_map.mp callbacks
                  exact .inr (.inl (List.mem_map.mpr ⟨c, List.mem_append_left _ inList, same⟩))
                · exact .inr (.inr done)
              · rcases List.mem_append.mp inList with old | new
                · exact sound.callbacksOld c old
                · rw [List.mem_singleton.mp new]
                  exact sound.timersOld timer listed
              · rcases List.mem_append.mp inList with old | new
                · exact sound.callbacksLate c old same
                · rw [List.mem_singleton.mp new] at same
                  exact Nat.le_trans (sound.timersLate timer listed same) due
              · rcases List.mem_append.mp inList with old | new
                · exact sound.droppedDone c old is
                · rw [List.mem_singleton.mp new] at is
                  cases is
          · cases taken
      · cases taken
  | check i => exact callback taken (fun _ _ _ is => by cases is) (fun _ is => by cases is)
  | look i => exact callback taken (fun _ _ _ is => by cases is) (fun _ is => by cases is)
  | tell i => exact callback taken (fun _ _ _ is => by cases is) (fun _ _ => order)
  | tryLock i => exact callback taken (fun _ _ _ is => by cases is) (fun _ is => by cases is)
  | clear i =>
      refine callback taken (fun c here _ _ => ?_) (fun _ is => by cases is)
      simpa [inOrder, here] using order
  | unlock i => exact callback taken (fun _ _ _ is => by cases is) (fun _ is => by cases is)
  | retry i => exact callback taken (fun _ _ _ is => by cases is) (fun _ is => by cases is)
  | connectLock =>
      simp only [step] at taken
      split at taken
      · cases taken
      · cases taken
        exact ⟨sound.known, sound.timerSet, sound.covered, sound.timersOld, sound.callbacksOld,
          sound.timersLate, sound.callbacksLate, sound.droppedDone, sound.drops⟩
  | connectUnlock got =>
      simp only [step] at taken
      split at taken
      · cases taken
        exact ⟨sound.known, sound.timerSet, sound.covered, sound.timersOld, sound.callbacksOld,
          sound.timersLate, sound.callbacksLate, sound.droppedDone, sound.drops⟩
      · cases taken
  | switch delegated =>
      cases taken
      exact ⟨sound.known, sound.timerSet, sound.covered, sound.timersOld, sound.callbacksOld,
        sound.timersLate, sound.callbacksLate, sound.droppedDone, sound.drops⟩
  | pass time =>
      simp only [step] at taken
      split at taken
      · next later =>
          cases taken
          exact ⟨sound.known, sound.timerSet, sound.covered, sound.timersOld, sound.callbacksOld,
            sound.timersLate, fun c listed same => Nat.le_trans (sound.callbacksLate c listed same) later,
            sound.droppedDone, sound.drops⟩
      · cases taken

theorem covered_pending (sound : Sound t a) : Pending a := by
  intro hidden
  have known := (sound.known hidden).1
  refine ⟨known, ?_⟩
  rcases sound.covered known with timer | callback | done
  · exact .inl (List.mem_map.mp timer)
  · exact .inr (.inl (List.mem_map.mp callback))
  · exact .inr (.inr done)

/-- In any run whose callbacks act on what still holds, the token is dropped from a window
hidden for a grace period only, and a hidden window's grace period is pending or done. -/
theorem token_dropped_hidden (t : Times) (actions : List Action) (a : App)
    (run : Run ((app t).restrict fun a action => inOrder a action = true) App.start actions a) :
    (∀ d ∈ a.drops, d.Hidden t) ∧ Pending a := by
  have sound : Sound t a := by
    refine run_keeps (Sound t) ?_ run (sound_start t)
    exact fun _ _ _ held taken => sound_step held taken.1 taken.2
  exact ⟨sound.drops, covered_pending sound⟩

/-! The window is shown between the callback's check and its drop. -/

def minutes : Times := ⟨15, 1, true⟩

def shownBetween : List Action :=
  [.hide, .pass 15, .fire 0, .check 0, .look 0, .show_, .tryLock 0, .clear 0, .unlock 0]

theorem token_dropped_shown :
    ∃ a, Run (app minutes) App.start shownBetween a ∧ ¬ ∀ d ∈ a.drops, d.Hidden minutes := by
  have executed : (shownBetween.foldlM (step minutes) App.start).map (·.drops) =
      some [⟨15, true, none⟩] := by decide
  obtain ⟨a, ran, drops⟩ := Option.map_eq_some_iff.mp executed
  refine ⟨a, run_of_foldlM (step minutes) (fun _ _ _ taken => taken) ran, fun promised => ?_⟩
  have hidden := promised ⟨15, true, none⟩ (by rw [drops]; exact List.mem_singleton_self _)
  cases hidden.1

/-- A connect's prompt is open when the grace period ends, and the next look drops the token. -/
def lookedAgain : List Action :=
  [.hide, .connectLock, .pass 15, .fire 0, .check 0, .look 0, .tryLock 0, .retry 0,
    .connectUnlock true, .pass 16, .fire 0, .check 0, .look 0, .tryLock 0, .clear 0, .unlock 0]

theorem token_dropped_later :
    ∃ a, Run ((app minutes).restrict fun a action => inOrder a action = true) App.start
        lookedAgain a ∧ a.drops = [⟨16, false, some 0⟩] ∧ (∀ d ∈ a.drops, d.Hidden minutes) ∧
      Pending a := by
  have executed : (lookedAgain.foldlM (checked (step minutes)
      (fun a action => inOrder a action = true)) App.start).map (·.drops) =
        some [⟨16, false, some 0⟩] := by decide
  obtain ⟨a, ran, drops⟩ := Option.map_eq_some_iff.mp executed
  have run : Run ((app minutes).restrict fun a action => inOrder a action = true) App.start
      lookedAgain a := by
    refine run_of_foldlM _ ?_ ran
    intro before action next taken
    unfold checked at taken
    split at taken
    · next admitted => exact ⟨taken, admitted⟩
    · cases taken
  exact ⟨a, run, drops, token_dropped_hidden minutes lookedAgain a run⟩

end ProxmoxBackup.TokenDrop
