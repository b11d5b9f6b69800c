/-! Computations that change a state and may end early, the rules of what holds behind
them, and the loop over one of them. -/

namespace ProxmoxBackup.Actions

/-- What ends a computation early: a break out of its loop, an error or a panic. -/
inductive Exit (Err : Type) where
  | stopped
  | failed (err : Err)
  | panicked
  deriving DecidableEq

inductive Turn (S Err α : Type) where
  | went (value : α) (s : S)
  | ended (exit : Exit Err) (s : S)

def Action (S Err α : Type) : Type := S → Turn S Err α

variable {S Err α β : Type}

def Action.bind (x : Action S Err α) (f : α → Action S Err β) : Action S Err β := fun s =>
  match x s with
  | .went value s => f value s
  | .ended exit s => .ended exit s

instance : Monad (Action S Err) where
  pure value := fun s => .went value s
  bind := Action.bind

/-- Ends early where the condition holds. -/
def leave (p : Prop) [Decidable p] (exit : Exit Err) : Action S Err Unit := fun s =>
  if p then .ended exit s else .went () s

def change (f : S → S) : Action S Err Unit := fun s => .went () (f s)

def reading (f : S → Action S Err α) : Action S Err α := fun s => f s s

/-- Where the computation goes on, and where it ends early. -/
inductive Turn.Meets (post : α → S → Prop) (out : Exit Err → S → Prop) :
    Turn S Err α → Prop where
  | went {value : α} {s : S} (holds : post value s) : Turn.Meets post out (.went value s)
  | ended {exit : Exit Err} {s : S} (holds : out exit s) : Turn.Meets post out (.ended exit s)

variable {post mid : α → S → Prop} {next : β → S → Prop} {out : Exit Err → S → Prop} {s : S}

/-- The rule of a sequence: what the first part comes to is what the second starts from. -/
theorem Turn.Meets.bind {x : Action S Err α} {f : α → Action S Err β}
    (first : (x s).Meets mid out) (second : ∀ a s, mid a s → (f a s).Meets next out) :
    ((x >>= f) s).Meets next out := by
  show (Action.bind x f s).Meets next out
  unfold Action.bind
  cases ran : x s with
  | went a after =>
      rw [ran] at first
      cases first with
      | went holds => exact second a after holds
  | ended exit after =>
      rw [ran] at first
      cases first with
      | ended holds => exact .ended holds

/-- The same rule, for a first part that does not say what it comes to. -/
theorem through (mid : α → S → Prop) {x : Action S Err α} {f : α → Action S Err β}
    (first : (x s).Meets mid out) (second : ∀ a s, mid a s → (f a s).Meets next out) :
    ((x >>= f) s).Meets next out := first.bind second

theorem Turn.Meets.weaken {t : Turn S Err α} (meets : t.Meets mid out)
    (implies : ∀ a s, mid a s → post a s) : t.Meets post out := by
  cases meets with
  | went holds => exact .went (implies _ _ holds)
  | ended holds => exact .ended holds

theorem pure_meets {a : α} (holds : post a s) : ((pure a : Action S Err α) s).Meets post out :=
  .went holds

theorem leave_meets {post : Unit → S → Prop} (p : Prop) [Decidable p] (exit : Exit Err)
    (ends : p → out exit s) (stays : ¬ p → post () s) :
    ((leave p exit : Action S Err Unit) s).Meets post out := by
  unfold leave
  split
  · rename_i holds
    exact .ended (ends holds)
  · rename_i fails
    exact .went (stays fails)

theorem choose_meets (p : Prop) [Decidable p] {x y : Action S Err α}
    (holds : p → (x s).Meets post out) (fails : ¬ p → (y s).Meets post out) :
    ((if p then x else y) s).Meets post out := by
  split
  · rename_i is
    exact holds is
  · rename_i is
    exact fails is

/-- The loop that has the body over and over; the number counts its turns. -/
def loop (body : Action S Err Unit) : Nat → S → Option (Exit Err × S)
  | 0, _ => none
  | turns + 1, s =>
      match body s with
      | .went _ s => loop body turns s
      | .ended exit s => some (exit, s)

/-- The rule of a loop: a body that keeps the invariant and makes the measure smaller ends
within as many turns as the measure says. -/
theorem loop_ends {body : Action S Err Unit} {inv : S → Prop} (measure : S → Nat)
    (keeps : ∀ s, inv s → (body s).Meets (fun _ after => inv after ∧ measure after < measure s) out)
    (turns : Nat) (s : S) (starts : inv s) (enough : measure s < turns) :
    ∃ exit after, loop body turns s = some (exit, after) ∧ out exit after := by
  -- On the turns left: the measure stays below them.
  induction turns generalizing s with
  | zero => exact (Nat.not_lt_zero _ enough).elim
  | succ turns ih =>
      have meets := keeps s starts
      unfold loop
      cases ran : body s with
      | went value after =>
          rw [ran] at meets
          cases meets with
          | went holds => exact ih after holds.1 (by omega)
      | ended exit after =>
          rw [ran] at meets
          cases meets with
          | ended holds => exact ⟨exit, after, rfl, holds⟩

/-! What a computation that goes on comes to. -/

section

variable {x : Action S Err α} {f : α → Action S Err β} {s s' : S} {a : α}

theorem bind_went (went : x s = .went a s') : (x >>= f) s = f a s' := by
  show Action.bind x f s = f a s'
  rw [Action.bind, went]

theorem bind_ended {exit : Exit Err} (ends : x s = .ended exit s') : (x >>= f) s = .ended exit s' := by
  show Action.bind x f s = .ended exit s'
  rw [Action.bind, ends]

theorem bind_change (g : S → S) (f : Unit → Action S Err β) : (change g >>= f) s = f () (g s) := rfl

theorem bind_reading (g : S → Action S Err α) : (reading g >>= f) s = (g s >>= f) s := rfl

theorem reading_here (g : S → Action S Err α) : reading g s = g s s := rfl

theorem bind_stay {p : Prop} [Decidable p] {exit : Exit Err} {f : Unit → Action S Err β} (stays : ¬ p) :
    (leave p exit >>= f) s = f () s := by
  refine bind_went ?_
  rw [leave, if_neg stays]

end

/-- So many turns from the first state to the last. -/
inductive Turns (body : Action S Err Unit) : Nat → S → S → Prop where
  | done {s : S} : Turns body 0 s s
  | more {n : Nat} {s middle last : S} : body s = .went () middle → Turns body n middle last →
      Turns body (n + 1) s last

theorem Turns.one {body : Action S Err Unit} {s last : S} (turn : body s = .went () last) :
    Turns body 1 s last := .more turn .done

theorem Turns.trans {body : Action S Err Unit} {n m : Nat} {s middle last : S}
    (first : Turns body n s middle) (second : Turns body m middle last) :
    Turns body (n + m) s last := by
  induction first with
  | done =>
      rw [Nat.zero_add]
      exact second
  | more turn _ ih =>
      rw [Nat.add_right_comm]
      exact .more turn (ih second)

/-- A loop that has turns enough ends as its last turn does. -/
theorem Turns.loop {body : Action S Err Unit} {n turns : Nat} {s last out : S}
    {exit : Exit Err} (before : Turns body n s last) (ends : body last = .ended exit out)
    (enough : n < turns) :
    Actions.loop body turns s = some (exit, out) := by
  induction before generalizing turns with
  | done =>
      cases turns with
      | zero => omega
      | succ turns =>
          rw [Actions.loop, ends]
  | more turn _ ih =>
      cases turns with
      | zero => omega
      | succ turns =>
          rw [Actions.loop, turn]
          exact ih ends (by omega)

end ProxmoxBackup.Actions
