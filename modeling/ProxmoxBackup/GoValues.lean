import Mathlib.Algebra.Group.Int.Defs
import Mathlib.Algebra.Group.Nat.Defs

/-! Go's fixed-width integers as numbers that wrap around, and what a function comes to. -/

namespace ProxmoxBackup.GoValues

def uint64 (n : Nat) : Nat := n % 2 ^ 64

def int64 (x : Int) : Int := (x + 2 ^ 63) % 2 ^ 64 - 2 ^ 63

theorem uint64_same (n : Nat) (fits : n < 2 ^ 64) : uint64 n = n := Nat.mod_eq_of_lt fits

theorem int64_same (x : Int) (low : -2 ^ 63 ≤ x) (high : x < 2 ^ 63) : int64 x = x := by
  unfold int64
  omega

theorem int64_range (x : Int) : -2 ^ 63 ≤ int64 x ∧ int64 x < 2 ^ 63 := by
  unfold int64
  omega

theorem bind_ok {Err α β : Type} {x : Except Err α} {f : α → Except Err β} {value : β}
    (ran : x >>= f = .ok value) : ∃ a, x = .ok a ∧ f a = .ok value := by
  cases x with
  | error err => cases ran
  | ok a => exact ⟨a, rfl, ran⟩

/-- A sequence fails in its first part or behind what that has returned. -/
theorem bind_failed {Err α β : Type} {x : Except Err α} {f : α → Except Err β} {err : Err}
    (ran : x >>= f = .error err) : x = .error err ∨ ∃ a, x = .ok a ∧ f a = .error err := by
  cases x with
  | error other =>
      cases ran
      exact Or.inl rfl
  | ok a => exact Or.inr ⟨a, rfl, ran⟩

/-- An index out of range or a division by zero is a panic. -/
inductive Outcome (Err α : Type) where
  | ok (value : α)
  | error (err : Err)
  | panicked

def Outcome.bind {Err α β : Type} (x : Outcome Err α) (f : α → Outcome Err β) : Outcome Err β :=
  match x with
  | .ok value => f value
  | .error err => .error err
  | .panicked => .panicked

instance (Err : Type) : Monad (Outcome Err) where
  pure := .ok
  bind := Outcome.bind

@[simp] theorem Outcome.ok_bind {Err α β : Type} (a : α) (f : α → Outcome Err β) :
    Outcome.ok a >>= f = f a := rfl

@[simp] theorem Outcome.error_bind {Err α β : Type} (err : Err) (f : α → Outcome Err β) :
    Outcome.error err >>= f = .error err := rfl

@[simp] theorem Outcome.panicked_bind {Err α β : Type} (f : α → Outcome Err β) :
    Outcome.panicked >>= f = .panicked := rfl

theorem Outcome.bind_ok {Err α β : Type} {x : Outcome Err α} {f : α → Outcome Err β} {value : β}
    (ran : x >>= f = .ok value) : ∃ a, x = .ok a ∧ f a = .ok value := by
  cases x with
  | ok a => exact ⟨a, rfl, ran⟩
  | error err => cases ran
  | panicked => cases ran

/-- A sequence panics in its first part or behind what that has returned. -/
theorem Outcome.bind_panicked {Err α β : Type} {x : Outcome Err α} {f : α → Outcome Err β}
    (ran : x >>= f = .panicked) : x = .panicked ∨ ∃ a, x = .ok a ∧ f a = .panicked := by
  cases x with
  | ok a => exact Or.inr ⟨a, rfl, ran⟩
  | error err => cases ran
  | panicked => exact Or.inl rfl

/-- The outcome is no panic, and what it returns meets the condition. -/
inductive Outcome.Meets {Err α : Type} (post : α → Prop) : Outcome Err α → Prop where
  | ok {value : α} (meets : post value) : Outcome.Meets post (.ok value)
  | error {err : Err} : Outcome.Meets post (.error err)

theorem Outcome.Meets.not_panicked {Err α : Type} {post : α → Prop} {x : Outcome Err α}
    (meets : x.Meets post) : x ≠ .panicked := by
  intro panicked
  subst panicked
  cases meets

theorem Outcome.Meets.of_ok {Err α : Type} {post : α → Prop} {x : Outcome Err α} {value : α}
    (meets : x.Meets post) (ran : x = .ok value) : post value := by
  subst ran
  cases meets with
  | ok holds => exact holds

/-- The rule of a sequence: what the first part returns is what the second starts from. -/
theorem Outcome.Meets.bind {Err α β : Type} {mid : α → Prop} {post : β → Prop}
    {x : Outcome Err α} {f : α → Outcome Err β} (first : x.Meets mid)
    (second : ∀ a, mid a → (f a).Meets post) : (x >>= f).Meets post := by
  cases first with
  | ok holds => exact second _ holds
  | error => exact .error

theorem Outcome.Meets.weaken {Err α : Type} {strong weak : α → Prop} {x : Outcome Err α}
    (meets : x.Meets strong) (implies : ∀ a, strong a → weak a) : x.Meets weak := by
  cases meets with
  | ok holds => exact .ok (implies _ holds)
  | error => exact .error

end ProxmoxBackup.GoValues
