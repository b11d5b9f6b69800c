import Mathlib.Order.Basic

/-! A search that takes a level after another and what each leads to once. How far a step
is from the root may matter, but going there earlier never leads to less. -/
namespace ProxmoxBackup.LevelSearch

universe u
variable {Key : Type u}

/-- What `steps` steps from the root lead to; a step is told how many came before it. -/
inductive Reaches (adj : Nat → Key → Key → Prop) (root : Key) : Nat → Key → Prop where
  | root : Reaches adj root 0 root
  | next {k : Nat} {source target : Key} (reached : Reaches adj root k source)
      (edge : adj k source target) : Reaches adj root (k + 1) target

/-- Before level `k`: all up to its distance has been met, and what has been met is in the
level or has led on. -/
structure Before (adj : Nat → Key → Key → Prop) (root : Key) (k : Nat)
    (level met : Key → Prop) : Prop where
  reached : ∀ key, level key → Reaches adj root k key
  near : ∀ j, j ≤ k → ∀ key, Reaches adj root j key → met key
  behind : ∀ source, met source →
    level source ∨ ∃ j < k, ∀ target, adj j source target → met target

variable {adj : Nat → Key → Key → Prop} {root : Key}

/-- Earlier on the way a step leads to no less. -/
def Narrows (adj : Nat → Key → Key → Prop) : Prop :=
  ∀ j k source target, j ≤ k → adj k source target → adj j source target

theorem Before.start : Before adj root 0 (· = root) (· = root) where
  reached := by
    rintro key rfl
    exact .root
  near j first key reached := by
    cases reached with
    | root => rfl
    | next => exact absurd first (by omega)
  behind source is := .inl is

/-- A level is left behind: what its members lead to is met, and new ones are the next level. -/
theorem Before.step (narrows : Narrows adj) {k : Nat} {level met level' met' : Key → Prop}
    (before : Before adj root k level met)
    (all : ∀ key, met' key ↔ met key ∨ ∃ source, level source ∧ adj k source key)
    (new : ∀ key, level' key → ∃ source, level source ∧ adj k source key)
    (held : ∀ key, met' key → met key ∨ level' key) :
    Before adj root (k + 1) level' met' where
  reached key here := by
    obtain ⟨source, listed, edge⟩ := new key here
    exact .next (before.reached source listed) edge
  near j within key reached := by
    rw [all]
    rcases Nat.lt_or_ge k j with last | earlier
    · cases reached with
      | root => exact absurd last (Nat.not_lt_zero k)
      | @next i source target reached edge =>
          obtain rfl : i = k := by omega
          rcases before.behind source (before.near i (Nat.le_refl i) source reached) with
            listed | ⟨h, sooner, led⟩
          · exact .inr ⟨source, listed, edge⟩
          · exact .inl (led key (narrows h i source key (Nat.le_of_lt sooner) edge))
    · exact .inl (before.near j earlier key reached)
  behind source here := by
    rcases held source here with met | listed
    · refine .inr ?_
      rcases before.behind source met with listed | ⟨j, sooner, led⟩
      · exact ⟨k, Nat.lt_succ_self k, fun target edge => (all target).mpr (.inr ⟨source, listed, edge⟩)⟩
      · exact ⟨j, Nat.lt_succ_of_lt sooner, fun target edge => (all target).mpr (.inl (led target edge))⟩
    · exact .inl listed

/-- When a level is empty all that the root leads to has been met. By induction on the way. -/
theorem Before.complete (narrows : Narrows adj) {k : Nat} {level met : Key → Prop}
    (before : Before adj root k level met) (empty : ∀ key, ¬ level key) {j : Nat} {key : Key}
    (reached : Reaches adj root j key) : met key := by
  induction reached with
  | root => exact before.near 0 (Nat.zero_le k) root .root
  | @next j source target reached edge ih =>
      rcases before.behind source ih with listed | ⟨i, sooner, led⟩
      · exact absurd listed (empty source)
      · rcases Nat.le_total i j with earlier | later
        · exact led target (narrows i j source target earlier edge)
        · exact before.near (j + 1) (by omega) target (.next reached edge)

end ProxmoxBackup.LevelSearch
