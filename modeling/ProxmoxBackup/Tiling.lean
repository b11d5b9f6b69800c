import Mathlib.Data.List.Basic

/-! Lists of half-open ranges laid end to end. -/

namespace ProxmoxBackup.Tiling

variable {α : Type*} (start stop : α → Nat)

/-- From `a` to `b` without a gap or an overlap. -/
def Tiles : Nat → List α → Nat → Prop
  | a, [], b => a = b
  | a, x :: rest, b => start x = a ∧ start x ≤ stop x ∧ Tiles (stop x) rest b

variable {start stop}

theorem Tiles.ordered {a b : Nat} {xs : List α} (tiles : Tiles start stop a xs b) : a ≤ b := by
  induction xs generalizing a with
  | nil => exact Nat.le_of_eq tiles
  | cons x rest ih =>
      obtain ⟨here, proper, tail⟩ := tiles
      have later := ih tail
      omega

theorem Tiles.inside {a b : Nat} {xs : List α} (tiles : Tiles start stop a xs b) :
    ∀ x ∈ xs, a ≤ start x ∧ start x ≤ stop x ∧ stop x ≤ b := by
  induction xs generalizing a with
  | nil => exact fun x member => absurd member List.not_mem_nil
  | cons first rest ih =>
      obtain ⟨here, proper, tail⟩ := tiles
      intro x member
      rcases List.mem_cons.mp member with rfl | member
      · have later := tail.ordered
        omega
      · have later := ih tail x member
        omega

/-- A place lies in one range only. -/
theorem Tiles.unique {a b : Nat} {xs : List α} (tiles : Tiles start stop a xs b) (n : Nat) :
    ∀ x ∈ xs, ∀ y ∈ xs, start x ≤ n → n < stop x → start y ≤ n → n < stop y → x = y := by
  induction xs generalizing a with
  | nil => exact fun x member => absurd member List.not_mem_nil
  | cons first rest ih =>
      obtain ⟨-, -, tail⟩ := tiles
      intro x listed y listed'
      rcases List.mem_cons.mp listed with here | here
      · subst here
        rcases List.mem_cons.mp listed' with there | there
        · exact fun _ _ _ _ => there.symm
        · have later := (tail.inside y there).1
          intros
          omega
      · rcases List.mem_cons.mp listed' with there | there
        · subst there
          have later := (tail.inside x here).1
          intros
          omega
        · exact ih tail x here y there

end ProxmoxBackup.Tiling
