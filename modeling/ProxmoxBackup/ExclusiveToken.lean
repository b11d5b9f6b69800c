import Mathlib.Logic.Function.Basic

/-! A flag that whoever is inside a section has set: a test and set of it lets
one in, and leaving clears it. Who is inside is told from a state of each. -/

namespace ProxmoxBackup.ExclusiveToken

structure Token (inside : Nat → Prop) (flag : Bool) : Prop where
  flagged : ∀ i, inside i → flag = true
  only : ∀ i j, inside i → inside j → i = j

namespace Token

variable {α : Type} {p : α → Prop} {f : Nat → α} {k : Nat} {v : α} {flag : Bool}

theorem none_ {inside : Nat → Prop} (outside : ∀ i, ¬ inside i) : Token inside flag where
  flagged i there := absurd there (outside i)
  only i _ there := absurd there (outside i)

theorem free {inside : Nat → Prop} (token : Token inside false) (i : Nat) : ¬ inside i := by
  intro there
  have set := token.flagged i there
  cases set

theorem cases_update {i : Nat} (there : p (Function.update f k v i)) :
    i = k ∧ p v ∨ i ≠ k ∧ p (f i) := by
  by_cases same : i = k
  · subst same
    rw [Function.update_self] at there
    exact Or.inl ⟨rfl, there⟩
  · rw [Function.update_of_ne same] at there
    exact Or.inr ⟨same, there⟩

/-- A step of one that does not bring it inside. -/
theorem stay (token : Token (fun i => p (f i)) flag) (was : p v → p (f k)) :
    Token (fun i => p (Function.update f k v i)) flag := by
  have fewer : ∀ i, p (Function.update f k v i) → p (f i) := by
    intro i there
    rcases cases_update there with ⟨rfl, new⟩ | ⟨_, old⟩
    · exact was new
    · exact old
  constructor
  · intro i there
    exact token.flagged i (fewer i there)
  · intro i j one two
    exact token.only i j (fewer i one) (fewer j two)

theorem enter (token : Token (fun i => p (f i)) false) :
    Token (fun i => p (Function.update f k v i)) true := by
  have single : ∀ i, p (Function.update f k v i) → i = k := by
    intro i there
    rcases cases_update there with ⟨same, _⟩ | ⟨_, old⟩
    · exact same
    · exact absurd old (token.free i)
  constructor
  · intro _ _
    rfl
  · intro i j one two
    rw [single i one, single j two]

/-- Who was inside leaves, and nobody is left there. -/
theorem exit (token : Token (fun i => p (f i)) flag) (was : p (f k)) (out : ¬ p v)
    {after : Bool} : Token (fun i => p (Function.update f k v i)) after := by
  apply none_
  intro i there
  rcases cases_update there with ⟨_, new⟩ | ⟨other, old⟩
  · exact out new
  · exact other (token.only i k old was)

end Token

end ProxmoxBackup.ExclusiveToken
