import Mathlib.Data.Nat.Basic

/-! Binary search for the least index where a monotone predicate holds. -/

namespace ProxmoxBackup.BinarySearch

variable (f : Nat → Bool)

def searchFrom (i j : Nat) : Nat :=
  if i < j then
    let h := (i + j) / 2
    if !f h then searchFrom (h + 1) j else searchFrom i h
  else i
termination_by j - i

/-- sort.Search -/
def Search (n : Nat) : Nat := searchFrom f 0 n

variable {f}

/-- All below the low end fail, and all from the high end on hold. -/
theorem searchFrom_least (n i j : Nat) (mono : ∀ a b, a ≤ b → b < n → f a = true → f b = true)
    (order : i ≤ j) (within : j ≤ n) (below : ∀ k < i, f k = false)
    (above : ∀ k, j ≤ k → k < n → f k = true) :
    searchFrom f i j ≤ n ∧ (∀ k < searchFrom f i j, f k = false) ∧
      ∀ k, searchFrom f i j ≤ k → k < n → f k = true := by
  fun_induction searchFrom f i j with
  | case1 i j before h fails ih =>
      have fails : f h = false := by simpa using fails
      apply ih (by omega) within _ above
      intro k low
      by_contra holds
      have later := mono k h (by omega) (by omega) (by simpa using holds)
      rw [fails] at later
      cases later
  | case2 i j before h holds ih =>
      apply ih (by omega) (by omega) below
      intro k low high
      exact mono h k low high (by simpa using holds)
  | case3 i j met =>
      have same : i = j := by omega
      subst same
      exact ⟨within, below, above⟩

theorem search_least (n : Nat) (mono : ∀ a b, a ≤ b → b < n → f a = true → f b = true) :
    Search f n ≤ n ∧ (∀ k < Search f n, f k = false) ∧
      ∀ k, Search f n ≤ k → k < n → f k = true := by
  apply searchFrom_least n 0 n mono (Nat.zero_le n) (Nat.le_refl n)
  · exact fun k none_ => absurd none_ (Nat.not_lt_zero k)
  · exact fun k low high => absurd high (Nat.not_lt.mpr low)

/-- What a search finds below its end holds, monotone or not. -/
theorem searchFrom_true (i j : Nat) (order : i ≤ j) :
    searchFrom f i j = j ∨ f (searchFrom f i j) = true := by
  fun_induction searchFrom f i j with
  | case1 i j before h fails ih => exact ih (by omega)
  | case2 i j before h holds ih =>
      rcases ih (by omega) with same | found
      · rw [same]
        exact .inr (by simpa using holds)
      · exact .inr found
  | case3 i j met => exact .inl (by omega)

theorem search_true {n : Nat} (before : Search f n < n) : f (Search f n) = true := by
  rcases searchFrom_true 0 n (Nat.zero_le n) with same | found
  · exact absurd same (Nat.ne_of_lt before)
  · exact found

end ProxmoxBackup.BinarySearch
