import Mathlib.Data.List.Basic

/-! A list around one of its places: what stands before it and behind it, and what the
list is with the place set to another value or left out. -/

namespace ProxmoxBackup.ListPlaces

variable {α β : Type*}

theorem parts {list : List α} {k : Nat} {x : α} (here : list[k]? = some x) :
    ∃ front back, list = front ++ x :: back ∧ list.eraseIdx k = front ++ back ∧
      ∀ y, list.set k y = front ++ y :: back := by
  induction list generalizing k with
  | nil => cases here
  | cons first rest ih =>
      cases k with
      | zero =>
          cases here
          exact ⟨[], rest, rfl, rfl, fun _ => rfl⟩
      | succ k =>
          obtain ⟨front, back, whole, erased, set_⟩ := ih (k := k) (by simpa using here)
          refine ⟨first :: front, back, by rw [whole]; rfl, ?_, fun y => ?_⟩
          · rw [List.eraseIdx_cons_succ, erased]
            rfl
          · rw [List.set_cons_succ, set_]
            rfl

/-- A value that maps to the same leaves the image as it was. -/
theorem map_set_same {list : List α} {k : Nat} {x y : α} (here : list[k]? = some x) (f : α → β)
    (same : f y = f x) : (list.set k y).map f = list.map f := by
  obtain ⟨front, back, whole, _, set_⟩ := parts here
  rw [set_ y, whole]
  simp [same]

/-- What the list holds is at the place, or still there when the place is left out. -/
theorem mem_erase_or {list : List α} {k : Nat} {x y : α} (here : list[k]? = some x)
    (listed : y ∈ list) : y = x ∨ y ∈ list.eraseIdx k := by
  obtain ⟨front, back, whole, erased, _⟩ := parts here
  rw [erased]
  rw [whole] at listed
  rcases List.mem_append.mp listed with before | rest
  · exact .inr (List.mem_append_left _ before)
  · rcases List.mem_cons.mp rest with same | behind
    · exact .inl same
    · exact .inr (List.mem_append_right _ behind)

end ProxmoxBackup.ListPlaces
