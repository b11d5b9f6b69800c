import Mathlib.Data.List.Pairwise
import Mathlib.Tactic.Common

/-! Lists with keys: the first item of each key, and maps kept as lists of keys with values. -/
namespace ProxmoxBackup.KeyedLists

variable {α κ ν : Type*} [DecidableEq κ]

/-- The items whose key is new, in their order. -/
def firstBy (key : α → κ) : List κ → List α → List α
  | _, [] => []
  | seen, x :: rest =>
      if key x ∈ seen then firstBy key seen rest
      else x :: firstBy key (key x :: seen) rest

theorem firstBy_mem {key : α → κ} {seen : List κ} {items : List α} {x : α}
    (kept : x ∈ firstBy key seen items) : x ∈ items ∧ key x ∉ seen := by
  induction items generalizing seen with
  | nil => cases kept
  | cons first rest ih =>
      rw [firstBy] at kept
      split at kept
      · obtain ⟨listed, fresh⟩ := ih kept
        exact ⟨List.mem_cons_of_mem _ listed, fresh⟩
      · rename_i fresh
        obtain rfl | later := List.mem_cons.mp kept
        · exact ⟨List.mem_cons_self, fresh⟩
        · obtain ⟨listed, unseen⟩ := ih later
          exact ⟨List.mem_cons_of_mem _ listed, fun known => unseen (List.mem_cons_of_mem _ known)⟩

theorem firstBy_covers {key : α → κ} {items : List α} {x : α} (listed : x ∈ items)
    (seen : List κ) : key x ∈ seen ∨ ∃ y ∈ firstBy key seen items, key y = key x := by
  induction items generalizing seen with
  | nil => cases listed
  | cons first rest ih =>
      rw [firstBy]
      split
      · rename_i known
        obtain rfl | later := List.mem_cons.mp listed
        · exact .inl known
        · exact ih later seen
      · obtain rfl | later := List.mem_cons.mp listed
        · exact .inr ⟨x, List.mem_cons_self, rfl⟩
        · obtain known | ⟨y, kept, same⟩ := ih later (key first :: seen)
          · obtain same | known := List.mem_cons.mp known
            · exact .inr ⟨first, List.mem_cons_self, same.symm⟩
            · exact .inl known
          · exact .inr ⟨y, List.mem_cons_of_mem _ kept, same⟩

theorem firstBy_pairwise (key : α → κ) (seen : List κ) (items : List α) :
    (firstBy key seen items).Pairwise fun x y => key x ≠ key y := by
  induction items generalizing seen with
  | nil => exact .nil
  | cons first rest ih =>
      rw [firstBy]
      split
      · exact ih seen
      · refine List.pairwise_cons.mpr ⟨fun y kept => ?_, ih _⟩
        have unseen := (firstBy_mem kept).2
        exact fun same => unseen (same ▸ List.mem_cons_self)

theorem firstBy_unique {key : α → κ} {seen : List κ} {items : List α} {x y : α}
    (first : x ∈ firstBy key seen items) (second : y ∈ firstBy key seen items)
    (same : key x = key y) : x = y := by
  have symmetric : Std.Symm fun x y : α => key x ≠ key y := ⟨fun _ _ => Ne.symm⟩
  by_contra different
  exact (firstBy_pairwise key seen items).forall first second different same

/-- Nothing before an item that is kept has its key. -/
theorem firstBy_first {key : α → κ} {seen : List κ} {items : List α} {x : α}
    (kept : x ∈ firstBy key seen items) :
    ∃ before after, items = before ++ x :: after ∧ ∀ y ∈ before, key y ≠ key x := by
  induction items generalizing seen with
  | nil => cases kept
  | cons first rest ih =>
      rw [firstBy] at kept
      split at kept
      · rename_i known
        obtain ⟨before, after, rfl, fresh⟩ := ih kept
        refine ⟨first :: before, after, rfl, fun y earlier => ?_⟩
        obtain rfl | earlier := List.mem_cons.mp earlier
        · exact fun same => (firstBy_mem kept).2 (same ▸ known)
        · exact fresh y earlier
      · obtain rfl | later := List.mem_cons.mp kept
        · exact ⟨[], rest, rfl, nofun⟩
        · obtain ⟨before, after, rfl, fresh⟩ := ih later
          refine ⟨first :: before, after, rfl, fun y earlier => ?_⟩
          obtain rfl | earlier := List.mem_cons.mp earlier
          · exact fun same => (firstBy_mem later).2 (same ▸ List.mem_cons_self)
          · exact fresh y earlier

/-- One item of a loop that keeps the first of each key. -/
def keep (key : α → κ) (s : List κ × List α) (x : α) : List κ × List α :=
  if key x ∈ s.1 then s else (key x :: s.1, s.2 ++ [x])

theorem foldl_keep (key : α → κ) (items : List α) (s : List κ × List α) :
    (items.foldl (keep key) s).2 = s.2 ++ firstBy key s.1 items := by
  induction items generalizing s with
  | nil => exact (List.append_nil _).symm
  | cons x rest ih =>
      rw [List.foldl_cons, ih, keep, firstBy]
      split
      · rfl
      · rw [List.append_assoc, List.singleton_append]

/-- The value of a key changed, or added at the end. -/
def upsert (key : κ) (change : Option ν → ν) : List (κ × ν) → List (κ × ν)
  | [] => [(key, change none)]
  | (k, v) :: rest =>
      if k = key then (k, change (some v)) :: rest else (k, v) :: upsert key change rest

theorem lookup_upsert [BEq κ] [LawfulBEq κ] (key other : κ) (change : Option ν → ν) (m : List (κ × ν)) :
    (upsert key change m).lookup other =
      if other = key then some (change (m.lookup key)) else m.lookup other := by
  induction m with
  | nil =>
      by_cases same : other = key
      · simp [upsert, same]
      · have differs : (other == key) = false := beq_eq_false_iff_ne.mpr same
        simp [upsert, same, List.lookup_cons, differs]
  | cons first rest ih =>
      obtain ⟨k, v⟩ := first
      rw [upsert]
      by_cases here : k = key
      · subst here
        rw [if_pos rfl]
        by_cases same : other = k
        · simp [same]
        · have differs : (other == k) = false := beq_eq_false_iff_ne.mpr same
          simp [List.lookup_cons, same, differs]
      · have key_ : (key == k) = false := beq_eq_false_iff_ne.mpr (Ne.symm here)
        rw [if_neg here, List.lookup_cons, ih, List.lookup_cons, List.lookup_cons, key_]
        by_cases same : other = k
        · subst same
          simp [here]
        · have differs : (other == k) = false := beq_eq_false_iff_ne.mpr same
          simp [differs]

theorem upsert_keys (key : κ) (change : Option ν → ν) (m : List (κ × ν))
    (distinct : (m.map Prod.fst).Nodup) : ((upsert key change m).map Prod.fst).Nodup ∧
      ∀ k, k ∈ (upsert key change m).map Prod.fst ↔ k = key ∨ k ∈ m.map Prod.fst := by
  induction m with
  | nil =>
      refine ⟨List.pairwise_singleton _ _, fun k => ?_⟩
      simp [upsert]
  | cons first rest ih =>
      obtain ⟨k, v⟩ := first
      obtain ⟨fresh, later⟩ := List.nodup_cons.mp distinct
      obtain ⟨nodup, members⟩ := ih later
      rw [upsert]
      split
      · rename_i same
        subst same
        refine ⟨distinct, fun other => ?_⟩
        simp
      · rename_i different
        refine ⟨List.nodup_cons.mpr ⟨?_, nodup⟩, fun other => ?_⟩
        · rw [members]
          rintro (same | listed)
          · exact different same
          · exact fresh listed
        · rw [List.map_cons, List.mem_cons, members, List.map_cons, List.mem_cons]
          exact or_left_comm

end ProxmoxBackup.KeyedLists
