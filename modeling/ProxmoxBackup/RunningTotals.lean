import Mathlib.Algebra.Order.Monoid.Defs
import Mathlib.Data.List.Basic

/-! Lists of weights with a bound each, where the running total of the weights stays
under the bounds. Leaving items out keeps it so, and the last bound bounds the total. -/

namespace ProxmoxBackup.RunningTotals

variable {α : Type*} [AddCommMonoid α]

/-- A weight and the bound of the total up to it. -/
structure Item (α : Type*) where
  weight : α
  bound : α

def total : List (Item α) → α
  | [] => 0
  | item :: rest => item.weight + total rest

theorem total_append (first second : List (Item α)) :
    total (first ++ second) = total first + total second := by
  induction first with
  | nil => simp [total]
  | cons item rest ih => simp [total, ih, add_assoc]

variable [PartialOrder α]

/-- Every running total, on top of what came before, is under its bound. -/
def Under (before : α) : List (Item α) → Prop
  | [] => True
  | item :: rest => before + item.weight ≤ item.bound ∧ Under (before + item.weight) rest

theorem under_lower [IsOrderedAddMonoid α] {lower before : α} (less : lower ≤ before) {items : List (Item α)}
    (under : Under before items) : Under lower items := by
  induction items generalizing lower before with
  | nil => trivial
  | cons item rest ih =>
      have first : lower + item.weight ≤ before + item.weight := add_le_add_left less _
      exact ⟨first.trans under.1, ih first under.2⟩

theorem under_sublist [IsOrderedAddMonoid α] {before : α} {kept items : List (Item α)} (sub : kept.Sublist items)
    (weights : ∀ item ∈ items, 0 ≤ item.weight) (under : Under before items) :
    Under before kept := by
  induction sub generalizing before with
  | slnil => exact under
  | cons item _ ih =>
      have less : before ≤ before + item.weight :=
        le_add_of_nonneg_right (weights item (List.mem_cons_self ..))
      exact ih (fun i listed => weights i (List.mem_cons_of_mem _ listed))
        (under_lower less under.2)
  | cons_cons item _ ih =>
      exact ⟨under.1, ih (fun i listed => weights i (List.mem_cons_of_mem _ listed)) under.2⟩

theorem under_snoc {before : α} {items : List (Item α)} {item : Item α}
    (under : Under before items) (last : before + total items + item.weight ≤ item.bound) :
    Under before (items ++ [item]) := by
  induction items generalizing before with
  | nil => exact ⟨by simpa [total] using last, trivial⟩
  | cons first rest ih =>
      refine ⟨under.1, ih under.2 ?_⟩
      simpa [total, add_assoc] using last

/-- Items that are all due by a bound weigh no more than it. -/
theorem under_total {before bound : α} {items : List (Item α)} (under : Under before items)
    (start : before ≤ bound) (due : ∀ item ∈ items, item.bound ≤ bound) :
    before + total items ≤ bound := by
  induction items generalizing before with
  | nil => simpa [total] using start
  | cons first rest ih =>
      have behind := ih under.2 (under.1.trans (due first (List.mem_cons_self ..)))
        fun i listed => due i (List.mem_cons_of_mem _ listed)
      simpa [total, add_assoc] using behind

end ProxmoxBackup.RunningTotals
