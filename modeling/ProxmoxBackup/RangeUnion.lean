import Mathlib.Data.List.Nodup
import Mathlib.Algebra.BigOperators.Group.List.Basic
import Mathlib.Order.Lattice

/-! Ranges of integers joined where they touch: the ranges come sorted by their
start, and each either reaches into the last one so far or opens a new one. With
`gap` 0 a range is half-open, with `gap` 1 it includes its end. -/

namespace ProxmoxBackup.RangeUnion

abbrev Range := Int × Int

variable (gap : Int)

/-- The ranges so far, the last one first, and one more. -/
def addRange : List Range → Range → List Range
  | [], r => [r]
  | top :: rest, r =>
      if r.1 ≤ top.2 + gap then (top.1, max top.2 r.2) :: rest else r :: top :: rest

def join (ranges : List Range) : List Range := (ranges.foldl (addRange gap) []).reverse

def Covers (ranges : List Range) (x : Int) : Prop := ∃ r ∈ ranges, r.1 ≤ x ∧ x < r.2 + gap

/-- Nothing that comes starts before the range on top does. -/
def Ahead (acc ranges : List Range) : Prop := ∀ top ∈ acc, ∀ r ∈ ranges, top.1 ≤ r.1

variable {gap}

theorem addRange_cases (gap : Int) (top r : Range) (rest : List Range) :
    r.1 ≤ top.2 + gap ∧ addRange gap (top :: rest) r = (top.1, max top.2 r.2) :: rest ∨
      top.2 + gap < r.1 ∧ addRange gap (top :: rest) r = r :: top :: rest := by
  by_cases touches : r.1 ≤ top.2 + gap
  · exact .inl ⟨touches, if_pos touches⟩
  · exact .inr ⟨Int.not_le.mp touches, if_neg touches⟩

theorem addRange_covers (acc : List Range) (r : Range) (ahead : ∀ top ∈ acc, top.1 ≤ r.1)
    (x : Int) : Covers gap (addRange gap acc r) x ↔ Covers gap acc x ∨ (r.1 ≤ x ∧ x < r.2 + gap) := by
  unfold Covers
  cases acc with
  | nil => simp [addRange]
  | cons top rest =>
      have start := ahead top (List.mem_cons_self ..)
      rcases addRange_cases gap top r rest with ⟨touches, added⟩ | ⟨_, added⟩
      · have joined : top.1 ≤ x ∧ x < max top.2 r.2 + gap ↔
            top.1 ≤ x ∧ x < top.2 + gap ∨ r.1 ≤ x ∧ x < r.2 + gap := by
          rcases Int.le_total top.2 r.2 with longer | shorter
          · rw [max_eq_right longer]
            omega
          · rw [max_eq_left shorter]
            omega
        rw [added, List.exists_mem_cons_iff, List.exists_mem_cons_iff, joined]
        constructor
        · rintro ((top_ | new) | old)
          · exact .inl (.inl top_)
          · exact .inr new
          · exact .inl (.inr old)
        · rintro ((top_ | old) | new)
          · exact .inl (.inl top_)
          · exact .inr old
          · exact .inl (.inr new)
      · rw [added, List.exists_mem_cons_iff]
        exact or_comm

theorem addRange_starts (acc : List Range) (r : Range) (bound : Int)
    (low : ∀ top ∈ acc, top.1 ≤ bound) (start : r.1 ≤ bound) :
    ∀ top ∈ addRange gap acc r, top.1 ≤ bound := by
  cases acc with
  | nil =>
      intro top listed
      rw [List.mem_singleton.mp listed]
      exact start
  | cons first rest =>
      intro top listed
      rcases addRange_cases gap first r rest with ⟨_, added⟩ | ⟨_, added⟩
      · rcases List.mem_cons.mp (added ▸ listed) with rfl | old
        · exact low first (List.mem_cons_self ..)
        · exact low top (List.mem_cons_of_mem _ old)
      · rcases List.mem_cons.mp (added ▸ listed) with rfl | old
        · exact start
        · exact low top old

/-- Sorted and apart, the last first. -/
def Apart (gap : Int) (acc : List Range) : Prop :=
  acc.Pairwise fun late early => early.2 + gap < late.1

theorem addRange_apart (acc : List Range) (r : Range) (apart : Apart gap acc)
    (ahead : ∀ top ∈ acc, top.1 ≤ r.1) : Apart gap (addRange gap acc r) := by
  cases acc with
  | nil => exact List.pairwise_singleton _ _
  | cons top rest =>
      have start := ahead top (List.mem_cons_self ..)
      obtain ⟨below, others⟩ := List.pairwise_cons.mp apart
      rcases addRange_cases gap top r rest with ⟨_, added⟩ | ⟨past, added⟩
      · rw [added]
        exact List.pairwise_cons.mpr ⟨below, others⟩
      · rw [added]
        refine List.pairwise_cons.mpr ⟨fun early listed => ?_, apart⟩
        rcases List.mem_cons.mp listed with rfl | old
        · exact past
        · exact Int.lt_of_lt_of_le (below early old) start

theorem addRange_proper (acc : List Range) (r : Range) (proper : ∀ top ∈ acc, top.1 ≤ top.2)
    (new : r.1 ≤ r.2) : ∀ top ∈ addRange gap acc r, top.1 ≤ top.2 := by
  cases acc with
  | nil =>
      intro top listed
      rw [List.mem_singleton.mp listed]
      exact new
  | cons first rest =>
      intro top listed
      rcases addRange_cases gap first r rest with ⟨_, added⟩ | ⟨_, added⟩
      · rcases List.mem_cons.mp (added ▸ listed) with rfl | old
        · exact Int.le_trans (proper first (List.mem_cons_self ..)) (le_max_left ..)
        · exact proper top (List.mem_cons_of_mem _ old)
      · rcases List.mem_cons.mp (added ▸ listed) with rfl | old
        · exact new
        · exact proper top old

theorem foldl_addRange (ranges acc : List Range) (sorted : ranges.Pairwise fun a b => a.1 ≤ b.1)
    (ahead : Ahead acc ranges) (apart : Apart gap acc) :
    Apart gap (ranges.foldl (addRange gap) acc) ∧
      ∀ x, Covers gap (ranges.foldl (addRange gap) acc) x ↔ Covers gap acc x ∨ Covers gap ranges x := by
  induction ranges generalizing acc with
  | nil => exact ⟨apart, fun x => by simp [Covers]⟩
  | cons r rest ih =>
      obtain ⟨first, others⟩ := List.pairwise_cons.mp sorted
      have here : ∀ top ∈ acc, top.1 ≤ r.1 := fun top listed =>
        ahead top listed r (List.mem_cons_self ..)
      have later : Ahead (addRange gap acc r) rest := by
        intro top listed next member
        have start := first next member
        exact addRange_starts acc r next.1
          (fun top listed => Int.le_trans (here top listed) start) start top listed
      obtain ⟨apartToo, covered⟩ := ih (addRange gap acc r) others later
        (addRange_apart acc r apart here)
      refine ⟨apartToo, fun x => ?_⟩
      rw [List.foldl_cons, covered, addRange_covers acc r here]
      unfold Covers
      rw [List.exists_mem_cons_iff, or_assoc]

theorem join_covers (ranges : List Range) (sorted : ranges.Pairwise fun a b => a.1 ≤ b.1) (x : Int) :
    Covers gap (join gap ranges) x ↔ Covers gap ranges x := by
  have covered : ∀ x, _ ↔ Covers gap [] x ∨ _ := (foldl_addRange ranges [] sorted
    (fun _ none_ => (List.not_mem_nil none_).elim) List.Pairwise.nil).2
  unfold join
  simpa [Covers] using covered x

theorem join_apart (ranges : List Range) (sorted : ranges.Pairwise fun a b => a.1 ≤ b.1) :
    (join gap ranges).Pairwise fun early late => early.2 + gap < late.1 := by
  unfold join
  rw [List.pairwise_reverse]
  exact (foldl_addRange ranges [] sorted (fun _ none_ => (List.not_mem_nil none_).elim)
    List.Pairwise.nil).1

theorem join_proper (ranges : List Range) (proper : ∀ r ∈ ranges, r.1 ≤ r.2) :
    ∀ r ∈ join gap ranges, r.1 ≤ r.2 := by
  have folded : ∀ (ranges acc : List Range), (∀ r ∈ ranges, r.1 ≤ r.2) →
      (∀ r ∈ acc, r.1 ≤ r.2) → ∀ r ∈ ranges.foldl (addRange gap) acc, r.1 ≤ r.2 := by
    intro ranges
    induction ranges with
    | nil => exact fun acc _ kept => kept
    | cons r rest ih =>
        intro acc proper kept
        exact ih _ (fun next listed => proper next (List.mem_cons_of_mem _ listed))
          (addRange_proper acc r kept (proper r (List.mem_cons_self ..)))
  intro r listed
  exact folded ranges [] proper (fun _ none_ => (List.not_mem_nil none_).elim) r
    (List.mem_reverse.mp listed)

/-! Ranges that include their ends, as the numbers they hold. -/

def numbers (ranges : List Range) : List Int :=
  ranges.flatMap fun r => (List.range (r.2 - r.1 + 1).toNat).map fun (k : Nat) => r.1 + (k : Int)

theorem mem_numbers (ranges : List Range) (x : Int) : x ∈ numbers ranges ↔ Covers 1 ranges x := by
  unfold numbers Covers
  rw [List.mem_flatMap]
  constructor
  · rintro ⟨r, listed, inside⟩
    obtain ⟨k, low, rfl⟩ := List.mem_map.mp inside
    rw [List.mem_range] at low
    exact ⟨r, listed, by omega, by omega⟩
  · rintro ⟨r, listed, low, high⟩
    refine ⟨r, listed, List.mem_map.mpr ⟨(x - r.1).toNat, ?_, by omega⟩⟩
    rw [List.mem_range]
    omega

theorem numbers_nodup (ranges : List Range) (apart : ranges.Pairwise fun a b => a.2 + 1 < b.1)
    (proper : ∀ r ∈ ranges, r.1 ≤ r.2) : (numbers ranges).Nodup := by
  induction ranges with
  | nil => exact List.nodup_nil
  | cons r rest ih =>
      obtain ⟨below, others⟩ := List.pairwise_cons.mp apart
      have split_ : numbers (r :: rest) =
          (List.range (r.2 - r.1 + 1).toNat).map (fun (k : Nat) => r.1 + (k : Int)) ++ numbers rest := rfl
      rw [split_, List.nodup_append]
      refine ⟨?_, ih others fun next listed => proper next (List.mem_cons_of_mem _ listed), ?_⟩
      · apply List.Nodup.map _ List.nodup_range
        intro j k same
        simp only at same
        omega
      · rintro x first y later rfl
        obtain ⟨k, low, rfl⟩ := List.mem_map.mp first
        obtain ⟨next, listed, start, _⟩ := (mem_numbers rest _).mp later
        have gap := below next listed
        rw [List.mem_range] at low
        omega

/-- How many numbers the ranges have, each range by itself. -/
def total : List Range → Int
  | [] => 0
  | r :: rest => r.2 - r.1 + 1 + total rest

theorem numbers_length (ranges : List Range) (proper : ∀ r ∈ ranges, r.1 ≤ r.2) :
    ((numbers ranges).length : Int) = total ranges := by
  induction ranges with
  | nil => rfl
  | cons r rest ih =>
      have split_ : numbers (r :: rest) =
          (List.range (r.2 - r.1 + 1).toNat).map (fun (k : Nat) => r.1 + (k : Int)) ++ numbers rest := rfl
      have first := proper r (List.mem_cons_self ..)
      rw [split_, List.length_append, List.length_map, List.length_range, total,
        ← ih fun next listed => proper next (List.mem_cons_of_mem _ listed)]
      omega

end ProxmoxBackup.RangeUnion
