import Mathlib.Data.List.Basic
import ProxmoxBackup.GoValues

/-! A ring of the last items seen. It grows up to its limit; then each item takes the place
of the oldest one. A ring without room has no oldest one. -/
namespace ProxmoxBackup.RingBuffer

open GoValues

variable {α : Type}

/-- `start` is the place of the oldest item once the ring is full. -/
structure Ring (α : Type) where
  items : List α
  start : Nat

def Ring.empty : Ring α := ⟨[], 0⟩

/-- An item at the end, or over the oldest one: an index out of range if there is none. -/
def Ring.push {Err : Type} (limit : Nat) (x : α) (ring : Ring α) : Outcome Err (Ring α) :=
  if ring.items.length < limit then .ok { ring with items := ring.items ++ [x] }
  else if ring.start < ring.items.length then
    .ok ⟨ring.items.set ring.start x, (ring.start + 1) % limit⟩
  else .panicked

/-- The oldest first. -/
def Ring.lines (ring : Ring α) : List α := ring.items.drop ring.start ++ ring.items.take ring.start

/-- The last `limit` items of a list. -/
def lastOf (limit : Nat) (xs : List α) : List α := xs.drop (xs.length - limit)

structure Ring.Keeps (limit : Nat) (xs : List α) (ring : Ring α) : Prop where
  lines : ring.lines = lastOf limit xs
  filled : ring.items.length = min limit xs.length
  start : ring.start < limit
  growing : ring.items.length < limit → ring.start = 0

theorem lastOf_length (limit : Nat) (xs : List α) : (lastOf limit xs).length = min limit xs.length := by
  rw [lastOf, List.length_drop]
  omega

theorem lastOf_all {limit : Nat} {xs : List α} (fits : xs.length ≤ limit) : lastOf limit xs = xs := by
  rw [lastOf, Nat.sub_eq_zero_of_le fits, List.drop_zero]

theorem lastOf_snoc {limit : Nat} {xs : List α} (full : limit ≤ xs.length) (some_ : 0 < limit) (x : α) :
    lastOf limit (xs ++ [x]) = (lastOf limit xs).tail ++ [x] := by
  have moved : (xs ++ [x]).length - limit = xs.length - limit + 1 := by
    rw [List.length_append, List.length_singleton]
    omega
  rw [lastOf, lastOf, moved, List.tail_drop, List.drop_append_of_le_length (by omega)]

theorem keeps_empty {limit : Nat} (some_ : 0 < limit) :
    Ring.Keeps limit [] (Ring.empty : Ring α) where
  lines := by simp [Ring.lines, Ring.empty, lastOf]
  filled := (Nat.min_zero limit).symm
  start := some_
  growing _ := rfl

theorem set_rotated {left right : List α} (old x : α) (limit : Nat)
    (full : (left ++ old :: right).length = limit) :
    (Ring.mk (left ++ x :: right) ((left.length + 1) % limit)).lines = right ++ left ++ [x] := by
  rw [List.length_append, List.length_cons] at full
  cases right with
  | nil =>
      have wraps : (left.length + 1) % limit = 0 := by
        rw [← full]
        exact Nat.mod_self _
      rw [wraps, Ring.lines, List.drop_zero, List.take_zero, List.append_nil, List.nil_append]
  | cons next right =>
      have inside : (left.length + 1) % limit = left.length + 1 := by
        apply Nat.mod_eq_of_lt
        rw [← full, List.length_cons]
        omega
      have split_ : left ++ x :: next :: right = (left ++ [x]) ++ next :: right := by simp
      have behind : (left ++ [x]).length = left.length + 1 := by simp
      rw [inside, Ring.lines, split_, ← behind, List.drop_left, List.take_left, List.append_assoc]

theorem push_keeps {Err : Type} {limit : Nat} {xs : List α} {ring : Ring α}
    (keeps : ring.Keeps limit xs) (x : α) :
    ∃ next, (ring.push limit x : Outcome Err (Ring α)) = .ok next ∧ next.Keeps limit (xs ++ [x]) := by
  have some_ : 0 < limit := Nat.lt_of_le_of_lt (Nat.zero_le _) keeps.start
  have filled := keeps.filled
  have lines := keeps.lines
  rw [Ring.push]
  by_cases room : ring.items.length < limit
  · -- It still grows, from the place 0.
    have first := keeps.growing room
    rw [Ring.lines, first, List.drop_zero, List.take_zero, List.append_nil,
      lastOf_all (by omega)] at lines
    rw [if_pos room]
    refine ⟨_, rfl, ?_, ?_, keeps.start, ?_⟩
    · rw [Ring.lines, first, List.drop_zero, List.take_zero, List.append_nil, lines]
      refine (lastOf_all ?_).symm
      rw [List.length_append, List.length_singleton]
      omega
    · simp only [List.length_append, List.length_singleton]
      omega
    · exact fun _ => first
  · have full : ring.items.length = limit := by omega
    have within : ring.start < ring.items.length := by
      rw [full]
      exact keeps.start
    rw [if_neg room, if_pos within]
    have behind := List.drop_eq_getElem_cons within
    have split_ : ring.items = ring.items.take ring.start ++
        ring.items[ring.start] :: ring.items.drop (ring.start + 1) := by
      rw [← behind, List.take_append_drop]
    have length : (ring.items.take ring.start).length = ring.start :=
      List.length_take_of_le (Nat.le_of_lt within)
    refine ⟨_, rfl, ?_, ?_, Nat.mod_lt _ some_, ?_⟩
    · have written : ring.items.set ring.start x =
          ring.items.take ring.start ++ x :: ring.items.drop (ring.start + 1) :=
        List.set_eq_take_append_cons_drop.trans (if_pos within)
      have rotated := set_rotated ring.items[ring.start] x limit (split_ ▸ full)
      rw [length] at rotated
      rw [written, rotated, lastOf_snoc (by omega) some_, ← lines, Ring.lines]
      rw [behind, List.cons_append, List.tail_cons]
    · simp only [List.length_set, List.length_append, List.length_singleton]
      omega
    · intro growing
      simp only [List.length_set] at growing
      exact absurd growing room

end ProxmoxBackup.RingBuffer
