import Mathlib.Data.List.Basic

/-! Slices of a byte stream by offset and size, and how they read through the
parts a stream is put together from. -/

namespace ProxmoxBackup.Slices

variable {α : Type*}

def slice (stream : List α) (offset size : Nat) : List α :=
  (stream.drop offset).take size

/-- What is written behind a slice does not change it. -/
theorem slice_append_left (front back : List α) (offset size : Nat)
    (inside : offset + size ≤ front.length) :
    slice (front ++ back) offset size = slice front offset size := by
  have within : size ≤ (front.drop offset).length := by
    rw [List.length_drop]
    omega
  have start : offset ≤ front.length := by omega
  rw [slice, List.drop_append_of_le_length start, List.take_append_of_le_length within, slice]

theorem slice_append_right (front back : List α) (offset size : Nat) :
    slice (front ++ back) (front.length + offset) size = slice back offset size := by
  rw [slice, ← List.drop_drop, List.drop_append_length, slice]

theorem slice_whole (stream : List α) : slice stream 0 stream.length = stream := by
  simp [slice]

/-- A part that two streams share reads the same in both. -/
theorem slice_shared (front front' middle back back' : List α) (offset size : Nat)
    (inside : offset + size ≤ middle.length) :
    slice (front ++ middle ++ back) (front.length + offset) size =
      slice (front' ++ middle ++ back') (front'.length + offset) size := by
  rw [List.append_assoc, List.append_assoc, slice_append_right, slice_append_right,
    slice_append_left _ _ _ _ inside, slice_append_left _ _ _ _ inside]

end ProxmoxBackup.Slices
