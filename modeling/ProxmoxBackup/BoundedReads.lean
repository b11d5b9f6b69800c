import ProxmoxBackup.GoValues
import ProxmoxBackup.LittleEndian
import ProxmoxBackup.Slices

/-! Reads of little-endian numbers and of slices from a list of bytes, which panic
where they leave it, and what they give in a list put together from parts. -/

namespace ProxmoxBackup.BoundedReads

open GoValues LittleEndian Slices

variable {Err : Type}

def readByte (b : List UInt8) (at_ : Nat) : Outcome Err UInt8 :=
  if inside : at_ < b.length then .ok (b.get ⟨at_, inside⟩) else .panicked

/-- A number of `width` bytes at an offset. -/
def readNumber (b : List UInt8) (off width : Nat) : Outcome Err Nat :=
  if off + width ≤ b.length then .ok (decode (slice b off width)) else .panicked

/-- b[low:high] -/
def cut (b : List UInt8) (low high : Nat) : Outcome Err (List UInt8) :=
  if low ≤ high ∧ high ≤ b.length then .ok (slice b low (high - low)) else .panicked

theorem readByte_inside {b : List UInt8} {at_ : Nat} (inside : at_ < b.length) :
    (readByte b at_ : Outcome Err UInt8) = .ok (b.get ⟨at_, inside⟩) := dif_pos inside

theorem readNumber_inside {b : List UInt8} {off width : Nat} (inside : off + width ≤ b.length) :
    (readNumber b off width : Outcome Err Nat) = .ok (decode (slice b off width)) := if_pos inside

theorem cut_inside {b : List UInt8} {low high : Nat} (order : low ≤ high)
    (inside : high ≤ b.length) :
    (cut b low high : Outcome Err (List UInt8)) = .ok (slice b low (high - low)) :=
  if_pos ⟨order, inside⟩

/-- A number read is below the bound its width gives. -/
theorem decode_lt (bytes : List UInt8) : decode bytes < 256 ^ bytes.length := by
  induction bytes with
  | nil => exact Nat.one_pos
  | cons byte rest ih =>
      have small := byte.toNat_lt
      rw [decode, List.length_cons, pow_succ']
      omega

theorem slice_length {b : List UInt8} {off width : Nat} (inside : off + width ≤ b.length) :
    (slice b off width).length = width := by
  rw [slice, List.length_take, List.length_drop]
  omega

theorem readNumber_meets {b : List UInt8} {off width : Nat} (inside : off + width ≤ b.length) :
    (readNumber b off width : Outcome Err Nat).Meets (· < 256 ^ width) := by
  rw [readNumber_inside inside]
  have bound := decode_lt (slice b off width)
  rw [slice_length inside] at bound
  exact .ok bound

theorem readByte_meets {b : List UInt8} {at_ : Nat} (inside : at_ < b.length) :
    (readByte b at_ : Outcome Err UInt8).Meets (fun _ => True) := by
  rw [readByte_inside inside]
  exact .ok trivial

theorem cut_meets {b : List UInt8} {low high : Nat} (order : low ≤ high)
    (inside : high ≤ b.length) :
    (cut b low high : Outcome Err (List UInt8)).Meets (·.length = high - low) := by
  rw [cut_inside order inside]
  exact .ok (slice_length (by omega))

/-! Reads through the parts of a list. -/

theorem slice_behind (front back : List UInt8) {off : Nat} (width : Nat)
    (behind : front.length ≤ off) :
    slice (front ++ back) off width = slice back (off - front.length) width := by
  have split := slice_append_right front back (off - front.length) width
  rwa [Nat.add_sub_cancel' behind] at split

theorem slice_before (front back : List UInt8) {off width : Nat}
    (inside : off + width ≤ front.length) :
    slice (front ++ back) off width = slice front off width :=
  slice_append_left front back off width inside

theorem slice_first (front back : List UInt8) : slice (front ++ back) 0 front.length = front := by
  rw [slice, List.drop_zero, List.take_append_length]

theorem readNumber_behind (front back : List UInt8) {off : Nat} (width : Nat)
    (behind : front.length ≤ off) :
    (readNumber (front ++ back) off width : Outcome Err Nat) =
      readNumber back (off - front.length) width := by
  unfold readNumber
  rw [slice_behind front back width behind, List.length_append]
  by_cases inside : off + width ≤ front.length + back.length
  · rw [if_pos inside, if_pos (by omega)]
  · rw [if_neg inside, if_neg (by omega)]

/-- What was written as a number is read as it. -/
theorem readNumber_first (back : List UInt8) {width n : Nat} (fits : n < 256 ^ width) :
    (readNumber (encode width n ++ back) 0 width : Outcome Err Nat) = .ok n := by
  have first := slice_first (encode width n) back
  rw [encode_length] at first
  rw [readNumber_inside (by simp), first, decode_encode width n fits]

theorem cut_behind (front back : List UInt8) {low high : Nat} (behind : front.length ≤ low)
    (order : low ≤ high) :
    (cut (front ++ back) low high : Outcome Err (List UInt8)) =
      cut back (low - front.length) (high - front.length) := by
  unfold cut
  rw [slice_behind front back _ behind, List.length_append]
  by_cases inside : low ≤ high ∧ high ≤ front.length + back.length
  · rw [if_pos inside, if_pos (by omega), Nat.sub_sub_sub_cancel_right behind]
  · rw [if_neg inside, if_neg (by omega)]

theorem cut_first (front back : List UInt8) :
    (cut (front ++ back) 0 front.length : Outcome Err (List UInt8)) = .ok front := by
  rw [cut_inside (Nat.zero_le _) (by simp), Nat.sub_zero, slice_first]

theorem readByte_behind (front back : List UInt8) {at_ : Nat} (behind : front.length ≤ at_) :
    (readByte (front ++ back) at_ : Outcome Err UInt8) = readByte back (at_ - front.length) := by
  unfold readByte
  by_cases inside : at_ < (front ++ back).length
  · have within : at_ - front.length < back.length := by
      rw [List.length_append] at inside
      omega
    rw [dif_pos inside, dif_pos within]
    congr 1
    simp only [List.get_eq_getElem]
    exact List.getElem_append_right behind
  · rw [dif_neg inside, dif_neg (by rw [List.length_append] at inside; omega)]

/-! Parts by where they start. -/

theorem readNumber_middle (front back : List UInt8) {off width n : Nat} (start : off = front.length)
    (fits : n < 256 ^ width) :
    (readNumber (front ++ (encode width n ++ back)) off width : Outcome Err Nat) = .ok n := by
  rw [readNumber_behind _ _ _ (Nat.le_of_eq start.symm), start, Nat.sub_self]
  exact readNumber_first back fits

theorem readByte_middle (front back : List UInt8) (byte : UInt8) {at_ : Nat}
    (start : at_ = front.length) :
    (readByte (front ++ (byte :: back)) at_ : Outcome Err UInt8) = .ok byte := by
  rw [readByte_behind _ _ (Nat.le_of_eq start.symm), start, Nat.sub_self]
  rfl

theorem cut_middle (front middle back : List UInt8) {low high : Nat} (start : low = front.length)
    (stop : high = front.length + middle.length) :
    (cut (front ++ (middle ++ back)) low high : Outcome Err (List UInt8)) = .ok middle := by
  rw [cut_behind _ _ (Nat.le_of_eq start.symm) (by omega), start, stop, Nat.sub_self,
    Nat.add_sub_cancel_left]
  exact cut_first middle back

/-- A number among zeros is zero. -/
theorem decode_zeros (n : Nat) : decode (List.replicate n 0) = 0 := by
  induction n with
  | zero => rfl
  | succ n ih => simp [List.replicate_succ, decode, ih]

theorem slice_zeros {n off width : Nat} (inside : off + width ≤ n) :
    slice (List.replicate n (0 : UInt8)) off width = List.replicate width 0 := by
  rw [slice, List.drop_replicate, List.take_replicate]
  congr 1
  omega

end ProxmoxBackup.BoundedReads
