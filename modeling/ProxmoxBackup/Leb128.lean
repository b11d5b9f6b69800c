import Mathlib.Data.Nat.Basic
import Mathlib.Tactic.Ring

/-! Unsigned 64-bit numbers in groups of seven bits, the lowest first, with the
high bit set on all but the last; and that reading gives back what was written,
whatever follows. -/

namespace ProxmoxBackup.Leb128

def encodeDigits : Nat → Nat → List UInt8
  | 0, _ => []
  | digits + 1, v =>
      if v < 128 then [UInt8.ofNat v]
      else UInt8.ofNat (v % 128 + 128) :: encodeDigits digits (v / 128)

/-- Ten digits hold 64 bits. -/
def encode (v : Nat) : List UInt8 := encodeDigits 10 v

/-- The bits of each digit are apart from those read before, so they are added.
The tenth digit may only give bit 63. -/
def decodeDigits : Nat → Nat → Nat → List UInt8 → Option (Nat × List UInt8)
  | 0, _, _, _ => none
  | _ + 1, _, _, [] => none
  | digits + 1, shift, v, b :: rest =>
      if shift = 63 ∧ 1 < b.toNat % 128 then none
      else
        let v := v + b.toNat % 128 * 2 ^ shift
        if b.toNat < 128 then some (v, rest)
        else if 64 ≤ shift + 7 then none
        else decodeDigits digits (shift + 7) v rest

def decode (bytes : List UInt8) : Option (Nat × List UInt8) := decodeDigits 10 0 0 bytes

theorem decodeDigits_encodeDigits (digits shift acc v : Nat) (rest : List UInt8)
    (places : shift + 7 * digits = 70) (room : 1 ≤ digits) (fits : v < 2 ^ (64 - shift)) :
    decodeDigits digits shift acc (encodeDigits digits v ++ rest) = some (acc + v * 2 ^ shift, rest) := by
  induction digits generalizing shift acc v with
  | zero => omega
  | succ digits ih =>
      have last : shift = 63 → v ≤ 1 := by
        intro same
        subst same
        simp only [Nat.reduceSub, pow_one] at fits
        omega
      by_cases small : v < 128
      · have digit : (UInt8.ofNat v).toNat = v := by
          rw [UInt8.toNat_ofNat']
          omega
        rw [encodeDigits, if_pos small, List.singleton_append, decodeDigits, digit,
          Nat.mod_eq_of_lt small, if_neg (by
            rintro ⟨same, much⟩
            have := last same
            omega)]
        simp [small]
      · have digit : (UInt8.ofNat (v % 128 + 128)).toNat = v % 128 + 128 := by
          rw [UInt8.toNat_ofNat']
          omega
        have more : shift + 7 < 64 := by
          by_contra full
          have few : 2 ^ (64 - shift) ≤ 2 ^ 7 := Nat.pow_le_pow_right (by omega) (by omega)
          omega
        have lower : v / 128 < 2 ^ (64 - (shift + 7)) := by
          have parts : (2 : Nat) ^ (64 - shift) = 2 ^ (64 - (shift + 7)) * 128 := by
            rw [show 64 - shift = 64 - (shift + 7) + 7 by omega, pow_add]
            norm_num
          rw [Nat.div_lt_iff_lt_mul (by omega), ← parts]
          exact fits
        rw [encodeDigits, if_neg small, List.cons_append, decodeDigits, digit,
          if_neg (by omega), if_neg (by omega), if_neg (by omega),
          ih (shift + 7) _ _ (by omega) (by omega) lower]
        have low : (v % 128 + 128) % 128 = v % 128 := by omega
        have whole : v % 128 * 2 ^ shift + v / 128 * 2 ^ (shift + 7) = v * 2 ^ shift := by
          conv_rhs => rw [← Nat.mod_add_div v 128]
          rw [pow_add]
          ring
        rw [low, Nat.add_assoc, whole]

theorem decode_encode (v : Nat) (rest : List UInt8) (fits : v < 2 ^ 64) :
    decode (encode v ++ rest) = some (v, rest) := by
  have read := decodeDigits_encodeDigits 10 0 0 v rest rfl (by decide) fits
  rw [Nat.zero_add, pow_zero, Nat.mul_one] at read
  exact read

theorem encode_ne_nil (v : Nat) : encode v ≠ [] := by
  unfold encode encodeDigits
  split
  · simp
  · simp

end ProxmoxBackup.Leb128
