import Mathlib.Data.List.Basic
import Mathlib.Tactic.Ring
import Mathlib.Tactic.NormNum

/-! Fixed-width little-endian integers as byte lists. Decoding an encoding gives
the number back modulo `256 ^ width`, hence exactly below that bound. -/

namespace ProxmoxBackup.LittleEndian

def encode : Nat → Nat → List UInt8
  | 0, _ => []
  | width + 1, n => UInt8.ofNat n :: encode width (n / 256)

def decode : List UInt8 → Nat
  | [] => 0
  | byte :: rest => byte.toNat + 256 * decode rest

@[simp] theorem encode_length (width n : Nat) : (encode width n).length = width := by
  induction width generalizing n with
  | zero => rfl
  | succ width ih => simp [encode, ih]

theorem decode_encode_mod (width n : Nat) : decode (encode width n) = n % 256 ^ width := by
  induction width generalizing n with
  | zero => simp [encode, decode, Nat.mod_one]
  | succ width ih =>
      have byte : (UInt8.ofNat n).toNat = n % 256 := by simp
      rw [encode, decode, ih, byte, pow_succ', Nat.mod_mul]

theorem decode_encode (width n : Nat) (fits : n < 256 ^ width) :
    decode (encode width n) = n := by
  rw [decode_encode_mod, Nat.mod_eq_of_lt fits]

theorem encode_decode (bytes : List UInt8) : encode bytes.length (decode bytes) = bytes := by
  induction bytes with
  | nil => rfl
  | cons byte rest ih =>
      have small : byte.toNat < 256 := byte.toNat_lt
      have low : UInt8.ofNat (byte.toNat + 256 * decode rest) = byte := by
        apply UInt8.toNat.inj
        simp
      have high : (byte.toNat + 256 * decode rest) / 256 = decode rest := by omega
      rw [List.length_cons, encode, decode, low, high, ih]

end ProxmoxBackup.LittleEndian
