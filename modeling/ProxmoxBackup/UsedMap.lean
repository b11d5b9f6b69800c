import Mathlib.Data.List.Basic
import Mathlib.Data.Nat.Bitwise
import Mathlib.Tactic.IntervalCases

/-! usedMap of machinebackuplib and the copy of a segment that has one. A volume's
bytes are counted in an int64 (`fits`), so that no product of the loops wraps around
and offsets are natural numbers here. -/

namespace ProxmoxBackup.UsedMap

def PBS_FIXED_CHUNK_SIZE : Nat := 4 * 1024 * 1024

/-- One bit a cluster, set when the file system uses it. -/
structure usedMap where
  clusterSize : Nat
  bits : List UInt8
  clusters : Nat
  sized : 0 < clusterSize
  covered : bits.length = (clusters + 7) / 8
  fits : clusters * clusterSize < 2 ^ 63

namespace usedMap

variable (m : usedMap)

/-- bits[c/8]&(1<<(c%8)) != 0 -/
def used (c : Nat) : Bool :=
  m.bits.getD (c / 8) 0 &&& (1 <<< UInt8.ofNat (c % 8)) != 0

/-- The loop of anyUsed. -/
def usedFrom (last : Int) (c : Nat) : Bool :=
  if c ≤ last then
    if c % 8 = 0 ∧ (c : Int) + 8 ≤ last + 1 then
      if m.bits.getD (c / 8) 0 ≠ 0 then true else usedFrom last (c + 8)
    else if m.used c then true
    else usedFrom last (c + 1)
  else false
termination_by (last + 1 - c).toNat
decreasing_by all_goals omega

/-- The last cluster of a window; Go's division cuts toward zero. -/
def lastCluster (off n : Nat) : Int := ((off : Int) + n - 1).tdiv m.clusterSize

def anyUsed (off n : Nat) : Bool :=
  if m.lastCluster off n ≥ m.clusters then true
  else m.usedFrom (m.lastCluster off n) (off / m.clusterSize)

/-- The same, one bit after another. -/
def anyUsedBitwise (off n : Nat) : Bool :=
  let first := off / m.clusterSize
  if m.lastCluster off n ≥ m.clusters then true
  else (List.range' first (m.lastCluster off n + 1 - first).toNat).any m.used

/-- The loop of skippable; n is what it has counted. -/
def skippableFrom (length w n : Nat) : Nat :=
  if w < length then
    let k := min PBS_FIXED_CHUNK_SIZE (length - w)
    skippableFrom length (w + PBS_FIXED_CHUNK_SIZE) (if !m.anyUsed w k then n + k else n)
  else n
termination_by length - w
decreasing_by simp [PBS_FIXED_CHUNK_SIZE]; omega

def skippable (length : Nat) : Nat := m.skippableFrom length 0 0

end usedMap

/-- clear(data[start:stop]) -/
def clear (data : List UInt8) (start stop : Nat) : List UInt8 :=
  data.mapIdx fun i b => if start ≤ i ∧ i < stop then 0 else b

namespace usedMap

variable (m : usedMap)

/-- The loop of zeroFree over data read from off. -/
def zeroFrom (off c : Nat) (data : List UInt8) : List UInt8 :=
  let stop := off + data.length
  if c * m.clusterSize < stop ∧ c < m.clusters then
    if m.used c then zeroFrom off (c + 1) data
    else
      let low := max (c * m.clusterSize) off
      let high := min ((c + 1) * m.clusterSize) stop
      zeroFrom off (c + 1) (clear data (low - off) (high - off))
  else data
termination_by m.clusters - c

def zeroFree (data : List UInt8) (off : Nat) : List UInt8 :=
  m.zeroFrom off (off / m.clusterSize) data

end usedMap

/-! The branch of copySegments for a segment with a map. How the read of a window and
the writing of its zeros turn out is given. -/

section

variable {Err : Type} (errCopyStopped : Err) (readResilient : Nat → Nat → Option Err)
  (emitZeros : Nat → Nat → Bool) (m : usedMap)

/-- The error it ends with, and FreeSkipped. -/
def copyFrom (length w FreeSkipped : Nat) : Option Err × Nat :=
  if w < length then
    let n := min PBS_FIXED_CHUNK_SIZE (length - w)
    if m.anyUsed w n then
      match readResilient w n with
      | some err => (some err, FreeSkipped)
      | none => copyFrom length (w + PBS_FIXED_CHUNK_SIZE) FreeSkipped
    else if emitZeros w n then
      copyFrom length (w + PBS_FIXED_CHUNK_SIZE) (FreeSkipped + n)
    else (some errCopyStopped, FreeSkipped)
  else (none, FreeSkipped)
termination_by length - w
decreasing_by all_goals simp [PBS_FIXED_CHUNK_SIZE]; omega

end

/-! One byte of the map. -/

theorem bit_of_byte (b : UInt8) (i : Nat) (low : i < 8) :
    (b &&& (1 <<< UInt8.ofNat i) != 0) = b.toNat.testBit i := by
  have shift : (1 <<< UInt8.ofNat i : UInt8).toNat = 2 ^ i := by
    interval_cases i <;> rfl
  have masked : (b &&& (1 <<< UInt8.ofNat i)).toNat = (b.toNat.testBit i).toNat * 2 ^ i := by
    rw [UInt8.toNat_and, shift, Nat.and_two_pow]
  cases bit : b.toNat.testBit i with
  | false =>
      rw [bit] at masked
      have zero : b &&& (1 <<< UInt8.ofNat i) = 0 := UInt8.toNat_inj.mp (by simpa using masked)
      rw [zero]
      rfl
  | true =>
      rw [bit] at masked
      apply bne_iff_ne.mpr
      intro zero
      rw [zero] at masked
      have positive : 0 < 2 ^ i := Nat.two_pow_pos i
      have same : 0 = 1 * 2 ^ i := masked
      omega

theorem byte_zero (b : UInt8) : b = 0 ↔ ∀ i < 8, (b &&& (1 <<< UInt8.ofNat i) != 0) = false := by
  constructor
  · rintro rfl i low
    rw [bit_of_byte 0 i low]
    exact Nat.zero_testBit i
  · intro clear_
    apply UInt8.toNat_inj.mp
    apply Nat.eq_of_testBit_eq
    intro i
    by_cases low : i < 8
    · rw [← bit_of_byte b i low, clear_ i low]
      exact (Nat.zero_testBit i).symm
    · have small : b.toNat < 2 ^ i := Nat.lt_of_lt_of_le b.toNat_lt (Nat.pow_le_pow_right (by omega) (by omega))
      rw [Nat.testBit_lt_two_pow small]
      exact (Nat.zero_testBit i).symm

namespace usedMap

variable (m : usedMap)

/-- A whole byte of the map is clear when its eight clusters are free. -/
theorem byte_clear (c : Nat) (aligned : c % 8 = 0) :
    m.bits.getD (c / 8) 0 = 0 ↔ ∀ i < 8, m.used (c + i) = false := by
  rw [byte_zero]
  apply forall₂_congr
  intro i low
  have place : (c + i) / 8 = c / 8 ∧ (c + i) % 8 = i := by omega
  unfold used
  rw [place.1, place.2]

/-- A byte at a time or not, the scan looks at every cluster of the window. -/
theorem usedFrom_iff (last : Int) (c : Nat) :
    m.usedFrom last c = true ↔ ∃ k : Nat, c ≤ k ∧ (k : Int) ≤ last ∧ m.used k = true := by
  fun_induction m.usedFrom last c with
  | case1 c within whole some_ =>
      refine ⟨fun _ => ?_, fun _ => rfl⟩
      by_contra none_
      apply some_
      apply (m.byte_clear c whole.1).mpr
      intro i low
      by_contra set_
      exact none_ ⟨c + i, by omega, by omega, by simpa using set_⟩
  | case2 c within whole clear_ ih =>
      have free := (m.byte_clear c whole.1).mp (not_not.mp clear_)
      rw [ih]
      constructor
      · rintro ⟨k, low, high, used_⟩
        exact ⟨k, by omega, high, used_⟩
      · rintro ⟨k, low, high, used_⟩
        refine ⟨k, ?_, high, used_⟩
        by_contra inside
        have clear_ := free (k - c) (by omega)
        rw [show c + (k - c) = k by omega, used_] at clear_
        cases clear_
  | case3 c within part used_ => exact ⟨fun _ => ⟨c, Nat.le_refl c, within, used_⟩, fun _ => rfl⟩
  | case4 c within part free ih =>
      rw [ih]
      constructor
      · rintro ⟨k, low, high, used_⟩
        exact ⟨k, by omega, high, used_⟩
      · rintro ⟨k, low, high, used_⟩
        refine ⟨k, ?_, high, used_⟩
        have other : k ≠ c := by
          rintro rfl
          exact free used_
        omega
  | case5 c past =>
      constructor
      · intro wrong
        cases wrong
      · rintro ⟨k, low, high, -⟩
        omega

theorem anyUsed_bitwise (off n : Nat) : m.anyUsed off n = m.anyUsedBitwise off n := by
  unfold anyUsed anyUsedBitwise
  split
  · rfl
  · apply Bool.eq_iff_iff.mpr
    rw [usedFrom_iff, List.any_eq_true]
    constructor
    · rintro ⟨k, low, high, used_⟩
      exact ⟨k, List.mem_range'_1.mpr (by omega), used_⟩
    · rintro ⟨k, member, used_⟩
      have bounds := List.mem_range'_1.mp member
      exact ⟨k, by omega, by omega, used_⟩

/-- No used cluster: the window lies in clusters of the map, all free. -/
theorem anyUsed_false {off n : Nat} (none_ : m.anyUsed off n = false) :
    m.lastCluster off n < m.clusters ∧
      ∀ c, off / m.clusterSize ≤ c → (c : Int) ≤ m.lastCluster off n → m.used c = false := by
  unfold anyUsed at none_
  split at none_
  · cases none_
  · refine ⟨by omega, fun c low high => ?_⟩
    by_contra used_
    have some_ := (m.usedFrom_iff _ _).mpr ⟨c, low, high, by simpa using used_⟩
    rw [none_] at some_
    cases some_

end usedMap

/-! Clearing. -/

@[simp] theorem clear_length (data : List UInt8) (start stop : Nat) :
    (clear data start stop).length = data.length := by
  simp [clear]

theorem clear_get (data : List UInt8) (start stop i : Nat) :
    (clear data start stop)[i]? =
      data[i]?.map fun b => if start ≤ i ∧ i < stop then 0 else b := by
  simp [clear]

namespace usedMap

variable (m : usedMap)

@[simp] theorem zeroFrom_length (off c : Nat) (data : List UInt8) :
    (m.zeroFrom off c data).length = data.length := by
  fun_induction m.zeroFrom off c data <;> simp_all

/-- The part of a cluster that the loop clears is the bytes that lie in it. -/
theorem slice_is_cluster (off size c i : Nat) (inside : i < size) (reached : off / m.clusterSize ≤ c) :
    (max (c * m.clusterSize) off - off ≤ i ∧
      i < min ((c + 1) * m.clusterSize) (off + size) - off) ↔ (off + i) / m.clusterSize = c := by
  have positive := m.sized
  have behind : off < (c + 1) * m.clusterSize :=
    (Nat.div_lt_iff_lt_mul positive).mp (Nat.lt_succ_of_le reached)
  rw [Nat.div_eq_iff positive]
  rw [Nat.add_mul, Nat.one_mul] at *
  omega

/-- What the loop leaves: the bytes in free clusters from c on are zeros. -/
theorem zeroFrom_get (off c : Nat) (data : List UInt8) (reached : off / m.clusterSize ≤ c) (i : Nat)
    (inside : i < data.length) :
    (m.zeroFrom off c data)[i]? = if c ≤ (off + i) / m.clusterSize ∧
      (off + i) / m.clusterSize < m.clusters ∧ m.used ((off + i) / m.clusterSize) = false
      then some 0 else data[i]? := by
  fun_induction m.zeroFrom off c data with
  | case1 c data stop within used_ ih =>
      rw [ih (by omega) inside]
      congr 1
      apply propext
      constructor
      · rintro ⟨low, rest⟩
        exact ⟨by omega, rest⟩
      · rintro ⟨low, high, free⟩
        refine ⟨?_, high, free⟩
        by_contra here
        rw [show (off + i) / m.clusterSize = c by omega, used_] at free
        cases free
  | case2 c data stop within free low high ih =>
      rw [ih (by omega) (by simpa using inside), clear_get]
      have cluster := m.slice_is_cluster off data.length c i inside reached
      have free : m.used c = false := by simpa using free
      rw [List.getElem?_eq_getElem inside, Option.map_some]
      by_cases here : (off + i) / m.clusterSize = c
      · -- this cluster's byte is cleared now and not looked at again
        rw [if_neg (by omega), if_pos (cluster.mpr here), here,
          if_pos ⟨Nat.le_refl c, within.2, free⟩]
      · rw [if_neg (fun inside => here (cluster.mp inside))]
        congr 1
        apply propext
        constructor
        · rintro ⟨low, rest⟩
          exact ⟨by omega, rest⟩
        · rintro ⟨low, rest⟩
          exact ⟨by omega, rest⟩
  | case3 c data stop past =>
      rw [if_neg]
      rintro ⟨low, high, -⟩
      apply past
      refine ⟨?_, by omega⟩
      have starts : c * m.clusterSize ≤ off + i := (Nat.le_div_iff_mul_le m.sized).mp low
      omega

/-- A window without a used cluster is zeros once it has been through zeroFree. -/
theorem zeroFree_of_unused (off : Nat) (data : List UInt8)
    (none_ : m.anyUsed off data.length = false) :
    m.zeroFree data off = List.replicate data.length 0 := by
  obtain ⟨within, free⟩ := m.anyUsed_false none_
  unfold lastCluster at within free
  apply List.ext_getElem?
  intro i
  by_cases inside : i < data.length
  · have low : off / m.clusterSize ≤ (off + i) / m.clusterSize :=
      Nat.div_le_div_right (Nat.le_add_right off i)
    have high : (((off + i) / m.clusterSize : Nat) : Int) ≤
        ((off : Int) + data.length - 1).tdiv m.clusterSize := by
      have same : (off : Int) + data.length - 1 = ((off + data.length - 1 : Nat) : Int) := by omega
      rw [same]
      apply Int.ofNat_le.mpr
      exact Nat.div_le_div_right (by omega)
    unfold zeroFree
    rw [m.zeroFrom_get off _ data (Nat.le_refl _) i inside, List.getElem?_replicate, if_pos inside]
    exact if_pos ⟨low, by omega, free _ low high⟩
  · rw [List.getElem?_eq_none (by unfold zeroFree; simp; omega),
      List.getElem?_eq_none (by simp; omega)]

end usedMap

/-! The copy. -/

section

variable {Err : Type} (errCopyStopped : Err) (readResilient : Nat → Nat → Option Err)
  (emitZeros : Nat → Nat → Bool) (m : usedMap)

/-- The copy and the announcement go through the same windows. -/
theorem copyFrom_counts (length w counted total : Nat)
    (copied : copyFrom errCopyStopped readResilient emitZeros m length w counted = (none, total)) :
    total = m.skippableFrom length w counted := by
  fun_induction copyFrom errCopyStopped readResilient emitZeros m length w counted with
  | case1 w counted within n some_ err failed => cases copied
  | case2 w counted within n some_ read ih =>
      rw [usedMap.skippableFrom, if_pos within]
      show total = m.skippableFrom length (w + PBS_FIXED_CHUNK_SIZE)
        (if (!m.anyUsed w n) = true then counted + n else counted)
      rw [some_]
      exact ih copied
  | case3 w counted within n none_ written ih =>
      rw [usedMap.skippableFrom, if_pos within]
      show total = m.skippableFrom length (w + PBS_FIXED_CHUNK_SIZE)
        (if (!m.anyUsed w n) = true then counted + n else counted)
      rw [Bool.not_eq_true] at none_
      rw [none_]
      exact ih copied
  | case4 w counted within n none_ stopped => cases copied
  | case5 w counted done =>
      cases copied
      rw [usedMap.skippableFrom, if_neg done]

end

/-- What is left out is what would have been zeros, found bit by bit or a byte at a
time, and a segment copied to its end leaves out what was announced. -/
theorem free_space_left_out (m : usedMap) :
    (∀ off data, m.anyUsed off data.length = false →
      m.zeroFree data off = List.replicate data.length 0) ∧
    (∀ off n, m.anyUsed off n = m.anyUsedBitwise off n) ∧
    ∀ (Err : Type) (errCopyStopped : Err) readResilient emitZeros length total,
      copyFrom errCopyStopped readResilient emitZeros m length 0 0 = (none, total) →
        total = m.skippable length := by
  refine ⟨m.zeroFree_of_unused, m.anyUsed_bitwise, ?_⟩
  intro Err errCopyStopped readResilient emitZeros length total copied
  exact copyFrom_counts errCopyStopped readResilient emitZeros m length 0 0 total copied

/-- Clusters 0 to 7 free and 8 used, of two bytes each. -/
def halfFree : usedMap where
  clusterSize := 2
  bits := [0, 1]
  clusters := 9
  sized := by decide
  covered := by decide
  fits := by decide

theorem halfFree_unused : halfFree.anyUsed 3 4 = false ∧ halfFree.anyUsed 0 10 = false := by
  constructor <;>
  simp [usedMap.anyUsed, usedMap.usedFrom, usedMap.lastCluster, usedMap.used, halfFree]

theorem halfFree_left_out : halfFree.zeroFree [1, 2, 3, 4] 3 = [0, 0, 0, 0] ∧
    10 = halfFree.skippable 10 := by
  have known := free_space_left_out halfFree
  refine ⟨known.1 3 [1, 2, 3, 4] halfFree_unused.1, ?_⟩
  apply known.2.2 Unit () (fun _ _ => none) (fun _ _ => true) 10 10
  simp [copyFrom, halfFree_unused.2, PBS_FIXED_CHUNK_SIZE]

end ProxmoxBackup.UsedMap
