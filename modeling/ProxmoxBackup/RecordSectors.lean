import ProxmoxBackup.NtfsRecord

/-! The update sequence of an MFT record: on the disk the last two bytes of each sector
are a number, and the record's head keeps the real ones. -/

namespace ProxmoxBackup.RecordSectors

open GoValues BoundedReads NtfsRecord

/-- A sector and its last two bytes. -/
structure Sector where
  core : Bytes
  low : UInt8
  high : UInt8

def plain (sectors : List Sector) : Bytes :=
  sectors.flatMap fun s => s.core ++ [s.low, s.high]

/-- The sectors under an update sequence number. -/
def onDisk (usnLow usnHigh : UInt8) (sectors : List Sector) : Bytes :=
  sectors.flatMap fun s => s.core ++ [usnLow, usnHigh]

/-- What the update sequence array keeps. -/
def saved (sectors : List Sector) : Bytes := sectors.flatMap fun s => [s.low, s.high]

/-- The sectors from the i-th on end at the multiples of the stride. -/
def Spaced (stride : Nat) : Nat → Nat → List Sector → Prop
  | _, _, [] => True
  | i, start, s :: rest =>
      start + s.core.length + 2 = i * stride ∧ Spaced stride (i + 1) (i * stride) rest

theorem Spaced.of_same {stride : Nat} (sectors : List Sector)
    (same : ∀ s ∈ sectors, s.core.length + 2 = stride) (i : Nat) :
    Spaced stride (i + 1) (i * stride) sectors := by
  induction sectors generalizing i with
  | nil => trivial
  | cons s rest ih =>
      have first := same s (List.mem_cons_self ..)
      refine ⟨?_, ih (fun x among => same x (List.mem_cons_of_mem _ among)) (i + 1)⟩
      rw [Nat.succ_mul]
      omega

theorem plain_length {stride : Nat} (sectors : List Sector)
    (same : ∀ s ∈ sectors, s.core.length + 2 = stride) :
    (plain sectors).length = sectors.length * stride := by
  induction sectors with
  | nil => simp [plain]
  | cons s rest ih =>
      have first := same s (List.mem_cons_self ..)
      have behind := ih fun x among => same x (List.mem_cons_of_mem _ among)
      simp only [plain] at behind
      simp only [plain, List.flatMap_cons, List.length_append, List.length_cons, List.length_nil,
        behind, Nat.succ_mul]
      omega

theorem onDisk_length (usnLow usnHigh : UInt8) (sectors : List Sector) :
    (onDisk usnLow usnHigh sectors).length = (plain sectors).length := by
  induction sectors with
  | nil => rfl
  | cons s rest ih =>
      simp only [onDisk, plain] at ih
      simp [onDisk, plain, ih]

theorem saved_length (sectors : List Sector) : (saved sectors).length = 2 * sectors.length := by
  induction sectors with
  | nil => rfl
  | cons s rest ih =>
      simp only [saved] at ih
      simp only [saved, List.flatMap_cons, List.length_append, ih, List.length_cons,
        List.length_nil]
      omega

/-! One sector, and all of them. -/

/-- Two bytes put in the middle of a buffer. -/
theorem set_two (front back : Bytes) (low high newLow newHigh : UInt8) :
    ((front ++ (low :: high :: back)).set front.length newLow).set (front.length + 1) newHigh =
      front ++ (newLow :: newHigh :: back) := by
  simp

/-- The real bytes of the i-th sector are taken from the array. -/
theorem fixSector_written {front area mid before after : Bytes} (back : Bytes)
    {usnLow usnHigh low high : UInt8} {i : Nat} (pre : Bytes) (place : 2 * i = before.length + 2)
    (is : front = area ++ mid)
    (array : area = pre ++ (usnLow :: usnHigh :: (before ++ (low :: high :: after)))) :
    fixSector (front ++ (usnLow :: usnHigh :: back)) pre.length i front.length =
      .ok (some (front ++ (low :: high :: back))) := by
  generalize whole : front ++ (usnLow :: usnHigh :: back) = b
  have firstTail : (readByte b front.length : Outcome Empty UInt8) = .ok usnLow := by
    rw [← whole]
    exact readByte_middle _ _ _ rfl
  have secondTail : (readByte b (front.length + 1) : Outcome Empty UInt8) = .ok usnHigh := by
    have parts : b = (front ++ [usnLow]) ++ (usnHigh :: back) := by simp [← whole]
    rw [parts]
    exact readByte_middle _ _ _ (by simp)
  have firstUsn : (readByte b pre.length : Outcome Empty UInt8) = .ok usnLow := by
    have parts : b = pre ++ (usnLow :: (usnHigh :: (before ++ (low :: high :: after)) ++
        (mid ++ (usnLow :: usnHigh :: back)))) := by simp [← whole, is, array]
    rw [parts]
    exact readByte_middle _ _ _ rfl
  have secondUsn : (readByte b (pre.length + 1) : Outcome Empty UInt8) = .ok usnHigh := by
    have parts : b = (pre ++ [usnLow]) ++ (usnHigh :: ((before ++ (low :: high :: after)) ++
        (mid ++ (usnLow :: usnHigh :: back)))) := by simp [← whole, is, array]
    rw [parts]
    exact readByte_middle _ _ _ (by simp)
  have firstReal : (readByte b (pre.length + 2 * i) : Outcome Empty UInt8) = .ok low := by
    have parts : b = (pre ++ (usnLow :: usnHigh :: before)) ++ (low :: (high :: after ++
        (mid ++ (usnLow :: usnHigh :: back)))) := by simp [← whole, is, array]
    rw [parts]
    exact readByte_middle _ _ _ (by simp; omega)
  have secondReal : (readByte b (pre.length + 2 * i + 1) : Outcome Empty UInt8) = .ok high := by
    have parts : b = (pre ++ (usnLow :: usnHigh :: (before ++ [low]))) ++ (high :: (after ++
        (mid ++ (usnLow :: usnHigh :: back)))) := by simp [← whole, is, array]
    rw [parts]
    exact readByte_middle _ _ _ (by simp; omega)
  have firstAt : byteAt b front.length = .ok usnLow := by
    rw [byteAt, if_neg (by omega)]
    exact firstTail
  have secondAt : byteAt b (front.length + 1) = .ok usnHigh := by
    rw [byteAt, if_neg (by omega)]
    exact secondTail
  unfold fixSector
  rw [firstAt, Outcome.ok_bind, secondAt, Outcome.ok_bind, firstUsn, Outcome.ok_bind, secondUsn,
    Outcome.ok_bind, if_neg (by simp), firstReal, Outcome.ok_bind, secondReal, Outcome.ok_bind,
    Int.toNat_natCast, ← whole, set_two]
  rfl

/-- The fix-ups undo the update sequence; the array stands before every sector's end. -/
theorem fixups_written {stride : Nat} (sectors : List Sector) {pre before area mid : Bytes}
    {usnLow usnHigh : UInt8} {i : Nat} (place : 2 * i = before.length + 2)
    (array : area = pre ++ (usnLow :: usnHigh :: (before ++ saved sectors)))
    (spaced : Spaced stride i (area ++ mid).length sectors) :
    fixups pre.length stride sectors.length i (area ++ mid ++ onDisk usnLow usnHigh sectors) =
      .ok (some (area ++ mid ++ plain sectors)) := by
  induction sectors generalizing i before mid with
  | nil => rfl
  | cons s rest ih =>
      obtain ⟨here, behind⟩ := spaced
      have disk : area ++ mid ++ onDisk usnLow usnHigh (s :: rest) =
          (area ++ (mid ++ s.core)) ++ (usnLow :: usnHigh :: onDisk usnLow usnHigh rest) := by
        simp [onDisk]
      have front : ((area ++ (mid ++ s.core)).length : Int) = i * stride - 2 := by
        simp only [List.length_append] at here ⊢
        rw [← Int.natCast_mul]
        omega
      have kept : area = pre ++ (usnLow :: usnHigh :: (before ++ (s.low :: s.high :: saved rest))) :=
        array
      have fixed : fixSector ((area ++ (mid ++ s.core)) ++
          (usnLow :: usnHigh :: onDisk usnLow usnHigh rest)) pre.length i
            (area ++ (mid ++ s.core)).length =
          .ok (some ((area ++ (mid ++ s.core)) ++
            (s.low :: s.high :: onDisk usnLow usnHigh rest))) :=
        fixSector_written _ pre place rfl kept
      have moved : area = pre ++ (usnLow :: usnHigh :: ((before ++ [s.low, s.high]) ++ saved rest)) := by
        rw [kept]
        simp
      have long : (area ++ (mid ++ s.core ++ [s.low, s.high])).length = i * stride := by
        rw [← here]
        simp only [List.length_append, List.length_cons, List.length_nil]
        omega
      have next : fixups pre.length stride rest.length (i + 1)
          (area ++ (mid ++ s.core ++ [s.low, s.high]) ++ onDisk usnLow usnHigh rest) =
            .ok (some (area ++ (mid ++ s.core ++ [s.low, s.high]) ++ plain rest)) :=
        ih (by simp; omega) moved (by rwa [long])
      have inside : ¬ ((area ++ (mid ++ s.core)).length : Int) + 2 >
          ((area ++ (mid ++ s.core)) ++
            (usnLow :: usnHigh :: onDisk usnLow usnHigh rest)).length := by
        simp only [List.length_append, List.length_cons]
        omega
      have parts : area ++ (mid ++ s.core) ++ (s.low :: s.high :: onDisk usnLow usnHigh rest) =
          area ++ (mid ++ s.core ++ [s.low, s.high]) ++ onDisk usnLow usnHigh rest := by simp
      have whole : area ++ mid ++ plain (s :: rest) =
          area ++ (mid ++ s.core ++ [s.low, s.high]) ++ plain rest := by simp [plain]
      rw [disk, whole, List.length_cons]
      simp only [fixups, ← front]
      rw [if_neg inside, fixed, Outcome.ok_bind, parts]
      exact next

/-- A record comes back as it was before the update sequence was applied, when the array
is in its first sector. -/
theorem record_restored {stride : Nat} {sectors : List Sector} (some_ : sectors ≠ [])
    (same : ∀ s ∈ sectors, s.core.length + 2 = stride) {pre back : Bytes} {usnLow usnHigh : UInt8}
    (parts : plain sectors = pre ++ (usnLow :: usnHigh :: saved sectors) ++ back)
    (early : pre.length + 2 + 2 * sectors.length + 2 ≤ stride) :
    fixups pre.length stride sectors.length 1 (onDisk usnLow usnHigh sectors) =
      .ok (some (plain sectors)) ∧
    ∃ rest, onDisk usnLow usnHigh sectors =
      pre ++ (usnLow :: usnHigh :: saved sectors) ++ rest := by
  obtain ⟨s, others, rfl⟩ := List.exists_cons_of_ne_nil some_
  generalize array : pre ++ (usnLow :: usnHigh :: saved (s :: others)) = area at parts ⊢
  have first := same s (List.mem_cons_self ..)
  have length : area.length = pre.length + 2 + 2 * (s :: others).length := by
    rw [← array]
    simp only [List.length_append, List.length_cons, saved_length]
    omega
  have headIs : area <+: s.core := by
    have whole : area <+: s.core ++ ([s.low, s.high] ++ plain others) := by
      refine ⟨back, ?_⟩
      rw [← parts]
      simp [plain]
    exact List.prefix_of_prefix_length_le whole (List.prefix_append ..) (by omega)
  obtain ⟨mid, core⟩ := headIs
  let trimmed : Sector := ⟨mid, s.low, s.high⟩
  have disk : onDisk usnLow usnHigh (s :: others) =
      area ++ [] ++ onDisk usnLow usnHigh (trimmed :: others) := by
    simp [onDisk, trimmed, ← core]
  have memory : plain (s :: others) = area ++ [] ++ plain (trimmed :: others) := by
    simp [plain, trimmed, ← core]
  have spaced : Spaced stride 1 (area ++ []).length (trimmed :: others) := by
    refine ⟨?_, ?_⟩
    · rw [← core, List.length_append] at first
      simp only [List.append_nil, trimmed, Nat.one_mul]
      omega
    · exact Spaced.of_same others (fun x among => same x (List.mem_cons_of_mem _ among)) 1
  have kept : area = pre ++ (usnLow :: usnHigh :: ([] ++ saved (trimmed :: others))) := array.symm
  have run := fixups_written (trimmed :: others) rfl kept spaced
  refine ⟨?_, onDisk usnLow usnHigh (trimmed :: others), ?_⟩
  · rw [disk, memory]
    exact run
  · rw [disk, List.append_nil]

end ProxmoxBackup.RecordSectors
