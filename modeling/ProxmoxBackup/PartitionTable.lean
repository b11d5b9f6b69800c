import ProxmoxBackup.FreeSpaceSafe
import Mathlib.Tactic.IntervalCases

/-! The partition table of a disk (gui/imagefs/partitions.go): a GPT whose entries are
numbers of sectors, or an MBR with a chain of logical partitions, or a file system on the
whole disk. -/
namespace ProxmoxBackup.PartitionTable

open GoValues FreeSpaceMap FreeSpaceSafe

/-- b[lo:hi] -/
def slice (b : Buffer) (lo hi : Nat) : Outcome MapError Buffer :=
  if lo ≤ hi ∧ hi ≤ b.length then .ok ⟨hi - lo, fun i => b.byte (lo + i)⟩ else .panicked

inductive FS where
  | none | ntfs | bitlocker | fat32 | fat | exfat | xfs | lvm | swap | ext
  deriving DecidableEq

inductive Scheme where
  | gpt | mbr | none
  deriving DecidableEq

/-- The type is named by the bytes it is in the table. -/
structure Partition where
  number : Nat
  start : Int
  size : Int
  scheme : Scheme
  type : List UInt8
  name : List Nat
  fs : FS

/-- What a read of `len` bytes at `off` gives. -/
def bytesAt (r : Reader) (off : Int) (len : Nat) : Buffer :=
  if off < 0 then ⟨0, fun _ => 0⟩
  else ⟨min len (r.image.length - off.toNat), fun i => r.image.byte (off.toNat + i)⟩

def ascii (s : String) : List UInt8 := s.toList.map fun c => c.toNat.toUInt8

def bytesOf (b : Buffer) (off len : Nat) : List UInt8 := (List.range len).map fun i => b.byte (off + i)

def has (b : Buffer) (off : Nat) (s : String) : Bool :=
  b.length ≥ off + (ascii s).length && bytesOf b off (ascii s).length = ascii s

/-- Probe, of the bytes it has read. -/
def Probe (b : Buffer) : FS :=
  if has b 3 "NTFS    " then .ntfs
  else if has b 3 "-FVE-FS-" then .bitlocker
  else if has b 82 "FAT32   " then .fat32
  else if has b 54 "FAT12   " || has b 54 "FAT16   " || has b 54 "FAT     " then .fat
  else if has b 3 "EXFAT   " then .exfat
  else if has b 0 "XFSB" then .xfs
  else if has b 512 "LABELONE" || has b 0 "LABELONE" then .lvm
  else if has b 4086 "SWAPSPACE2" || has b 4086 "SWAP-SPACE" then .swap
  else if b.length ≥ 1024 + 58 && little b (1024 + 56) 2 = 0xEF53 then .ext
  else .none

def maxInt64 : Int := 2 ^ 63 - 1

/-- The first bytes of an io.SectionReader. -/
def sectionHead (r : Reader) (start size : Int) : Buffer :=
  let limit := if start ≤ int64 (maxInt64 - size) then int64 (start + size) else maxInt64
  let room := int64 (limit - start)
  if room ≤ 0 then ⟨0, fun _ => 0⟩ else bytesAt r start (min 4096 room.toNat)

/-! GPT. -/

/-- The entry table: its sectors, entries, the size of one, and its bytes. -/
structure Table where
  sector : Nat
  count : Nat
  size : Nat
  buf : Buffer

/-- How many bytes are made for the table. -/
def tableBytes (hdr : Buffer) : Nat :=
  let count := little hdr 80 4
  let size := little hdr 84 4
  if size < 128 ∨ count > 1024 then 0 else count * size

def readTable (r : Reader) (hdr : Buffer) (sector : Nat) : Outcome MapError Table := do
  let entryLBA ← le 8 hdr 72
  let count ← le 4 hdr 80
  let size ← le 4 hdr 84
  if size < 128 ∨ count > 1024 then .error .read
  else do
    let table ← makeBytes (count * size)
    let buf ← r.readSome table (int64 (int64 entryLBA * sector))
    return ⟨sector, count, size, buf⟩

/-- An entry's first and last sector, as the table has them. -/
def Table.first (t : Table) (i : Nat) : Nat := little t.buf (i * t.size + 32) 8
def Table.last (t : Table) (i : Nat) : Nat := little t.buf (i * t.size + 40) 8

def utf16Units (e : Buffer) : List Nat :=
  ((List.range 36).map fun i => little e (56 + 2 * i) 2).takeWhile (· ≠ 0)

def zeroGUID : List UInt8 := List.replicate 16 0

/-- The partition between two sectors, if it is one of the disk. -/
def gptPart (e : Buffer) (sector : Nat) (diskSize : Int) (number : Nat) (first last : Int) :
    Option Partition :=
  if last < first ∨ (diskSize > 0 ∧ int64 (first * sector) ≥ diskSize) then none
  else some { number, start := int64 (first * sector), size := int64 ((last - first + 1) * sector)
              scheme := .gpt, type := bytesOf e 0 16, name := utf16Units e, fs := .none }

def gptEntry (e : Buffer) (sector : Nat) (diskSize : Int) (number : Nat) :
    Outcome MapError (Option Partition) := do
  let typ ← slice e 0 16
  if bytesOf typ 0 16 = zeroGUID then return none
  else do
    let first ← le 8 e 32
    let last ← le 8 e 40
    let _ ← slice e 56 128
    return gptPart e sector diskSize number (int64 first) (int64 last)

def gptEntries (t : Table) (diskSize : Int) : Nat → Nat → Outcome MapError (List Partition)
  | 0, _ => .ok []
  | left + 1, i => do
      let e ← slice t.buf (i * t.size) ((i + 1) * t.size)
      let found ← gptEntry e t.sector diskSize (i + 1)
      let parts ← gptEntries t diskSize left (i + 1)
      return found.toList ++ parts

def readGPT (r : Reader) (hdr : Buffer) (sector : Nat) (diskSize : Int) :
    Outcome MapError (List Partition) := do
  let t ← readTable r hdr sector
  gptEntries t diskSize t.count 0

/-! MBR: numbers of 512-byte sectors of 32 bits, whose sums stay far below an int64. -/

def mbrPart (number : Nat) (start : Int) (sectors typ : Nat) : Partition :=
  { number, start, size := sectors * 512, scheme := .mbr, type := [.ofNat typ], name := [], fs := .none }

def mbrEntries (mbr : Buffer) : Nat → Nat → List Partition → Int →
    Outcome MapError (List Partition × Int)
  | 0, _, parts, extStart => .ok (parts, extStart)
  | left + 1, i, parts, extStart => do
      let e ← slice mbr (446 + 16 * i) (446 + 16 * (i + 1))
      let typ ← le 1 e 4
      let start ← le 4 e 8
      let size ← le 4 e 12
      if typ = 0 ∨ size = 0 then mbrEntries mbr left (i + 1) parts extStart
      else if typ = 0xEE then mbrEntries mbr left (i + 1) parts extStart
      else if typ = 0x05 ∨ typ = 0x0F ∨ typ = 0x85 then
        mbrEntries mbr left (i + 1) parts (start * 512)
      else mbrEntries mbr left (i + 1) (parts ++ [mbrPart (i + 1) (start * 512) size typ]) extStart

/-- The chain of logical partitions; the first number is how many links are still followed. -/
def logical (r : Reader) (extStart : Int) : Nat → Int → Nat → List Partition →
    Outcome MapError (List Partition)
  | 0, _, _, parts => .ok parts
  | guard + 1, next, num, parts => do
      let blank ← makeBytes 512
      match r.readFull blank next with
      | .error _ => .ok parts
      | .panicked => .panicked
      | .ok ebr => do
          let a ← le 1 ebr 510
          let b ← le 1 ebr 511
          if a ≠ 0x55 ∨ b ≠ 0xAA then .ok parts
          else do
            let e ← slice ebr 446 462
            let typ ← le 1 e 4
            let size ← le 4 e 12
            let start ← le 4 e 8
            let used := typ ≠ 0 ∧ size > 0
            let parts := if used then parts ++ [mbrPart num (next + start * 512) size typ] else parts
            let num := if used then num + 1 else num
            let l ← slice ebr 462 478
            let typ ← le 1 l 4
            let link ← le 4 l 8
            if typ = 0 then .ok parts
            else logical r extStart guard (extStart + link * 512) num parts

def logicals (r : Reader) (extStart : Int) (parts : List Partition) :
    Outcome MapError (List Partition) :=
  if extStart ≥ 0 then logical r extStart 128 extStart 5 parts else .ok parts

def readMBR (r : Reader) (mbr : Buffer) (diskSize : Int) : Outcome MapError (List Partition) := do
  let found ← mbrEntries mbr 4 0 [] (-1)
  let parts ← logicals r found.2 found.1
  return if diskSize > 0 then parts.filter fun p => p.start < diskSize else parts

/-! The disk. -/

def head (r : Reader) : Buffer := bytesAt r 0 8192

/-- The header of a GPT at a sector of 512 or 4096 bytes. -/
def gptHeader (head : Buffer) : List Nat → Outcome MapError (Option (Nat × Buffer))
  | [] => .ok none
  | sector :: rest =>
      if head.length ≥ sector + 92 ∧ bytesOf head sector 8 = ascii "EFI PART" then do
        let hdr ← slice head sector (sector + 92)
        return some (sector, hdr)
      else gptHeader head rest

def probed (r : Reader) (parts : List Partition) : List Partition :=
  parts.map fun p => { p with fs := Probe (sectionHead r p.start p.size) }

/-- Without a GPT partition. -/
def withoutGPT (r : Reader) (diskSize : Int) : Outcome MapError (List Partition) :=
  let fs := Probe (bytesAt r 0 4096)
  if fs ≠ .none ∧ fs ≠ .lvm ∧ fs ≠ .swap then
    .ok [{ number := 0, start := 0, size := diskSize, scheme := .none, type := [], name := [], fs }]
  else do
    let a ← le 1 (head r) 510
    let b ← le 1 (head r) 511
    if a ≠ 0x55 ∨ b ≠ 0xAA then .error .read
    else do
      let mbr ← slice (head r) 0 512
      let parts ← readMBR r mbr diskSize
      return probed r parts

/-- The partitions of a GPT, if there is one. -/
def gptFound (r : Reader) (diskSize : Int) :
    Option (Nat × Buffer) → Outcome MapError (List Partition)
  | some (sector, hdr) => readGPT r hdr sector diskSize
  | none => .ok []

def ReadPartitions (r : Reader) (diskSize : Int) : Outcome MapError (List Partition) :=
  if (head r).length < 1024 then .error .read
  else do
    let found ← gptHeader (head r) [512, 4096]
    let parts ← gptFound r diskSize found
    if parts = [] then withoutGPT r diskSize else .ok (probed r parts)

/-! What a read of the table should give. -/

/-- Where the header is, and its bytes. -/
def header (r : Reader) : Option (Nat × Buffer) :=
  ([512, 4096].find? fun s =>
    decide ((head r).length ≥ s + 92 ∧ bytesOf (head r) s 8 = ascii "EFI PART")).map fun s =>
      (s, ⟨s + 92 - s, fun i => (head r).byte (s + i)⟩)

/-- The memory taken for the entry table. -/
def entryTableBytes (r : Reader) : Nat :=
  if (head r).length < 1024 then 0
  else match header r with
    | none => 0
    | some (_, hdr) => tableBytes hdr

def tableOf (r : Reader) : Outcome MapError Table :=
  if (head r).length < 1024 then .error .read
  else match header r with
    | none => .error .read
    | some (sector, hdr) => readTable r hdr sector

/-- Partitions on the disk, with the true values of a GPT's sectors. -/
structure FailsSafe (r : Reader) (diskSize : Int) (result : Outcome MapError (List Partition)) :
    Prop where
  returns : result ≠ .panicked
  memory : (entryTableBytes r : Int) ≤ diskSize
  inside : ∀ parts, result = .ok parts → ∀ p ∈ parts, 0 ≤ p.start ∧ p.start < diskSize ∧ 0 < p.size
  numbers : ∀ parts, result = .ok parts → parts.Pairwise fun a b => a.number ≠ b.number
  true_ : ∀ parts, result = .ok parts → ∀ p ∈ parts, p.scheme = .gpt → ∃ t, tableOf r = .ok t ∧
    ∃ i < t.count, p.number = i + 1 ∧ p.start = t.first i * t.sector ∧
      p.size = ((t.last i : Int) - t.first i + 1) * t.sector

/-- An entry the code takes for a partition of the disk. -/
def Table.Kept (t : Table) (diskSize : Int) (i : Nat) : Prop :=
  bytesOf t.buf (i * t.size) 16 ≠ zeroGUID ∧ int64 (t.first i) ≤ int64 (t.last i) ∧
    int64 (int64 (t.first i) * t.sector) < diskSize

/-- Neither of the entry's two values leaves an int64. -/
def Table.Fits (t : Table) (i : Nat) : Prop :=
  t.first i * t.sector < 2 ^ 63 ∧ ((t.last i : Int) - t.first i + 1) * t.sector < 2 ^ 63

theorem le_ok {size : Nat} {b : Buffer} {o : Nat} (inside : o + size ≤ b.length) :
    le size b o = .ok (little b o size) := if_pos inside

theorem slice_ok {b : Buffer} {lo hi : Nat} (inside : lo ≤ hi ∧ hi ≤ b.length) :
    slice b lo hi = .ok ⟨hi - lo, fun i => b.byte (lo + i)⟩ := if_pos inside

theorem little_shift (b : Buffer) (n lo o size : Nat) :
    little ⟨n, fun i => b.byte (lo + i)⟩ o size = little b (lo + o) size := by
  induction size generalizing o with
  | zero => rfl
  | succ size ih => rw [little, little, ih, Nat.add_assoc]

theorem gptHeader_ok (b : Buffer) (sectors : List Nat) :
    gptHeader b sectors = .ok ((sectors.find? fun s =>
      decide (b.length ≥ s + 92 ∧ bytesOf b s 8 = ascii "EFI PART")).map fun s =>
        (s, ⟨s + 92 - s, fun i => b.byte (s + i)⟩)) := by
  induction sectors with
  | nil => rfl
  | cons sector rest ih =>
      rw [gptHeader, List.find?_cons]
      by_cases here : b.length ≥ sector + 92 ∧ bytesOf b sector 8 = ascii "EFI PART"
      · rw [if_pos here, slice_ok ⟨Nat.le_add_right _ _, here.1⟩]
        simp only [here.1, here.2, and_self, decide_true, Option.map_some]
        rfl
      · rw [if_neg here, ih]
        simp only [here, decide_false]

theorem header_sector {r : Reader} {sector : Nat} {hdr : Buffer} (found : header r = some (sector, hdr)) :
    0 < sector ∧ hdr.length = 92 := by
  obtain ⟨s, listed, same⟩ := Option.map_eq_some_iff.mp found
  obtain ⟨rfl, rfl⟩ := Prod.mk.inj same
  have member := List.mem_of_find?_eq_some listed
  refine ⟨?_, Nat.add_sub_cancel_left ..⟩
  simp only [List.mem_cons, List.not_mem_nil, or_false] at member
  omega

/-- The table as it is read: large enough for its entries, in the memory its header asks for. -/
theorem readTable_meets {r : Reader} {hdr : Buffer} {sector : Nat} (length : hdr.length = 92) :
    (readTable r hdr sector).Meets fun t => t.sector = sector ∧ 128 ≤ t.size ∧
      t.buf.length = t.count * t.size ∧ t.buf.length = tableBytes hdr := by
  rw [readTable, le_ok (by omega), Outcome.ok_bind, le_ok (by omega), Outcome.ok_bind,
    le_ok (by omega), Outcome.ok_bind, tableBytes]
  have few := little_lt hdr 84 4
  generalize little hdr 80 4 = count
  generalize little hdr 84 4 = size at few
  split
  · exact .error
  · rename_i allowed
    have most : count * size ≤ 1024 * 2 ^ 32 := Nat.mul_le_mul (by omega) (by omega)
    have fits : ((count : Int) * size) ≤ maxAlloc := by
      rw [← Nat.cast_mul]
      simp only [maxAlloc]
      omega
    apply (makeBytes_meets ((count : Int) * size) (by positivity) fits).bind
    intro table made
    apply (readSome_meets r table _).bind
    intro buf same
    have length : buf.length = count * size := by
      rw [same, made, ← Nat.cast_mul, Int.toNat_natCast]
    exact .ok ⟨rfl, Nat.le_of_not_lt fun less => allowed (.inl less), length, length⟩

theorem gptPart_some {e : Buffer} {sector : Nat} {diskSize : Int} {number : Nat} {first last : Int}
    (positive : 0 < diskSize) (p : Partition) :
    gptPart e sector diskSize number first last = some p ↔
      first ≤ last ∧ int64 (first * sector) < diskSize ∧
        p = { number, start := int64 (first * sector)
              size := int64 ((last - first + 1) * sector), scheme := .gpt
              type := bytesOf e 0 16, name := utf16Units e, fs := .none } := by
  rw [gptPart]
  generalize int64 (first * sector) = start
  generalize int64 ((last - first + 1) * sector) = size
  constructor
  · intro found
    split at found
    · cases found
    · rename_i inside
      obtain rfl := Option.some.inj found
      exact ⟨by omega, by omega, rfl⟩
  · rintro ⟨order, inside, rfl⟩
    rw [if_neg (by omega)]

theorem gptEntry_ok {e : Buffer} (length : 128 ≤ e.length) (sector : Nat) (diskSize : Int)
    (number : Nat) :
    gptEntry e sector diskSize number = .ok (if bytesOf e 0 16 = zeroGUID then none
      else gptPart e sector diskSize number (int64 (little e 32 8)) (int64 (little e 40 8))) := by
  have typ : bytesOf ⟨16 - 0, fun k => e.byte (0 + k)⟩ 0 16 = bytesOf e 0 16 := by
    simp [bytesOf]
  rw [gptEntry, slice_ok ⟨Nat.zero_le _, by omega⟩, Outcome.ok_bind, typ]
  split
  · rfl
  · rw [le_ok (by omega), Outcome.ok_bind, le_ok (by omega), Outcome.ok_bind,
      slice_ok ⟨by omega, length⟩, Outcome.ok_bind]
    rfl

/-- An entry's part of the table, and what is made of it. -/
def Table.entry (t : Table) (i : Nat) : Buffer :=
  ⟨(i + 1) * t.size - i * t.size, fun k => t.buf.byte (i * t.size + k)⟩

def Table.part (t : Table) (i : Nat) : Partition :=
  { number := i + 1, start := int64 (int64 (t.first i) * t.sector)
    size := int64 ((int64 (t.last i) - int64 (t.first i) + 1) * t.sector), scheme := .gpt
    type := bytesOf (t.entry i) 0 16, name := utf16Units (t.entry i), fs := .none }

def Table.found (t : Table) (diskSize : Int) (i : Nat) : Option Partition :=
  if bytesOf (t.entry i) 0 16 = zeroGUID then none
  else gptPart (t.entry i) t.sector diskSize (i + 1) (int64 (little (t.entry i) 32 8))
    (int64 (little (t.entry i) 40 8))

theorem Table.entry_length (t : Table) (i : Nat) : (t.entry i).length = t.size := by
  have next : (i + 1) * t.size = i * t.size + t.size := Nat.succ_mul i t.size
  simp only [Table.entry, next, Nat.add_sub_cancel_left]

theorem Table.found_some {t : Table} {diskSize : Int} (positive : 0 < diskSize) (i : Nat)
    (p : Partition) : t.found diskSize i = some p ↔ t.Kept diskSize i ∧ p = t.part i := by
  have first : little (t.entry i) 32 8 = t.first i := little_shift _ _ _ _ _
  have last : little (t.entry i) 40 8 = t.last i := little_shift _ _ _ _ _
  have typ : bytesOf (t.entry i) 0 16 = bytesOf t.buf (i * t.size) 16 := by
    simp [bytesOf, Table.entry]
  rw [Table.found, Table.Kept, ← typ, first, last]
  by_cases empty : bytesOf (t.entry i) 0 16 = zeroGUID
  · rw [if_pos empty]
    constructor
    · exact nofun
    · rintro ⟨⟨used, -⟩, -⟩
      exact absurd empty used
  · rw [if_neg empty, gptPart_some positive]
    constructor
    · rintro ⟨order, inside, same⟩
      exact ⟨⟨empty, order, inside⟩, same⟩
    · rintro ⟨⟨-, order, inside⟩, same⟩
      exact ⟨order, inside, same⟩

theorem gptEntries_ok {t : Table} {diskSize : Int} (positive : 0 < diskSize) (size : 128 ≤ t.size)
    (left i : Nat) (whole : (i + left) * t.size ≤ t.buf.length) :
    ∃ parts, gptEntries t diskSize left i = .ok parts ∧
      (∀ p, p ∈ parts ↔ ∃ j, i ≤ j ∧ j < i + left ∧ t.Kept diskSize j ∧ p = t.part j) ∧
      parts.Pairwise fun a b => a.number < b.number := by
  induction left generalizing i with
  | zero =>
      refine ⟨[], rfl, fun p => ?_, .nil⟩
      constructor
      · exact nofun
      · rintro ⟨j, low, high, -⟩
        omega
  | succ left ih =>
      obtain ⟨rest, ran, members, ordered⟩ := ih (i + 1) (by rwa [Nat.add_assoc, Nat.add_comm 1])
      have room : (i + 1) * t.size ≤ t.buf.length :=
        Nat.le_trans (Nat.mul_le_mul_right _ (by omega)) whole
      have entry_ : slice t.buf (i * t.size) ((i + 1) * t.size) = .ok (t.entry i) :=
        slice_ok ⟨Nat.mul_le_mul_right _ (Nat.le_succ i), room⟩
      have found : gptEntry (t.entry i) t.sector diskSize (i + 1) = .ok (t.found diskSize i) :=
        gptEntry_ok (t.entry_length i ▸ size) _ _ _
      have here (p : Partition) : p ∈ (t.found diskSize i).toList ↔
          t.Kept diskSize i ∧ p = t.part i := by
        rw [Option.mem_toList, t.found_some positive]
      refine ⟨(t.found diskSize i).toList ++ rest, ?_, fun p => ?_, ?_⟩
      · rw [gptEntries, entry_, Outcome.ok_bind, found, Outcome.ok_bind, ran]
        rfl
      · rw [List.mem_append, here, members]
        constructor
        · rintro (⟨kept, made⟩ | ⟨j, low, high, later⟩)
          · exact ⟨i, Nat.le_refl i, by omega, kept, made⟩
          · exact ⟨j, by omega, by omega, later⟩
        · rintro ⟨j, low, high, kept, made⟩
          by_cases same : j = i
          · subst same
            exact .inl ⟨kept, made⟩
          · exact .inr ⟨j, by omega, by omega, kept, made⟩
      · apply List.pairwise_append.mpr
        refine ⟨?_, ordered, ?_⟩
        · cases t.found diskSize i with
          | none => exact .nil
          | some p => exact List.pairwise_singleton _ _
        · intro p first q later
          obtain ⟨-, rfl⟩ := (here p).mp first
          obtain ⟨j, low, -, -, rfl⟩ := (members q).mp later
          exact Nat.succ_lt_succ (Nat.lt_of_succ_le low)

theorem true_values {first last sector : Nat} (positive : 0 < sector) (range : last < 2 ^ 64)
    (order : int64 first ≤ int64 last) (firstFits : first * sector < 2 ^ 63)
    (sizeFits : ((last : Int) - first + 1) * sector < 2 ^ 63) :
    int64 (int64 first * sector) = first * sector ∧
      int64 ((int64 last - int64 first + 1) * sector) = ((last : Int) - first + 1) * sector ∧
      0 < ((last : Int) - first + 1) * sector := by
  have firstSmall : first < 2 ^ 63 :=
    Nat.lt_of_le_of_lt (Nat.le_mul_of_pos_right _ positive) firstFits
  have first_ : int64 first = first := int64_same _ (by omega) (by omega)
  -- A last sector with its highest bit set would lie before the first.
  have lastSmall : last < 2 ^ 63 := by
    rw [first_] at order
    unfold int64 at order
    omega
  have last_ : int64 last = last := int64_same _ (by omega) (by omega)
  rw [first_, last_] at order
  have size : 0 < ((last : Int) - first + 1) * sector := Int.mul_pos (by omega) (by omega)
  have start : 0 ≤ (first : Int) * sector :=
    Int.mul_nonneg (Int.natCast_nonneg _) (Int.natCast_nonneg _)
  rw [first_, last_]
  exact ⟨int64_same _ (by omega) (by exact_mod_cast firstFits),
    int64_same _ (by omega) sizeFits, size⟩

/-- With values that fit, an entry that is kept gives its true start and size. -/
theorem Table.part_true {t : Table} {diskSize : Int} {i : Nat} (sector : 0 < t.sector)
    (kept : t.Kept diskSize i) (fits : t.Fits i) :
    (t.part i).start = t.first i * t.sector ∧
      (t.part i).size = ((t.last i : Int) - t.first i + 1) * t.sector ∧ 0 < (t.part i).size := by
  obtain ⟨start, size, positive⟩ :=
    @true_values (t.first i) (t.last i) t.sector sector (little_lt t.buf _ 8) kept.2.1 fits.1 fits.2
  have size_ : (t.part i).size = ((t.last i : Int) - t.first i + 1) * t.sector := size
  exact ⟨start, size_, size_ ▸ positive⟩

theorem Table.fits_of_true {t : Table} {i : Nat} (start : (t.part i).start = t.first i * t.sector)
    (size : (t.part i).size = ((t.last i : Int) - t.first i + 1) * t.sector) : t.Fits i := by
  constructor
  · have range := (int64_range (int64 (t.first i) * t.sector)).2
    have same : int64 (int64 (t.first i) * t.sector) = t.first i * t.sector := start
    rw [same] at range
    exact_mod_cast range
  · have range := (int64_range ((int64 (t.last i) - int64 (t.first i) + 1) * t.sector)).2
    have same : int64 ((int64 (t.last i) - int64 (t.first i) + 1) * t.sector) =
      ((t.last i : Int) - t.first i + 1) * t.sector := size
    rwa [same] at range

/-- Partitions of an MBR, in the order of their numbers, which stay below one. -/
structure Numbered (below : Nat) (parts : List Partition) : Prop where
  ordered : parts.Pairwise fun a b => a.number < b.number
  low : ∀ p ∈ parts, p.number < below
  inside : ∀ p ∈ parts, 0 ≤ p.start ∧ 0 < p.size ∧ p.scheme = .mbr

theorem Numbered.nil (below : Nat) : Numbered below [] := ⟨.nil, nofun, nofun⟩

theorem Numbered.mono {below more : Nat} {parts : List Partition} (numbered : Numbered below parts)
    (le : below ≤ more) : Numbered more parts :=
  ⟨numbered.ordered, fun p listed => Nat.lt_of_lt_of_le (numbered.low p listed) le,
    numbered.inside⟩

theorem Numbered.append {parts : List Partition} {p : Partition} (numbered : Numbered p.number parts)
    (inside : 0 ≤ p.start ∧ 0 < p.size ∧ p.scheme = .mbr) :
    Numbered (p.number + 1) (parts ++ [p]) := by
  constructor
  · apply List.pairwise_append.mpr
    refine ⟨numbered.ordered, List.pairwise_singleton _ _, ?_⟩
    intro a listed b last
    obtain rfl := List.mem_singleton.mp last
    exact numbered.low a listed
  · intro q listed
    obtain earlier | last := List.mem_append.mp listed
    · exact Nat.lt_succ_of_lt (numbered.low q earlier)
    · obtain rfl := List.mem_singleton.mp last
      exact Nat.lt_succ_self _
  · intro q listed
    obtain earlier | last := List.mem_append.mp listed
    · exact numbered.inside q earlier
    · obtain rfl := List.mem_singleton.mp last
      exact inside

theorem Numbered.filter {below : Nat} {parts : List Partition} (numbered : Numbered below parts)
    (keep : Partition → Bool) : Numbered below (parts.filter keep) :=
  ⟨numbered.ordered.filter keep, fun p listed => numbered.low p (List.mem_of_mem_filter listed),
    fun p listed => numbered.inside p (List.mem_of_mem_filter listed)⟩

theorem mbrPart_inside (number : Nat) {start : Int} {sectors : Nat} (before : 0 ≤ start)
    (some_ : 0 < sectors) (typ : Nat) :
    0 ≤ (mbrPart number start sectors typ).start ∧ 0 < (mbrPart number start sectors typ).size ∧
      (mbrPart number start sectors typ).scheme = .mbr :=
  ⟨before, Int.mul_pos (Int.natCast_pos.mpr some_) (by norm_num), rfl⟩

theorem slice_meets {b : Buffer} {lo hi : Nat} (order : lo ≤ hi) (inside : hi ≤ b.length) :
    (slice b lo hi).Meets fun part => part.length = hi - lo := by
  rw [slice_ok ⟨order, inside⟩]
  exact .ok rfl

theorem mbrEntries_meets {mbr : Buffer} (length : mbr.length = 512) (left i : Nat)
    (parts : List Partition) (extStart : Int) (entries : i + left = 4)
    (numbered : Numbered (i + 1) parts) :
    (mbrEntries mbr left i parts extStart).Meets fun found => Numbered 5 found.1 := by
  induction left generalizing i parts extStart with
  | zero =>
      obtain rfl : i = 4 := entries
      exact .ok numbered
  | succ left ih =>
      rw [mbrEntries]
      apply (slice_meets (by omega) (by omega)).bind
      intro e bytes
      apply (le_meets 1 e 4 (by omega)).bind
      intro typ _
      apply (le_meets 4 e 8 (by omega)).bind
      intro start _
      apply (le_meets 4 e 12 (by omega)).bind
      intro size _
      have later := numbered.mono (Nat.le_succ _)
      split
      · exact ih (i + 1) parts extStart (by omega) later
      · rename_i used
        split
        · exact ih (i + 1) parts extStart (by omega) later
        · split
          · exact ih (i + 1) parts _ (by omega) later
          · apply ih (i + 1) _ extStart (by omega)
            exact numbered.append (mbrPart_inside _ (by positivity) (by omega) _)

/-- However the chain is linked, the numbers of its partitions go up. -/
theorem logical_meets (r : Reader) {extStart : Int} (positive : 0 ≤ extStart) (guard : Nat)
    (next : Int) (num : Nat) (parts : List Partition) (ahead : 0 ≤ next)
    (numbered : Numbered num parts) :
    (logical r extStart guard next num parts).Meets fun found => ∃ below, Numbered below found := by
  induction guard generalizing next num parts with
  | zero => exact .ok ⟨num, numbered⟩
  | succ guard ih =>
      rw [logical]
      apply (fixed_meets 512 (by norm_num)).bind
      intro blank bytes
      have read := readFull_meets r blank next
      split
      · exact .ok ⟨num, numbered⟩
      · rename_i panicked
        exact absurd panicked read.not_panicked
      · rename_i ebr ran
        have length : ebr.length = 512 := (read.of_ok ran).trans bytes
        apply (le_meets 1 ebr 510 (by omega)).bind
        intro a _
        apply (le_meets 1 ebr 511 (by omega)).bind
        intro b _
        split
        · exact .ok ⟨num, numbered⟩
        · apply (slice_meets (by omega) (by omega)).bind
          intro e entry
          apply (le_meets 1 e 4 (by omega)).bind
          intro typ _
          apply (le_meets 4 e 12 (by omega)).bind
          intro size _
          apply (le_meets 4 e 8 (by omega)).bind
          intro start _
          apply (slice_meets (by omega) (by omega)).bind
          intro l link
          apply (le_meets 1 l 4 (by omega)).bind
          intro last _
          apply (le_meets 4 l 8 (by omega)).bind
          intro following _
          by_cases used : typ ≠ 0 ∧ size > 0
          · have grown : Numbered (num + 1) (parts ++ [mbrPart num (next + start * 512) size typ]) :=
              Numbered.append numbered (mbrPart_inside num (by positivity) used.2 typ)
            simp only [if_pos used]
            split
            · exact .ok ⟨_, grown⟩
            · exact ih _ _ _ (by omega) grown
          · simp only [if_neg used]
            split
            · exact .ok ⟨_, numbered⟩
            · exact ih _ _ _ (by omega) numbered

theorem readMBR_meets (r : Reader) {mbr : Buffer} {diskSize : Int} (length : mbr.length = 512)
    (positive : 0 < diskSize) :
    (readMBR r mbr diskSize).Meets fun parts =>
      (∃ below, Numbered below parts) ∧ ∀ p ∈ parts, p.start < diskSize := by
  rw [readMBR]
  apply (mbrEntries_meets length 4 0 [] (-1) rfl (.nil 1)).bind
  rintro ⟨parts, extStart⟩ numbered
  have chain : (logicals r extStart parts).Meets fun found => ∃ below, Numbered below found := by
    rw [logicals]
    split
    · rename_i extended
      exact logical_meets r extended 128 extStart 5 parts extended numbered
    · exact .ok ⟨5, numbered⟩
  apply chain.bind
  rintro found ⟨below, numbered⟩
  refine .ok ?_
  simp only [if_pos (show diskSize > 0 from positive)]
  refine ⟨⟨below, numbered.filter _⟩, fun p listed => ?_⟩
  exact of_decide_eq_true (List.mem_filter.mp listed).2

/-- Partitions that do not come from a GPT. -/
structure Plain (diskSize : Int) (parts : List Partition) : Prop where
  inside : ∀ p ∈ parts, 0 ≤ p.start ∧ p.start < diskSize ∧ 0 < p.size
  numbers : parts.Pairwise fun a b => a.number ≠ b.number
  scheme : ∀ p ∈ parts, p.scheme ≠ .gpt

theorem mem_probed {r : Reader} {parts : List Partition} {q : Partition} (listed : q ∈ probed r parts) :
    ∃ p ∈ parts, q = { p with fs := Probe (sectionHead r p.start p.size) } := by
  obtain ⟨p, member, same⟩ := List.mem_map.mp listed
  exact ⟨p, member, same.symm⟩

theorem probed_numbers {r : Reader} {parts : List Partition}
    (ordered : parts.Pairwise fun a b => a.number < b.number) :
    (probed r parts).Pairwise fun a b => a.number ≠ b.number := by
  apply List.pairwise_map.mpr
  apply ordered.imp
  intro a b less
  exact Nat.ne_of_lt less

theorem withoutGPT_meets (r : Reader) {diskSize : Int} (length : 1024 ≤ (head r).length)
    (positive : 0 < diskSize) : (withoutGPT r diskSize).Meets (Plain diskSize) := by
  rw [withoutGPT]
  split
  · refine .ok ⟨?_, List.pairwise_singleton _ _, ?_⟩
    · intro p listed
      obtain rfl := List.mem_singleton.mp listed
      exact ⟨le_refl _, positive, positive⟩
    · intro p listed
      obtain rfl := List.mem_singleton.mp listed
      exact nofun
  · apply (le_meets 1 (head r) 510 (by omega)).bind
    intro a _
    apply (le_meets 1 (head r) 511 (by omega)).bind
    intro b _
    split
    · exact .error
    · apply (slice_meets (Nat.zero_le _) (by omega)).bind
      intro mbr bytes
      apply (readMBR_meets r bytes positive).bind
      rintro parts ⟨⟨below, numbered⟩, before⟩
      refine .ok ⟨?_, probed_numbers numbered.ordered, ?_⟩
      · intro q listed
        obtain ⟨p, member, rfl⟩ := mem_probed listed
        obtain ⟨low, size, -⟩ := numbered.inside p member
        exact ⟨low, before p member, size⟩
      · intro q listed
        obtain ⟨p, member, rfl⟩ := mem_probed listed
        rw [(numbered.inside p member).2.2]
        exact nofun

theorem ReadPartitions_eq (r : Reader) (diskSize : Int) (length : ¬ (head r).length < 1024) :
    ReadPartitions r diskSize = gptFound r diskSize (header r) >>= fun parts =>
      if parts = [] then withoutGPT r diskSize else .ok (probed r parts) := by
  rw [ReadPartitions, if_neg length, gptHeader_ok]
  rfl

theorem FailsSafe.of_error {r : Reader} {diskSize : Int} {err : MapError}
    (memory : (entryTableBytes r : Int) ≤ diskSize) : FailsSafe r diskSize (.error err) :=
  ⟨nofun, memory, nofun, nofun, nofun⟩

theorem FailsSafe.of_plain {r : Reader} {diskSize : Int} {result : Outcome MapError (List Partition)}
    (memory : (entryTableBytes r : Int) ≤ diskSize) (plain : result.Meets (Plain diskSize)) :
    FailsSafe r diskSize result := by
  refine ⟨plain.not_panicked, memory, ?_, ?_, ?_⟩
  · intro parts ran
    exact (plain.of_ok ran).inside
  · intro parts ran
    exact (plain.of_ok ran).numbers
  · intro parts ran p listed gpt
    exact absurd gpt ((plain.of_ok ran).scheme p listed)

/-- A disk without the header of a GPT fails safe. -/
theorem failsSafe_of_no_table {r : Reader} {diskSize : Int} (positive : 0 < diskSize)
    (memory : (entryTableBytes r : Int) ≤ diskSize) (length : ¬ (head r).length < 1024)
    (missing : header r = none) : FailsSafe r diskSize (ReadPartitions r diskSize) := by
  rw [ReadPartitions_eq r diskSize length, missing, gptFound, Outcome.ok_bind, if_pos rfl]
  exact .of_plain memory (withoutGPT_meets r (Nat.le_of_not_lt length) positive)

/-- What is read of a table: its entries that are kept, in their order. -/
theorem gptFound_ok {r : Reader} {diskSize : Int} {sector : Nat} {hdr : Buffer} {t : Table}
    (positive : 0 < diskSize) (found : header r = some (sector, hdr))
    (read : readTable r hdr sector = .ok t) :
    0 < t.sector ∧ ∃ parts, gptFound r diskSize (header r) = .ok parts ∧
      (∀ p, p ∈ parts ↔ ∃ i < t.count, t.Kept diskSize i ∧ p = t.part i) ∧
      parts.Pairwise fun a b => a.number < b.number := by
  obtain ⟨sectorPositive, length⟩ := header_sector found
  obtain ⟨sector_, size, bytes, -⟩ := (readTable_meets length).of_ok read
  obtain ⟨parts, ran, members, ordered⟩ := gptEntries_ok positive size t.count 0
    (by rw [Nat.zero_add, bytes])
  refine ⟨sector_ ▸ sectorPositive, parts, ?_, fun p => ?_, ordered⟩
  · rw [found, gptFound]
    change readTable r hdr sector >>= (fun t => gptEntries t diskSize t.count 0) = _
    rw [read, Outcome.ok_bind, ran]
  · rw [members]
    simp only [Nat.zero_le, true_and, Nat.zero_add]

/-- A disk with a GPT fails safe exactly when its entries have values that fit. -/
theorem failsSafe_of_table {r : Reader} {diskSize : Int} {t : Table} (positive : 0 < diskSize)
    (memory : (entryTableBytes r : Int) ≤ diskSize) (length : ¬ (head r).length < 1024)
    (table : tableOf r = .ok t) :
    FailsSafe r diskSize (ReadPartitions r diskSize) ↔
      ∀ i < t.count, t.Kept diskSize i → t.Fits i := by
  have read := table
  rw [tableOf, if_neg length] at read
  match found : header r with
  | none =>
      rw [found] at read
      cases read
  | some (sector, hdr) =>
      rw [found] at read
      obtain ⟨sectorPositive, parts, ran, members, ordered⟩ := gptFound_ok positive found read
      have result : ReadPartitions r diskSize =
          if parts = [] then withoutGPT r diskSize else .ok (probed r parts) := by
        rw [ReadPartitions_eq r diskSize length, ran, Outcome.ok_bind]
      rw [result]
      constructor
      · intro safe i counted kept
        have member : t.part i ∈ parts := (members _).mpr ⟨i, counted, kept, rfl⟩
        rw [if_neg (List.ne_nil_of_mem member)] at safe
        have listed := List.mem_map_of_mem (f := fun p : Partition =>
          { p with fs := Probe (sectionHead r p.start p.size) }) member
        obtain ⟨t', table', j, -, number, start, size⟩ := safe.true_ _ rfl _ listed rfl
        obtain rfl := Outcome.ok.inj (table.symm.trans table')
        obtain rfl : i = j := Nat.succ.inj number
        exact t.fits_of_true start size
      · intro fits
        split
        · exact .of_plain memory (withoutGPT_meets r (Nat.le_of_not_lt length) positive)
        · refine ⟨nofun, memory, ?_, ?_, ?_⟩
          · rintro _ ⟨⟩ q listed
            obtain ⟨p, member, rfl⟩ := mem_probed listed
            obtain ⟨i, counted, kept, rfl⟩ := (members p).mp member
            obtain ⟨start, -, size⟩ := t.part_true sectorPositive kept (fits i counted kept)
            have low : 0 ≤ (t.part i).start := by
              rw [start]
              exact Int.mul_nonneg (Int.natCast_nonneg _) (Int.natCast_nonneg _)
            exact ⟨low, kept.2.2, size⟩
          · rintro _ ⟨⟩
            exact probed_numbers ordered
          · rintro _ ⟨⟩ q listed -
            obtain ⟨p, member, rfl⟩ := mem_probed listed
            obtain ⟨i, counted, kept, rfl⟩ := (members p).mp member
            obtain ⟨start, size, -⟩ := t.part_true sectorPositive kept (fits i counted kept)
            exact ⟨t, table, i, counted, rfl, start, size⟩

/-- A disk of eight sectors with one entry, whose first sector has eight bytes of this value. -/
def oneEntry (first : UInt8) : Reader where
  image := ⟨4096, fun i =>
    if i < 1024 then
      ([(512, 69), (513, 70), (514, 73), (515, 32), (516, 80), (517, 65), (518, 82), (519, 84),
        (584, 2), (592, 1), (596, 128)].lookup i).getD 0
    else if i < 1040 then 1
    else if 1056 ≤ i ∧ i < 1064 then first
    else if i = 1064 then 3
    else 0⟩
  fits := by norm_num
  section_ := false

def startsOf : Outcome MapError (List Partition) → List Int
  | .ok parts => parts.map (·.start)
  | _ => []

instance (t : Table) (i : Nat) : Decidable (t.Fits i) :=
  inferInstanceAs (Decidable (_ ∧ _))

def entriesFit : Outcome MapError Table → Bool
  | .ok t => (List.range t.count).all fun i => decide (t.Fits i)
  | _ => true

end ProxmoxBackup.PartitionTable
