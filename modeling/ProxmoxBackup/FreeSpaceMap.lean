import ProxmoxBackup.GoValues
import ProxmoxBackup.UsedMap

/-! machinebackuplib/freespace_linuxfs.go: the free-space maps of ext2/3/4 and XFS, read
from the bytes of a partition, with every index into a slice and every size of a make that
comes from the disk. -/

namespace ProxmoxBackup.FreeSpaceMap

open GoValues

/-- A byte slice: its length and what it holds up to there. -/
structure Buffer where
  length : Nat
  byte : Nat → UInt8

/-- What the map is read through. A file takes a read before its start as an error, a
section of one as a read at its end. -/
structure Reader where
  image : Buffer
  fits : image.length < 2 ^ 63
  section_ : Bool

inductive MapError where
  | errNoFreeSpaceMap
  | read
  deriving DecidableEq

/-- The largest make Go has an address for; a larger or a negative one is a panic. -/
def maxAlloc : Nat := 2 ^ 48

/-- The body of an if, or what there is without it. -/
def provided {α : Type} (p : Prop) [Decidable p] (body : Outcome MapError α) (kept : α) :
    Outcome MapError α :=
  if p then body else .ok kept

/-- The size of a make of n elements. -/
def makes (n : Int) (size : Nat) : Outcome MapError Nat :=
  if 0 ≤ n ∧ n * size ≤ maxAlloc then .ok n.toNat else .panicked

def makeBytes (n : Int) : Outcome MapError Buffer := do
  let length ← makes n 1
  return ⟨length, fun _ => 0⟩

namespace Reader

variable (r : Reader)

/-- What a read at off finds; the rest of the buffer stays. -/
def fill (buf : Buffer) (off : Int) : Buffer where
  length := buf.length
  byte i :=
    if 0 ≤ off ∧ i < buf.length ∧ off + i < r.image.length then r.image.byte (off.toNat + i)
    else buf.byte i

/-- A read that may end with the image. -/
def readSome (buf : Buffer) (off : Int) : Outcome MapError Buffer :=
  if off < 0 ∧ !r.section_ then .error .read else .ok (r.fill buf off)

/-- A read that may not. -/
def readFull (buf : Buffer) (off : Int) : Outcome MapError Buffer :=
  if off < 0 ∨ (r.image.length : Int) < off + buf.length then .error .read
  else .ok (r.fill buf off)

end Reader

/-- The value of size bytes from o, the lowest first. -/
def little (b : Buffer) (o : Nat) : Nat → Nat
  | 0 => 0
  | size + 1 => (b.byte o).toNat + 256 * little b (o + 1) size

/-- The same, the highest first. -/
def big (b : Buffer) (o : Nat) : Nat → Nat
  | 0 => 0
  | size + 1 => (b.byte o).toNat * 256 ^ size + big b (o + 1) size

def le (size : Nat) (b : Buffer) (o : Nat) : Outcome MapError Nat :=
  if o + size ≤ b.length then .ok (little b o size) else .panicked

def be (size : Nat) (b : Buffer) (o : Nat) : Outcome MapError Nat :=
  if o + size ≤ b.length then .ok (big b o size) else .panicked

/-- string(b[0:4]) -/
def tag (b : Buffer) : Outcome MapError (List UInt8) :=
  if 4 ≤ b.length then .ok [b.byte 0, b.byte 1, b.byte 2, b.byte 3] else .panicked

/-- usedMap, as the maps of the file systems build it up. -/
structure Map where
  clusters : Nat
  bits : Buffer

namespace Map

def used (m : Map) (c : Nat) : Bool :=
  m.bits.byte (c / 8) &&& (1 <<< UInt8.ofNat (c % 8)) != 0

def newUsedMap (clusters : Nat) : Outcome MapError Map := do
  let bits ← makeBytes ((int64 (clusters + 7)).tdiv 8)
  return ⟨clusters, ⟨bits.length, fun _ => 255⟩⟩

def clearBit (bit b : UInt8) : UInt8 := b &&& ~~~bit

def setBit (bit b : UInt8) : UInt8 := b ||| bit

/-- The loop of free and of markUsed; the first number counts its steps. -/
def touch (change : UInt8 → UInt8 → UInt8) (clusters : Nat) :
    Nat → Int → Buffer → Outcome MapError Buffer
  | 0, _, bits => .ok bits
  | steps + 1, c, bits =>
      if c < clusters then
        if 0 ≤ c then
          let i := c.toNat / 8
          if i < bits.length then
            touch change clusters steps (c + 1) { bits with
              byte := Function.update bits.byte i
                (change (1 <<< UInt8.ofNat (c.toNat % 8)) (bits.byte i)) }
          else .panicked
        else touch change clusters steps (c + 1) bits
      else .ok bits

def run (change : UInt8 → UInt8 → UInt8) (m : Map) (c count : Int) : Outcome MapError Map := do
  let bits ← touch change m.clusters (int64 (c + count) - c).toNat c m.bits
  return { m with bits := bits }

def free (m : Map) (lcn count : Int) : Outcome MapError Map := run clearBit m lcn count

def markUsed (m : Map) (c count : Int) : Outcome MapError Map := run setBit m c count

end Map

/-! ext2/3/4. -/

/-- What extUsedMap takes from a superblock that has passed its checks. -/
structure ExtSuper where
  compat : Nat
  roCompat : Nat
  logBS : Nat
  blocks : Nat
  descSize : Nat
  firstData : Nat
  bpg : Nat
  ipg : Nat
  inodeSize : Nat
  reservedGDT : Nat
  /-- The two groups that sparse_super2 names. -/
  backups : Nat × Nat
  small : logBS ≤ 6
  grouped : 0 < bpg ∧ bpg ≤ 1024 * 2 ^ logBS * 8
  ordered : firstData < blocks
  counted : blocks < 2 ^ 63
  described : 32 ≤ descSize

theorem toNat_lt_int64 (x : Int) : (int64 x).toNat < 2 ^ 63 := by
  have range := int64_range x
  omega

theorem first_lt_toNat {first : Nat} {x : Int} (more : ¬ x ≤ first) : first < x.toNat := by
  omega

theorem descSize_large (ds : Nat) : 32 ≤ if 64 ≤ ds then ds else 32 := by
  split
  · omega
  · omega

def extSuper (sb : Buffer) : Outcome MapError ExtSuper := do
  let compat ← le 4 sb 92
  let incompat ← le 4 sb 96
  let roCompat ← le 4 sb 100
  -- meta_bg or bigalloc
  if incompat &&& 0x10 ≠ 0 ∨ roCompat &&& 0x200 ≠ 0 then .error .errNoFreeSpaceMap
  else
    let logBS ← le 4 sb 24
    if small : 6 < logBS then .error .errNoFreeSpaceMap
    else
      let low ← le 4 sb 4
      let high ← provided (incompat &&& 0x80 ≠ 0) (le 4 sb 336) 0
      let ds ← provided (incompat &&& 0x80 ≠ 0) (le 2 sb 254) 0
      let blocks := int64 (low + high * 2 ^ 32)
      let descSize := if 64 ≤ ds then ds else 32
      let firstData ← le 4 sb 20
      let bpg ← le 4 sb 32
      let ipg ← le 4 sb 40
      let rev ← le 4 sb 76
      let inodeSize ← provided (1 ≤ rev) (le 2 sb 88) 128
      let reservedGDT ← le 2 sb 0xCE
      let backup0 ← le 4 sb 0x24C
      let backup1 ← le 4 sb 0x250
      if bad : bpg = 0 ∨ bpg > 1024 * 2 ^ logBS * 8 ∨ ipg = 0 ∨ blocks ≤ firstData then
        .error .errNoFreeSpaceMap
      else
        return {
          compat := compat, roCompat := roCompat, logBS := logBS, blocks := blocks.toNat
          descSize := descSize, firstData := firstData, bpg := bpg, ipg := ipg
          inodeSize := inodeSize, reservedGDT := reservedGDT, backups := (backup0, backup1)
          small := Nat.le_of_not_lt small
          grouped := ⟨Nat.pos_of_ne_zero fun zero => bad (Or.inl zero),
            Nat.le_of_not_lt fun more => bad (Or.inr (Or.inl more))⟩
          ordered := first_lt_toNat fun less => bad (Or.inr (Or.inr (Or.inr less)))
          counted := toNat_lt_int64 _
          described := descSize_large ds }

namespace ExtSuper

variable (s : ExtSuper)

def bs : Nat := 1024 * 2 ^ s.logBS

def groups : Int := (int64 ((s.blocks : Int) - s.firstData + s.bpg - 1)).tdiv s.bpg

/-- The length of the group descriptor table. -/
def gdtSize : Int := int64 (s.groups * s.descSize)

def gdtBlocks : Int := (int64 (s.gdtSize + s.bs - 1)).tdiv s.bs

def itBlocks : Nat := (s.ipg * s.inodeSize + s.bs - 1) / s.bs

/-- The loop over the powers of 3, 5 and 7. -/
def isPower (base g p : Nat) : Bool :=
  if p ≤ g then
    if p = g then true
    else if 1 < base ∧ 0 < p then isPower base g (p * base) else false
  else false
termination_by g + 1 - p
decreasing_by
  have grows : p < p * base := by
    rename_i both
    exact (Nat.lt_mul_iff_one_lt_right both.2).mpr both.1
  omega

def hasBackup (g : Nat) : Bool :=
  if g = 0 then true
  else if s.compat &&& 0x200 ≠ 0 then g = s.backups.1 || g = s.backups.2
  else if s.roCompat &&& 0x1 = 0 then true
  else isPower 3 g 3 || isPower 5 g 5 || isPower 7 g 7 || g = 1

end ExtSuper

/-- A group descriptor: its block bitmap, inode bitmap and inode table, and BLOCK_UNINIT. -/
structure Group where
  bb : Int
  ib : Int
  it : Int
  uninit : Bool
  deriving DecidableEq

/-- get; the descriptor starts at d. -/
def blockNumber (s : ExtSuper) (gdt : Buffer) (d lo hi : Nat) : Outcome MapError Int := do
  let low ← le 4 gdt (d + lo)
  if 64 ≤ s.descSize then
    let high ← le 4 gdt (d + hi)
    return int64 (low + high * 2 ^ 32)
  else return low

def outside (s : ExtSuper) (b : Int) : Bool := b < s.firstData || b ≥ s.blocks

def descriptor (s : ExtSuper) (gdt : Buffer) (g : Nat) : Outcome MapError Group := do
  let d := g * s.descSize
  let bb ← blockNumber s gdt d 0 0x20
  let ib ← blockNumber s gdt d 4 0x24
  let it ← blockNumber s gdt d 8 0x28
  let flags ← le 2 gdt (d + 0x12)
  if outside s bb || outside s ib || outside s it || outside s (int64 (it + s.itBlocks - 1)) then
    .error .errNoFreeSpaceMap
  else return ⟨bb, ib, it, flags &&& 0x2 ≠ 0⟩

/-- The loop over the descriptors; the first number counts those left. -/
def descriptors (s : ExtSuper) (gdt : Buffer) : Nat → Nat → Outcome MapError (List Group)
  | 0, _ => .ok []
  | left + 1, g => do
      let first ← descriptor s gdt g
      let rest ← descriptors s gdt left (g + 1)
      return first :: rest

/-- Where a group's metadata is: block bitmap, inode bitmap, inode table. -/
def Group.runs (s : ExtSuper) (o : Group) : List (Int × Int) :=
  [(o.bb, 1), (o.ib, 1), (o.it, s.itBlocks)]

def markRuns (start count : Nat) : List (Int × Int) → Map → Outcome MapError Map
  | [], m => .ok m
  | run :: rest, m => do
      let m ← provided (run.1 + run.2 > start ∧ run.1 < start + count) (m.markUsed run.1 run.2) m
      markRuns start count rest m

/-- bitmap[i/8]&(1<<(i%8)) == 0, for the blocks of a group from i. -/
def freeClear (start : Nat) (bitmap : Buffer) : Nat → Nat → Map → Outcome MapError Map
  | 0, _, m => .ok m
  | left + 1, i, m =>
      if i / 8 < bitmap.length then do
        let m ← provided (bitmap.byte (i / 8) &&& (1 <<< UInt8.ofNat (i % 8)) = 0)
          (m.free (start + i) 1) m
        freeClear start bitmap left (i + 1) m
      else .panicked

namespace ExtSuper

variable (s : ExtSuper)

def start (g : Nat) : Nat := s.firstData + g * s.bpg

def count (g : Nat) : Nat := min s.bpg (s.blocks - s.start g)

end ExtSuper

/-- One turn of the loop over the groups, with the map and the buffer of the bitmaps. -/
def visitGroup (r : Reader) (s : ExtSuper) (metas : List Group) (g : Nat) (m : Map)
    (bitmap : Buffer) : Outcome MapError (Map × Buffer) :=
  match metas[g]? with
  | none => .panicked
  | some group =>
      if group.uninit then do
        let m ← m.free (s.start g) (s.count g)
        let m ← provided (s.hasBackup g)
          (m.markUsed (s.start g) (1 + s.gdtBlocks + s.reservedGDT)) m
        let m ← markRuns (s.start g) (s.count g) (metas.flatMap (Group.runs s)) m
        return (m, bitmap)
      else do
        let bitmap ← r.readSome bitmap (int64 (group.bb * s.bs))
        let m ← freeClear (s.start g) bitmap (s.count g) 0 m
        if bitmap.length = 0 then .panicked
        else if s.hasBackup g ∧ bitmap.byte 0 &&& 1 = 0 then .error .errNoFreeSpaceMap
        else return (m, bitmap)

def visitGroups (r : Reader) (s : ExtSuper) (metas : List Group) :
    List Nat → Map → Buffer → Outcome MapError Map
  | [], m, _ => .ok m
  | g :: rest, m, bitmap => do
      let (m, bitmap) ← visitGroup r s metas g m bitmap
      visitGroups r s metas rest m bitmap

def extSuperSize : Nat := 1024

/-- The superblock at 1024. -/
def extRead (r : Reader) : Outcome MapError ExtSuper := do
  let sb ← makeBytes extSuperSize
  let sb ← r.readFull sb 1024
  extSuper sb

/-- The superblock and the descriptors. -/
def extLayout (r : Reader) : Outcome MapError (ExtSuper × List Group) := do
  let s ← extRead r
  let gdt ← makeBytes s.gdtSize
  let gdt ← r.readSome gdt ((s.firstData + 1) * s.bs)
  let _ ← makes s.groups 24
  let _ ← makes s.groups 4
  let metas ← descriptors s gdt s.groups.toNat 0
  return (s, metas)

def extUsedMap (r : Reader) : Outcome MapError Map := do
  let (s, metas) ← extLayout r
  let m ← Map.newUsedMap s.blocks
  let bitmap ← makeBytes s.bs
  visitGroups r s metas (List.range s.groups.toNat) m bitmap

/-! XFS. -/

structure XfsSuper where
  bs : Nat
  dblocks : Nat
  agblocks : Nat
  agcount : Nat
  sectSize : Nat
  v5 : Bool
  sized : 512 ≤ bs ∧ bs ≤ 65536
  counted : dblocks < 2 ^ 63

def xfsSuper (sb : Buffer) : Outcome MapError XfsSuper := do
  let bs ← be 4 sb 4
  let dblocks ← be 8 sb 8
  let agblocks ← be 4 sb 84
  let agcount ← be 4 sb 88
  let sectSize ← be 2 sb 102
  let version ← be 2 sb 100
  if bad : bs < 512 ∨ bs > 65536 ∨ agblocks = 0 ∨ agcount = 0 ∨ sectSize < 512 ∨
      int64 dblocks ≤ 0 then .error .errNoFreeSpaceMap
  else
    return {
      bs := bs, dblocks := (int64 dblocks).toNat, agblocks := agblocks, agcount := agcount
      sectSize := sectSize, v5 := version &&& 0xF = 5
      sized := ⟨Nat.le_of_not_lt fun less => bad (Or.inl less),
        Nat.le_of_not_lt fun more => bad (Or.inr (Or.inl more))⟩
      counted := toNat_lt_int64 _ }

namespace XfsSuper

variable (x : XfsSuper)

def hdr : Nat := if x.v5 then 56 else 16

/-- AB3B and ABTB -/
def magic : List UInt8 := if x.v5 then [65, 66, 51, 66] else [65, 66, 84, 66]

/-- 8-byte keys, then 4-byte pointers. -/
def maxrecs : Nat := (x.bs - x.hdr) / 12

/-- Where the pointer of a record is. -/
def pointer (i : Nat) : Nat := x.hdr + x.maxrecs * 8 + i * 4

def agStart (ag : Nat) : Int := int64 (ag * x.agblocks)

end XfsSuper

/-- The records of a leaf from i. -/
def leafRecords (x : XfsSuper) (ag : Nat) (b : Buffer) : Nat → Nat → Map → Outcome MapError Map
  | 0, _, m => .ok m
  | left + 1, i, m =>
      let o := x.hdr + i * 8
      if o + 8 > x.bs then .ok m
      else do
        let start ← be 4 b o
        let count ← be 4 b (o + 4)
        if start + count > x.agblocks then .error .errNoFreeSpaceMap
        else
          let m ← m.free (int64 (x.agStart ag + start)) count
          leafRecords x ag b left (i + 1) m

/-- The records of an inner block from i; walk is the walk one level down. -/
def innerRecords (x : XfsSuper) (b : Buffer) (walk : Nat → Map → Outcome MapError Map) :
    Nat → Nat → Map → Outcome MapError Map
  | 0, _, m => .ok m
  | left + 1, i, m => do
      let child ← be 4 b (x.pointer i)
      let m ← walk child m
      innerRecords x b walk left (i + 1) m

/-- A block of the free-space tree, once its place and its magic are checked. -/
def treeBlock (r : Reader) (x : XfsSuper) (ag agbno : Nat) : Outcome MapError Buffer := do
  if agbno = 0 ∨ agbno ≥ x.agblocks then .error .errNoFreeSpaceMap
  else
    let b ← makeBytes x.bs
    let b ← r.readSome b (int64 (int64 (x.agStart ag + agbno) * x.bs))
    let found ← tag b
    if found ≠ x.magic then .error .errNoFreeSpaceMap else return b

/-- The first number counts the levels left: the depth may be 16 at most. -/
def walk (r : Reader) (x : XfsSuper) (ag : Nat) : Nat → Nat → Map → Outcome MapError Map
  | 0, _, _ => .error .errNoFreeSpaceMap
  | levels + 1, agbno, m => do
      let b ← treeBlock r x ag agbno
      let level ← be 2 b 4
      let n ← be 2 b 6
      if level = 0 then leafRecords x ag b n 0 m
      else innerRecords x b (walk r x ag levels) n 0 m

def agfSize : Nat := 64

/-- The root of an allocation group's tree. -/
def agRoot (r : Reader) (x : XfsSuper) (ag : Nat) : Outcome MapError Nat := do
  let agf ← makeBytes agfSize
  let agf ← r.readSome agf (int64 (int64 (x.agStart ag * x.bs) + x.sectSize))
  let found ← tag agf
  -- XAGF
  if found ≠ [88, 65, 71, 70] then .error .errNoFreeSpaceMap else be 4 agf 16

def xfsGroups (r : Reader) (x : XfsSuper) : Nat → Nat → Map → Outcome MapError Map
  | 0, _, m => .ok m
  | left + 1, ag, m => do
      let root ← agRoot r x ag
      let m ← walk r x ag 17 root m
      xfsGroups r x left (ag + 1) m

def xfsSuperSize : Nat := 512

/-- The superblock in sector 0. -/
def xfsRead (r : Reader) : Outcome MapError XfsSuper := do
  let sb ← makeBytes xfsSuperSize
  let sb ← r.readFull sb 0
  xfsSuper sb

def xfsUsedMap (r : Reader) : Outcome MapError Map := do
  let x ← xfsRead r
  let m ← Map.newUsedMap x.dblocks
  xfsGroups r x x.agcount 0 m

inductive FileSystem where
  | ext
  | xfs
  | other
  deriving DecidableEq

def headSize : Nat := 2048

/-- The switch of LinuxFreeSpaceMap. -/
def fileSystem (r : Reader) : Outcome MapError FileSystem := do
  let head ← makeBytes headSize
  let head ← r.readSome head 0
  let magic ← le 2 head (1024 + 56)
  let name ← tag head
  -- XFSB
  return if magic = 0xEF53 then .ext else if name = [88, 70, 83, 66] then .xfs else .other

def LinuxFreeSpaceMap (r : Reader) : Outcome MapError Map := do
  match ← fileSystem r with
  | .ext => extUsedMap r
  | .xfs => xfsUsedMap r
  | .other => .error .errNoFreeSpaceMap

end ProxmoxBackup.FreeSpaceMap
