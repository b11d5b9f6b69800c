import ProxmoxBackup.FreeSpaceSafe
import ProxmoxBackup.BlockMap

/-! gui/imagefs/ext.go with every index into a slice and every size of a make: opening an
ext file system, its inodes, its listing, and what is read of its files and links. Errors
are not told apart. -/
namespace ProxmoxBackup.ExtReader

open GoValues FreeSpaceMap FileReads

abbrev Read (α : Type) := Outcome MapError α

/-- b[lo:hi] -/
def slice (b : Buffer) (lo hi : Nat) : Read Buffer :=
  if lo ≤ hi ∧ hi ≤ b.length then .ok ⟨hi - lo, fun i => b.byte (lo + i)⟩ else .panicked

structure Ext extends BlockMap.Ext where
  inodesPerGroup : Nat
  groups : Nat
  inodeSize : Nat
  incompat : Nat
  inodeTables : List Int

def has (flags bit : Nat) : Bool := flags &&& bit ≠ 0

/-! Opening. -/

def readTables (blockSize descSize : Nat) (gdt : Buffer) : Nat → Read (List Int)
  | 0 => .ok []
  | g + 1 => do
      let before ← readTables blockSize descSize gdt g
      let d ← slice gdt (g * descSize) gdt.length
      let low ← le 4 d 8
      let high ← provided (64 ≤ descSize) (le 4 d 0x28) 0
      return before ++ [int64 (int64 (low + high * 2 ^ 32) * blockSize)]

def descSize (ds : Nat) : Nat := if 64 ≤ ds then ds else 32

def groupCount (blocks firstData blocksPerGroup : Nat) : Nat :=
  (blocks + (2 ^ 64 - firstData) + blocksPerGroup - 1) % 2 ^ 64 / blocksPerGroup % 2 ^ 32

def openExt (v : Volume) : Read Ext := do
  let sb ← makeBytes 1024
  let sb ← v.readFull sb 1024
  let magic ← le 2 sb 56
  if magic ≠ 0xEF53 then .error .read
  else do
  let logBS ← le 4 sb 24
  if small : logBS > 6 then .error .read
  else do
  let blockSize : Nat := 1024 * 2 ^ logBS
  let inodesPerGroup ← le 4 sb 40
  let blocksPerGroup ← le 4 sb 32
  let revLevel ← le 4 sb 76
  let inodeSize ← provided (1 ≤ revLevel) (le 2 sb 88) 128
  let incompat ← le 4 sb 96
  let _ ← le 4 sb 100
  let _ ← slice sb 120 136
  if has incompat 0x10 then .error .read
  else do
  let low ← le 4 sb 4
  let high ← provided (has incompat 0x80 = true) (le 4 sb 336) 0
  let ds ← provided (has incompat 0x80 = true) (le 2 sb 254) 0
  if inodesPerGroup = 0 ∨ blocksPerGroup = 0 ∨ inodeSize < 128 then .error .read
  else do
  let firstData ← le 4 sb 20
  let groups := groupCount (low + high * 2 ^ 32) firstData blocksPerGroup
  if groups = 0 ∨ groups > 2 ^ 24 then .error .read
  else do
  let gdt ← makeBytes (groups * descSize ds)
  let gdt ← v.readSome gdt (int64 ((firstData + 1) * blockSize))
  let _ ← makes groups 8
  let inodeTables ← readTables blockSize (descSize ds) gdt groups
  return {
    v, logBS, small := Nat.le_of_not_lt small, inodesPerGroup, groups, inodeSize, incompat
    inodeTables }

/-! Inodes. -/

/-- What the reader keeps of an inode; `inline` is the inline data beyond the block. -/
structure ExtInode extends BlockMap.Inode where
  num : Nat
  mode : Nat
  flags : Nat
  inline : Buffer

def nothing : Buffer := ⟨0, fun _ => 0⟩

/-- The loop of inlineXattr at `o`; the first number counts its turns. -/
def findData (base : Buffer) : Nat → Nat → Read Buffer
  | 0, _ => .panicked
  | turns + 1, o =>
      if o + 16 ≤ base.length then do
        let nameLen ← le 1 base o
        let idx ← le 1 base (o + 1)
        if nameLen = 0 ∧ idx = 0 then .ok nothing
        else do
        let valOff ← le 2 base (o + 2)
        let valSize ← le 4 base (o + 8)
        if o + 16 + nameLen > base.length then .ok nothing
        else do
        let name ← slice base (o + 16) (o + 16 + nameLen)
        if idx = 7 ∧ (List.range name.length).map name.byte = [100, 97, 116, 97] ∧
            valOff + valSize ≤ base.length then slice base valOff (valOff + valSize)
        else findData base turns (o + (16 + nameLen + 3) / 4 * 4)
      else .ok nothing

def inlineXattr (b : Buffer) : Read Buffer :=
  if b.length < 4 then .ok nothing
  else do
    let magic ← le 4 b 0
    if magic ≠ 0xEA020000 then .ok nothing
    else do
      let base ← slice b 4 b.length
      findData base (base.length + 1) 0

def itPiece : Nat := 64 * 1024

/-- How many bytes a read of `size` at `off` gives. -/
def available (v : Volume) (size : Nat) (off : Int) : Nat :=
  if off < 0 then 0 else min size (v.image.length - off.toNat)

/-- The cache only keeps pieces as they are read. -/
def inodeBytes (v : Ext) (off : Int) : Read Buffer := do
  let piece := off - off.tmod itPiece
  let buf ← makeBytes itPiece
  let buf ← v.v.readSome buf piece
  let n := available v.v itPiece piece
  let inn := off - piece
  if inn + v.inodeSize > n then .error .read
  else if inn < 0 then .panicked
  else .ok ⟨v.inodeSize, fun i => buf.byte (inn.toNat + i)⟩

/-- The times beyond the first 128 bytes. -/
def readTimes (b : Buffer) (extra : Nat) : Read Unit := do
  let _ ← provided (12 ≤ extra) (le 4 b 0x88) 0
  let cr ← provided (24 ≤ extra) (le 4 b 0x90) 0
  let _ ← provided (24 ≤ extra ∧ cr ≠ 0) (le 4 b 0x94) 0
  return ()

def extFlagInlineData : Nat := 0x10000000

def extFlagExtents : Nat := 0x80000

def readInline (flags : Nat) (b : Buffer) (extra : Nat) : Read Buffer :=
  provided (has flags extFlagInlineData = true ∧ 0 < extra) (do
    let rest ← slice b (128 + extra) b.length
    inlineXattr rest) nothing

def parseInode (v : Ext) (num : Nat) (b : Buffer) : Read ExtInode := do
  let mode ← le 2 b 0
  let flags ← le 4 b 32
  let _ ← le 2 b 2
  let _ ← le 2 b 120
  let _ ← le 2 b 24
  let _ ← le 2 b 122
  let low ← le 4 b 4
  let high ← le 4 b 108
  let block ← slice b 40 100
  let _ ← le 4 b 16
  let extra ← provided (128 < v.inodeSize) (le 2 b 128) 0
  readTimes b extra
  let inline ← readInline flags b extra
  return {
    num, mode, flags, inline, extentTree := has flags extFlagExtents
    size := int64 (low + high * 2 ^ 32), sized := int64_range _
    block := ⟨60, block.byte⟩, sixty := rfl }

/-- Where the inode is in the image, if its number is in range. -/
def inodeAt (v : Ext) (num : Nat) : Read Int :=
  if num = 0 ∨ num > v.inodesPerGroup * v.groups % 2 ^ 32 then .error .read
  else
    match v.inodeTables[(num - 1) / v.inodesPerGroup]? with
    | none => .panicked
    | some table => .ok (int64 (table + ((num - 1) % v.inodesPerGroup * v.inodeSize : Nat)))

def inode (v : Ext) (num : Nat) : Read ExtInode := do
  let off ← inodeAt v num
  let b ← inodeBytes v off
  parseInode v num b

/-! Extents, with their indexes. -/

def readBlock (v : Ext) (blk : Nat) : Read Buffer := do
  let b ← makeBytes v.blockSize
  v.v.readSome b (int64 (blk * v.blockSize))

def extentEntries (v : Ext) (child : Buffer → List Extent → Read (List Extent))
    (node : Buffer) (level : Nat) : Nat → Nat → List Extent → Read (List Extent)
  | 0, _, out => .ok out
  | left + 1, i, out => do
      let e ← slice node (12 + 12 * i) node.length
      if e.length < 12 then .error .read
      else if level = 0 then do
        let l ← le 2 e 4
        let unwritten := decide (l > 32768)
        let l := if unwritten then l - 32768 else l
        let high ← le 2 e 6
        let low ← le 4 e 8
        let logical ← le 4 e 0
        extentEntries v child node level left (i + 1)
          (out ++ [{ logical, phys := high * 2 ^ 32 + low, length := l, unwritten }])
      else do
        let low ← le 4 e 4
        let high ← le 2 e 8
        let b ← readBlock v (low + high * 2 ^ 32)
        let out ← child b out
        extentEntries v child node level left (i + 1) out

def walkExtentNode (v : Ext) : Nat → Buffer → List Extent → Read (List Extent)
  | 0, _, _ => .error .read
  | deeper + 1, node, out =>
      if node.length < 12 then .error .read
      else do
        let magic ← le 2 node 0
        if magic ≠ 0xF30A then .error .read
        else do
          let entries ← le 2 node 2
          let level ← le 2 node 6
          extentEntries v (walkExtentNode v deeper) node level entries 0 out

open BlockMap.Ext (Walked add)

def ptr (ino : ExtInode) (i : Nat) : Read Nat := le 4 ino.block (i * 4)

def direct (ino : ExtInode) : Nat → Read (List Extent)
  | 0 => .ok []
  | n + 1 => do
      let out ← direct ino n
      let p ← ptr ino n
      return add n p out

def leaf (p : Nat) (s : Walked) : Read Walked := .ok ⟨add s.logical p s.out, s.logical + 1⟩

def entries (nblocks : Nat) (child : Nat → Walked → Read Walked) (b : Buffer) :
    Nat → Nat → Walked → Read Walked
  | 0, _, s => .ok s
  | left + 1, k, s =>
      if s.logical < nblocks then do
        let p ← le 4 b (k * 4)
        let s ← child p s
        entries nblocks child b left (k + 1) s
      else .ok s

def table (v : Ext) (nblocks depth : Nat) (child : Nat → Walked → Read Walked) (blk : Nat)
    (s : Walked) : Read Walked :=
  if blk = 0 then .ok { s with logical := s.logical + v.per ^ depth * v.per }
  else do
    let b ← readBlock v blk
    entries nblocks child b v.per 0 s

def walk (v : Ext) (nblocks : Nat) : Nat → Nat → Walked → Read Walked
  | 0 => table v nblocks 0 leaf
  | depth + 1 => table v nblocks (depth + 1) (walk v nblocks depth)

def levels (v : Ext) (nblocks : Nat) (ino : ExtInode) : Nat → Nat → Walked → Read Walked
  | 0, _, s => .ok s
  | left + 1, lvl, s =>
      if s.logical < nblocks then do
        let p ← ptr ino (12 + lvl)
        let s ← walk v nblocks lvl p s
        levels v nblocks ino left (lvl + 1) s
      else .ok s

def extents (v : Ext) (ino : ExtInode) : Read (List Extent) :=
  if ino.extentTree then walkExtentNode v 9 ino.block []
  else do
    let nblocks := v.nblocks ino.toInode
    let out ← direct ino (min 12 nblocks)
    let s ← levels v nblocks ino 3 0 ⟨out, 12⟩
    return s.out.reverse

/-! Files, folders and links. -/

inductive FileReader where
  | extFile (f : ExtFile)
  | bytesFile (b : Buffer)

/-- The inline data of an inode. -/
def inlineData (ino : ExtInode) : Buffer :=
  ⟨60 + ino.inline.length, fun i => if i < 60 then ino.block.byte i else ino.inline.byte (i - 60)⟩

def extFile (v : Ext) (ino : ExtInode) (ex : List Extent) : ExtFile := ⟨v.v, v.blockSize, ino.size, ex⟩

def content (v : Ext) (ino : ExtInode) : Read Buffer :=
  if has ino.flags extFlagInlineData then
    let d := inlineData ino
    if (d.length : Int) > ino.size then
      if ino.size < 0 then .panicked else slice d 0 ino.size.toNat
    else .ok d
  else if ino.size > 2 ^ 30 then .error .read
  else do
    let ex ← extents v ino
    let b ← makeBytes ino.size
    let result := (extFile v ino ex).readAt b 0
    if result.err = none ∨ result.err = some .eof then .ok result.buf else .error .read

def openInode (v : Ext) (ino : ExtInode) : Read FileReader :=
  if has ino.flags extFlagInlineData then
    match content v ino with
    | .ok d => .ok (.bytesFile d)
    | .error _ => .ok (.bytesFile nothing)
    | .panicked => .panicked
  else do
    let ex ← extents v ino
    return .extFile (extFile v ino ex)

def readLink (v : Ext) (ino : ExtInode) : Read Buffer :=
  if ino.size < 60 ∧ ino.extentTree = false then
    if ino.size < 0 then .panicked else slice ino.block 0 ino.size.toNat
  else content v ino

def isDir (ino : ExtInode) : Bool := ino.mode &&& 0xF000 = 0x4000
def isReg (ino : ExtInode) : Bool := ino.mode &&& 0xF000 = 0x8000
def isSymlink (ino : ExtInode) : Bool := ino.mode &&& 0xF000 = 0xA000

def readBytes (b p : Buffer) (off : Nat) : Read ReadResult :=
  if off ≥ b.length then .ok ⟨p, 0, some .eof⟩
  else do
    let rest ← slice b off b.length
    let n := min p.length rest.length
    let buf : Buffer := ⟨p.length, fun i => if i < n then rest.byte i else p.byte i⟩
    return ⟨buf, n, if n < p.length then some .eof else none⟩

def readFile (f : FileReader) (p : Buffer) (off : Nat) : Read ReadResult :=
  match f with
  | .extFile f => .ok (f.readAt p off)
  | .bytesFile b => readBytes b p off

/-! The listing. -/

structure ExtDirent where
  ino : Nat
  name : List UInt8

/-- The loop of parseDir at `o`; the first number counts its turns. -/
def parseDir (v : Ext) (b : Buffer) (inline : Bool) : Nat → Nat → List ExtDirent →
    Read (List ExtDirent)
  | 0, _, _ => .panicked
  | turns + 1, o, out =>
      if o + 8 ≤ b.length then do
        let ino ← le 4 b o
        let recLen ← le 2 b (o + 4)
        let low ← le 1 b (o + 6)
        let high ← provided (has v.incompat 0x2 = false) (le 1 b (o + 7)) 0
        let nameLen := low + high * 256
        if recLen < 8 ∨ o + recLen > b.length then
          let next := (o / v.blockSize + 1) * v.blockSize
          if inline ∨ next ≤ o then .ok out else parseDir v b inline turns next out
        else if ino ≠ 0 ∧ nameLen > 0 ∧ o + 8 + nameLen ≤ b.length then do
          let name ← slice b (o + 8) (o + 8 + nameLen)
          parseDir v b inline turns (o + recLen)
            (out ++ [{ ino, name := (List.range name.length).map name.byte }])
        else parseDir v b inline turns (o + recLen) out
      else .ok out

structure Dir where
  path : List UInt8
  ino : Nat
  depth : Nat

structure Entry where
  path : List UInt8
  isDir : Bool
  symlink : Bool
  target : Option Buffer
  size : Nat
  record : Nat

def extRootInode : Nat := 2

def lostFound : List UInt8 := "lost+found".toUTF8.toList

def joined (d : Dir) (name : List UInt8) : List UInt8 :=
  if d.path = [] then name else d.path ++ 47 :: name

structure Result where
  entries : List Entry
  subdirs : List Dir

def entryOf (d : Dir) (name : List UInt8) (child : ExtInode) : Entry :=
  { path := joined d name, isDir := isDir child, symlink := isSymlink child, target := none
    size := if isReg child then (child.size % 2 ^ 64).toNat else 0, record := child.num }

/-- The target a link is given; one that cannot be read is left empty. -/
def linkTarget (v : Ext) (child : ExtInode) : Read (Option Buffer) :=
  match readLink v child with
  | .ok t => .ok (some t)
  | .error _ => .ok none
  | .panicked => .panicked

/-- A name that is not listed. -/
def leftOut (ino : Nat) (de : ExtDirent) : Prop :=
  de.name = [46] ∨ de.name = [46, 46] ∨ (ino = extRootInode ∧ de.name = lostFound)

instance (ino : Nat) (de : ExtDirent) : Decidable (leftOut ino de) := by
  unfold leftOut
  infer_instance

/-- What one name of a folder adds. -/
def readName (v : Ext) (d : Dir) (de : ExtDirent) : Read Result :=
  if leftOut d.ino de then .ok ⟨[], []⟩
  else
    match inode v de.ino with
    | .error _ => .ok ⟨[], []⟩
    | .panicked => .panicked
    | .ok child =>
        let e := entryOf d de.name child
        if isDir child then
          .ok ⟨[e], if d.depth < 4096 then
            [{ path := joined d de.name, ino := child.num, depth := d.depth + 1 }] else []⟩
        else if isReg child then .ok ⟨[e], []⟩
        else if isSymlink child then do
          let target ← linkTarget v child
          return ⟨[{ e with target }], []⟩
        else .ok ⟨[], []⟩

def readNames (v : Ext) (d : Dir) : List ExtDirent → Result → Read Result
  | [], res => .ok res
  | de :: rest, res => do
      let one ← readName v d de
      readNames v d rest ⟨res.entries ++ one.entries, res.subdirs ++ one.subdirs⟩

/-- The names in a folder; an inline one starts with the parent's inode number. -/
def folderNames (v : Ext) (num : Nat) : Read (List ExtDirent) := do
  let ino ← inode v num
  let data ← content v ino
  let inline := has ino.flags extFlagInlineData
  let start := if inline then 4 else 0
  if start > data.length then .ok []
  else do
    let rest ← slice data start data.length
    parseDir v rest inline (rest.length + 1) 0 []

def readDir (v : Ext) (d : Dir) : Read Result := do
  let names ← folderNames v d.ino
  readNames v d names ⟨[], []⟩

/-- The workers' results, each in its own place; a panic of one ends the program. -/
def readLevel (v : Ext) : List Dir → Read (List (Dir × Option Result))
  | [] => .ok []
  | d :: rest =>
      match readDir v d with
      | .panicked => .panicked
      | .error _ => do
          let results ← readLevel v rest
          return (d, none) :: results
      | .ok res => do
          let results ← readLevel v rest
          return (d, some res) :: results

structure Listing where
  out : List Entry
  seenDir : List Nat
  following : List Dir
  skipped : Nat

def follow : List Dir → Listing → Listing
  | [], s => s
  | sd :: rest, s =>
      if sd.ino ∈ s.seenDir then follow rest s
      else follow rest { s with seenDir := sd.ino :: s.seenDir, following := s.following ++ [sd] }

def gather : List (Dir × Option Result) → Listing → Read Listing
  | [], s => .ok s
  | (d, none) :: rest, s =>
      if d.ino = extRootInode then .error .read
      else gather rest { s with skipped := s.skipped + 1 }
  | (_, some res) :: rest, s =>
      gather rest (follow res.subdirs { s with out := s.out ++ res.entries })

/-- The loop over the levels; the first number counts them. -/
def listLevels (v : Ext) : Nat → List Dir → Listing → Read Listing
  | 0, _, _ => .panicked
  | turns + 1, level, s =>
      if level = [] then .ok s
      else do
        let results ← readLevel v level
        let s ← gather results { s with following := [] }
        listLevels v turns s.following s

def list (v : Ext) : Read Listing :=
  listLevels v 4098 [{ path := [], ino := extRootInode, depth := 0 }] ⟨[], [extRootInode], [], 0⟩

/-- Open, of an entry from the listing. -/
def openEntry (v : Ext) (e : Entry) : Read FileReader := do
  let ino ← inode v e.record
  openInode v ino

end ProxmoxBackup.ExtReader
