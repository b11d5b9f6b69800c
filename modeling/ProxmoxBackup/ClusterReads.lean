import ProxmoxBackup.BlockMap
import ProxmoxBackup.FatListing

/-! Files of FAT and exFAT volumes, read cluster by cluster, and what a read of any file of
these volumes and of ext volumes gives. -/
namespace ProxmoxBackup.ClusterReads

open FreeSpaceMap GoValues FileReads BlockMap

/-- Bytes from `zeroFrom` on read as zeros; `clusters` are the places of the clusters. -/
structure ClusterFile where
  v : Volume
  size : Int
  zeroFrom : Int
  clusterSize : Nat
  clusters : List Nat

namespace ClusterFile

variable (f : ClusterFile)

/-- What has been read past the valid data is zeroed. -/
def zeroed (n pos chunk : Nat) (dst : Buffer) : Buffer :=
  if (pos + chunk : Int) > f.zeroFrom then
    let valid := (f.zeroFrom - pos).toNat
    zeroInto dst (n + valid) (chunk - valid)
  else dst

def readChunk (buf : Buffer) (n pos chunk : Nat) (disk : Int) : Except ReadError (Buffer × Nat) :=
  match readInto f.v buf n chunk disk with
  | .error err => .error err
  | .ok dst => .ok (f.zeroed n pos chunk dst, chunk)

def turn (len off : Nat) : Turn := fun n buf =>
  let pos := off + n
  let ci := pos / f.clusterSize
  let inn := pos % f.clusterSize
  let chunk := min (min (f.clusterSize - inn) (f.size - pos).toNat) (len - n)
  if (pos : Int) ≥ f.zeroFrom then .ok (zeroInto buf n chunk, chunk)
  else
    match f.clusters[ci]? with
    | none => .error .unexpectedEOF
    | some c => f.readChunk buf n pos chunk (int64 (c + inn : Nat))

def readAt (p : Buffer) (off : Nat) : ReadResult :=
  if (off : Int) ≥ f.size then ⟨p, 0, some .eof⟩
  else
    shortAtEnd p (readLoop (fun n => n < p.length && (off + n : Int) < f.size)
      (f.turn p.length off) p.length 0 p)

/-- Where byte `pos` is: in its cluster, unless it is past the valid data. -/
def place (pos : Nat) : Option Nat :=
  if (pos : Int) ≥ f.zeroFrom then none
  else f.clusters[pos / f.clusterSize]?.map (· + pos % f.clusterSize)

/-- There is a cluster for every byte that is not past the valid data. -/
structure Covers : Prop where
  clusters : 0 < f.clusterSize
  enough : min f.size f.zeroFrom ≤ f.clusters.length * f.clusterSize

end ClusterFile

open ClusterFile

theorem zero_content {v : Volume} {place : Nat → Option Nat} {pos : Nat} {b : UInt8}
    (nowhere : place pos = none) (zero : b = 0) : Content v place pos b := by
  rw [Content, nowhere]
  exact zero

theorem place_within {f : ClusterFile} {pos j c : Nat} (clusters : 0 < f.clusterSize)
    (short : j < f.clusterSize - pos % f.clusterSize)
    (listed : f.clusters[pos / f.clusterSize]? = some c) (valid : ((pos + j : Nat) : Int) < f.zeroFrom) :
    f.place (pos + j) = some (c + pos % f.clusterSize + j) := by
  have parts := Nat.div_add_mod pos f.clusterSize
  have split_ : pos + j = f.clusterSize * (pos / f.clusterSize) + (pos % f.clusterSize + j) := by omega
  have low : pos % f.clusterSize + j < f.clusterSize := by omega
  have quotient : (pos + j) / f.clusterSize = pos / f.clusterSize := by
    rw [split_, Nat.mul_add_div clusters, Nat.div_eq_of_lt low, Nat.add_zero]
  have rest : (pos + j) % f.clusterSize = pos % f.clusterSize + j := by
    rw [split_, Nat.mul_add_mod, Nat.mod_eq_of_lt low]
  rw [ClusterFile.place, if_neg (Int.not_le.mpr valid), quotient, rest, listed, Option.map_some,
    Nat.add_assoc]

theorem readChunk_ok {f : ClusterFile} {buf dst : Buffer} {n pos chunk : Nat} {disk : Int}
    (read : readInto f.v buf n chunk disk = .ok dst) :
    f.readChunk buf n pos chunk disk = .ok (f.zeroed n pos chunk dst, chunk) := by
  rw [readChunk, read]

/-- A chunk of one cluster, once it is read and zeroed past the valid data. -/
theorem zeroed_fills {f : ClusterFile} (clusters : 0 < f.clusterSize) {off n chunk want c : Nat}
    {buf dst : Buffer} (progress : 0 < chunk) (inside : n + chunk ≤ want)
    (within : chunk ≤ f.clusterSize - (off + n) % f.clusterSize)
    (listed : f.clusters[(off + n) / f.clusterSize]? = some c) (length : dst.length = buf.length)
    (others : ∀ i, i < n ∨ n + chunk ≤ i → dst.byte i = buf.byte i)
    (bytes : ∀ i, n ≤ i → i < n + chunk →
      c + (off + n) % f.clusterSize + (i - n) < f.v.image.length →
        dst.byte i = f.v.image.byte (c + (off + n) % f.clusterSize + (i - n))) :
    FillsRun (fun i => Content f.v f.place (off + i)) want n buf
      (f.zeroed n (off + n) chunk dst, chunk) := by
  have stored (i : Nat) (low : n ≤ i) (high : i < n + chunk)
      (valid : ((off + i : Nat) : Int) < f.zeroFrom) :
      Content f.v f.place (off + i) (dst.byte i) := by
    have spot : off + i = off + n + (i - n) := by omega
    have short : i - n < f.clusterSize - (off + n) % f.clusterSize := by omega
    have placed := place_within clusters short listed (by rwa [← spot])
    rw [Content, spot, placed]
    exact bytes i low high
  unfold ClusterFile.zeroed
  by_cases crosses : (((off + n : Nat) : Int) + chunk) > f.zeroFrom
  · rw [if_pos crosses]
    have order : (f.zeroFrom - ((off + n : Nat) : Int)).toNat ≤ chunk := by omega
    refine ⟨progress, inside, length, ?_, ?_⟩
    · intro i low high
      simp only at high ⊢
      by_cases valid : ((off + i : Nat) : Int) < f.zeroFrom
      · have before : i < n + (f.zeroFrom - ((off + n : Nat) : Int)).toNat := by omega
        rw [zeroInto, spliced_outside (.inl before)]
        exact stored i low high valid
      · have behind : n + (f.zeroFrom - ((off + n : Nat) : Int)).toNat ≤ i := by omega
        apply zero_content
        · exact if_pos (Int.not_lt.mp valid)
        · exact spliced_inside behind (by omega)
    · intro i out
      simp only at out ⊢
      rw [zeroInto, spliced_outside (by omega)]
      exact others i out
  · rw [if_neg crosses]
    refine ⟨progress, inside, length, ?_, others⟩
    intro i low high
    simp only at high
    exact stored i low high (by omega)

/-- A chunk ends with its cluster, the file or the buffer. -/
theorem turn_fills {f : ClusterFile} (covers : f.Covers) (len off : Nat) :
    Fills (fun i => Content f.v f.place (off + i)) (min len (f.size - off).toNat)
      (f.turn len off) := by
  intro n buf more
  have within := Nat.mod_lt (off + n) covers.clusters
  obtain ⟨chunk, chunked⟩ : ∃ chunk, chunk = min (min (f.clusterSize - (off + n) % f.clusterSize)
    (f.size - ((off + n : Nat) : Int)).toNat) (len - n) := ⟨_, rfl⟩
  have progress : 0 < chunk := by omega
  have inside : n + chunk ≤ min len (f.size - off).toNat := by omega
  unfold ClusterFile.turn
  simp only
  rw [← chunked]
  by_cases past : ((off + n : Nat) : Int) ≥ f.zeroFrom
  · rw [if_pos past]
    refine ⟨_, rfl, progress, inside, rfl, ?_, fun i out => spliced_outside out⟩
    intro i low high
    apply zero_content
    · exact if_pos (by omega)
    · exact spliced_inside low high
  · rw [if_neg past]
    have first : (off + n) / f.clusterSize < f.clusters.length := by
      have enough := covers.enough
      have bound : ((off + n : Nat) : Int) < f.clusters.length * f.clusterSize := by omega
      have short : off + n < f.clusterSize * f.clusters.length := by
        rw [Nat.mul_comm]
        exact_mod_cast bound
      exact Nat.div_lt_of_lt_mul short
    obtain ⟨c, listed⟩ : ∃ c, f.clusters[(off + n) / f.clusterSize]? = some c :=
      ⟨_, List.getElem?_eq_getElem first⟩
    rw [listed]
    obtain ⟨dst, read, length, others, bytes⟩ :=
      readInto_volume f.v buf n chunk (c + (off + n) % f.clusterSize)
    exact ⟨_, readChunk_ok read, zeroed_fills covers.clusters progress inside (by omega) listed
      length others bytes⟩

theorem readAt_exact {f : ClusterFile} (covers : f.Covers) (p : Buffer) (off : Nat) :
    ReadsExactly (Content f.v f.place) f.size p off (f.readAt p off) := by
  unfold ClusterFile.readAt
  by_cases past : (off : Int) ≥ f.size
  · rw [if_pos past]
    exact reads_past_end past
  · rw [if_neg past]
    apply reads_of_fills (by omega) ?_ (turn_fills covers p.length off) (Nat.min_le_left _ _)
    intro n
    rw [Bool.and_eq_true, decide_eq_true_iff, decide_eq_true_iff]
    omega

/-! Opening a file: a chain that is too short for it is refused. -/

/-- FAT.Open of a file of `size` bytes at cluster `first`. -/
def openFAT (v : Volume) (fs : FatListing.FAT) (size first : UInt32) : Option ClusterFile :=
  let f : ClusterFile :=
    { v, size := size.toNat, zeroFrom := size.toNat, clusterSize := fs.clusterSize, clusters := [] }
  if size = 0 then some f
  else
    let need := (size.toNat + fs.clusterSize - 1) / fs.clusterSize
    let clusters := (fs.chainFrom need first).map fs.clusterOffset
    if clusters.length < need then none else some { f with clusters }

def openExFAT (v : Volume) (fs : ExfatListing.ExFAT) (size valid : Int) (first : UInt32)
    (noChain : Bool) : Option ClusterFile :=
  let zeroFrom := if valid ≥ 0 ∧ valid < size then valid else size
  let f : ClusterFile := { v, size, zeroFrom, clusterSize := fs.clusterSize, clusters := [] }
  if size = 0 then some f
  else
    let need := (int64 (size + fs.clusterSize - 1)).tdiv fs.clusterSize
    let clusters := (fs.clusterList first noChain need).map fs.clusterOffset
    if (clusters.length : Int) < need then none else some { f with clusters }

theorem size_le_needed (size : Nat) {clusterSize : Nat} (clusters : 0 < clusterSize) :
    size ≤ (size + clusterSize - 1) / clusterSize * clusterSize := by
  have parts := Nat.div_add_mod (size + clusterSize - 1) clusterSize
  have rest := Nat.mod_lt (size + clusterSize - 1) clusters
  rw [Nat.mul_comm] at parts
  omega

theorem openFAT_covers {v : Volume} {fs : FatListing.FAT} (clusters : 0 < fs.clusterSize)
    {size first : UInt32} {f : ClusterFile} (opened : openFAT v fs size first = some f) : f.Covers := by
  unfold openFAT at opened
  simp only at opened
  split at opened
  · rename_i empty
    cases opened
    refine ⟨clusters, ?_⟩
    simp [empty]
  · split at opened
    · cases opened
    · rename_i enough
      cases opened
      refine ⟨clusters, Int.le_trans (Int.min_le_left _ _) ?_⟩
      have needed := size_le_needed size.toNat clusters
      have counted := Nat.mul_le_mul_right fs.clusterSize (Nat.le_of_not_lt enough)
      simp only
      exact_mod_cast Nat.le_trans needed counted

theorem openExFAT_covers {v : Volume} {fs : ExfatListing.ExFAT} (clusters : 0 < fs.clusterSize)
    {size valid : Int} {first : UInt32} {noChain : Bool} {f : ClusterFile}
    (fits : size + fs.clusterSize ≤ 2 ^ 63)
    (opened : openExFAT v fs size valid first noChain = some f) : f.Covers := by
  unfold openExFAT at opened
  simp only at opened
  split at opened
  · rename_i empty
    cases opened
    refine ⟨clusters, Int.le_trans (Int.min_le_left _ _) ?_⟩
    simp [empty]
  · split at opened
    · cases opened
    · rename_i enough
      cases opened
      refine ⟨clusters, Int.le_trans (Int.min_le_left _ _) ?_⟩
      by_cases filled : 0 ≤ size
      · obtain ⟨size, rfl⟩ := Int.eq_ofNat_of_zero_le filled
        have same : int64 (size + fs.clusterSize - 1) = ((size + fs.clusterSize - 1 : Nat) : Int) := by
          rw [int64_same _ (by omega) (by omega)]
          omega
        rw [same, ← Int.ofNat_tdiv] at enough
        have needed := size_le_needed size clusters
        have counted := Nat.mul_le_mul_right fs.clusterSize
          (Int.ofNat_le.mp (Int.not_lt.mp enough))
        simp only at counted ⊢
        rw [same, ← Int.ofNat_tdiv]
        exact_mod_cast Nat.le_trans needed counted
      · exact Int.le_trans (Int.le_of_lt (Int.not_le.mp filled)) (by positivity)

/-- Every turn of a loop that wants `want` bytes gains some of them. -/
def Progresses (want : Nat) (turn : Turn) : Prop :=
  ∀ n buf, n < want → ∃ next run, turn n buf = .ok (next, run) ∧ 0 < run ∧ n + run ≤ want

theorem progresses_of_fills {content : Nat → UInt8 → Prop} {want : Nat} {turn : Turn}
    (fills : Fills content want turn) : Progresses want turn := by
  intro n buf more
  obtain ⟨⟨next, run⟩, turned, spec⟩ := fills n buf more
  exact ⟨next, run, turned, spec.progress, spec.inside⟩

/-- The blocks of a file of an ext volume: those of its extents, or of its block map. -/
def blocksOf (v : Ext) (ino : Inode) (ex : List Extent) : Nat → Option Nat :=
  if ino.extentTree then extentBlock ex else v.mapped ino

/-- Files are read exactly: ext files with sorted disjoint extents or any block map, and FAT
and exFAT files whose clusters reach to the end of their valid data, as all that are opened. -/
theorem reads_exact :
    (∀ (v : Ext) (ino : Inode) (ex : List Extent), v.extents ino = .ok ex →
      (ino.extentTree = true → Disjoint ex) → ∀ (p : Buffer) (off : Nat),
        let f : ExtFile := ⟨v.v, v.blockSize, ino.size, ex⟩
        let want := min p.length (ino.size - off).toNat
        Progresses want (f.turn off want) ∧
          ReadsExactly (Content v.v (placeIn v.blockSize (blocksOf v ino ex))) ino.size p off
            (f.readAt p off)) ∧
    (∀ (v : Ext) (ino : Inode), ino.extentTree = false → ∃ ex, v.extents ino = .ok ex) ∧
    (∀ f : ClusterFile, f.Covers → ∀ (p : Buffer) (off : Nat),
      Progresses (min p.length (f.size - off).toNat) (f.turn p.length off) ∧
        ReadsExactly (Content f.v f.place) f.size p off (f.readAt p off)) ∧
    (∀ (v : Volume) (fs : FatListing.FAT), 0 < fs.clusterSize → ∀ (size first : UInt32) f,
      openFAT v fs size first = some f → f.Covers) ∧
    ∀ (v : Volume) (fs : ExfatListing.ExFAT), 0 < fs.clusterSize →
      ∀ (size valid : Int) (first : UInt32) (noChain : Bool) f, size + fs.clusterSize ≤ 2 ^ 63 →
        openExFAT v fs size valid first noChain = some f → f.Covers := by
  refine ⟨?_, ?_, ?_, ?_, ?_⟩
  · intro v ino ex found sorted p off
    let f : ExtFile := ⟨v.v, v.blockSize, ino.size, ex⟩
    have blocks : 0 < f.blockSize := blockSize_positive v
    cases tree : ino.extentTree with
    | true =>
        have disjoint : Disjoint f.ex := sorted tree
        rw [blocksOf, if_pos tree]
        exact ⟨progresses_of_fills (ExtFile.turn_fills blocks disjoint off _),
          ExtFile.readAt_exact blocks disjoint p off⟩
    | false =>
        obtain ⟨mapped, walked, disjoint, same⟩ := extents_map v ino tree
        obtain rfl : mapped = ex := Except.ok.inj (walked.symm.trans found)
        rw [blocksOf, if_neg (by rw [tree]; exact Bool.false_ne_true)]
        have disjoint : Disjoint f.ex := disjoint
        have read := ExtFile.readAt_exact blocks disjoint p off
        exact ⟨progresses_of_fills (ExtFile.turn_fills blocks disjoint off _),
          reads_congr (fun pos inside => block_counted v ino inside) same read⟩
  · intro v ino classic
    obtain ⟨ex, walked, _⟩ := extents_map v ino classic
    exact ⟨ex, walked⟩
  · intro f covers p off
    exact ⟨progresses_of_fills (turn_fills covers p.length off), readAt_exact covers p off⟩
  · exact fun v fs clusters size first f opened => openFAT_covers clusters opened
  · exact fun v fs clusters size valid first noChain f fits opened =>
      openExFAT_covers clusters fits opened

/-- A volume of three blocks whose bytes are their places, modulo 256. -/
def sampleVolume : Volume where
  image := ⟨3072, fun i => .ofNat i⟩
  fits := by decide
  section_ := true
  sectioned := rfl

def sampleExt : Ext := ⟨sampleVolume, 0, by decide⟩

/-- One extent: block 1 of the file is block 2 of the disk. -/
def sampleInode : Inode where
  extentTree := true
  size := 1500
  sized := by decide
  block := ⟨60, fun i => [10, 0xF3, 1, 0, 4, 0, 0, 0, 0, 0, 0, 0, 1, 0, 0, 0, 1, 0, 0, 0, 2].getD i 0⟩
  sixty := rfl

def sampleExtents : List Extent := [{ logical := 1, phys := 2, length := 1, unwritten := false }]

/-- The second cluster of the file lies before the first; past byte 700 it reads as zeros. -/
def sampleClusters : ClusterFile := ⟨sampleVolume, 900, 700, 512, [1024, 512]⟩

theorem samples_read :
    ReadsExactly (Content sampleVolume (placeIn 1024 (blocksOf sampleExt sampleInode sampleExtents)))
      1500 ⟨600, fun _ => 7⟩ 1000
      (ExtFile.readAt ⟨sampleVolume, 1024, 1500, sampleExtents⟩ ⟨600, fun _ => 7⟩ 1000) ∧
    ReadsExactly (Content sampleVolume sampleClusters.place) 900 ⟨600, fun _ => 7⟩ 400
      (sampleClusters.readAt ⟨600, fun _ => 7⟩ 400) :=
  ⟨(reads_exact.1 sampleExt sampleInode sampleExtents (by rfl)
      (fun _ => List.pairwise_singleton _ _) ⟨600, fun _ => 7⟩ 1000).2,
    (reads_exact.2.2.1 sampleClusters ⟨by decide, by decide⟩ ⟨600, fun _ => 7⟩ 400).2⟩

end ProxmoxBackup.ClusterReads
