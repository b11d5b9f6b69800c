import Mathlib.Data.List.Pairwise
import Mathlib.Data.List.Sort
import Mathlib.Data.List.TakeWhile
import ProxmoxBackup.Tiling

/-! diskRegions and assembleSegments of machinebackuplib/linux.go: which part of
the disk's image is read from where. Positions are only compared, so they are
natural numbers. The snapshots taken and which paths are block devices are given.
sort.Slice may leave regions with one start in any order. -/

namespace ProxmoxBackup.DiskSegments

open Tiling

structure SnapShot where
  ObjectPath : String
  Valid : Bool
  CowFile : String

structure diskPartition where
  startByte : Nat
  endByte : Nat
  mountpoint : String
  fstype : String
  skip : Bool

structure diskSegment where
  start : Nat
  stop : Nat
  snapDev : String
  cowFile : String
  rawFS : Bool
  skip : Bool
  deriving DecidableEq

/-- A segment of the disk itself, as it is. -/
def rawDisk (start stop : Nat) : diskSegment := ⟨start, stop, "", "", false, false⟩

section

variable (isBlockDevice : String → Bool) (snapshots : String → Option SnapShot)

def freeSpaceKnown (fstype : String) : Bool :=
  fstype = "ext2" || fstype = "ext3" || fstype = "ext4" || fstype = "xfs"

/-- What diskRegions makes of a partition. -/
def diskRegion (total : Nat) (p : diskPartition) : Option diskSegment :=
  let stop := if p.endByte > total then total else p.endByte
  if p.skip then some ⟨p.startByte, stop, "", "", false, true⟩
  else if p.mountpoint = "" then
    if freeSpaceKnown p.fstype then some ⟨p.startByte, stop, "", "", true, false⟩ else none
  else match snapshots p.mountpoint with
    | none => none
    | some sn =>
        if !sn.Valid || sn.ObjectPath = "" || !isBlockDevice sn.ObjectPath then none
        else some ⟨p.startByte, stop, sn.ObjectPath, sn.CowFile, false, false⟩

def diskRegions (parts : List diskPartition) (total : Nat) : List diskSegment :=
  parts.filterMap (diskRegion isBlockDevice snapshots total)

end

/-- The loop of assembleSegments over what is left of the sorted regions. -/
def assembleFrom (total cursor : Nat) : List diskSegment → List diskSegment
  | [] => if cursor < total then [rawDisk cursor total] else []
  | r :: rest =>
      let gap := if r.start > cursor then [rawDisk cursor r.start] else []
      let s := if r.start < cursor then cursor else r.start
      if r.stop > s then gap ++ { r with start := s } :: assembleFrom total r.stop rest
      else gap ++ assembleFrom total cursor rest

def startsFirst (a b : diskSegment) : Prop := a.start ≤ b.start

instance : DecidableRel startsFirst := fun a b => Nat.decLe a.start b.start

/-- An order that sort.Slice may leave the regions in. -/
def Sorts (regions sorted : List diskSegment) : Prop :=
  sorted.Perm regions ∧ sorted.Pairwise startsFirst

def assembleSegments (total : Nat) (sorted : List diskSegment) : List diskSegment :=
  assembleFrom total 0 sorted

/-! Where a segment's bytes come from. -/

inductive Source where
  | zeros
  | disk (freeSpaceLeftOut : Bool)
  | snapshot (device cowFile : String)

/-- The choice of copySegments. -/
def diskSegment.source (s : diskSegment) : Source :=
  if s.skip then .zeros
  else if s.snapDev ≠ "" then .snapshot s.snapDev s.cowFile
  else .disk s.rawFS

def diskSegment.has (s : diskSegment) (b : Nat) : Prop := s.start ≤ b ∧ b < s.stop

def diskPartition.has (p : diskPartition) (b : Nat) : Prop := p.startByte ≤ b ∧ b < p.endByte

section

variable (isBlockDevice : String → Bool) (snapshots : String → Option SnapShot)

/-- A partition's own source: its snapshot, or the disk. -/
def ownSource (total : Nat) (p : diskPartition) : Source :=
  match diskRegion isBlockDevice snapshots total p with
  | some r => r.source
  | none => .disk false

/-- The segments are laid end to end over the disk, none of them empty; a byte of
a kept partition is read from that partition's source, and one of no partition
from the disk. -/
structure TilesDisk (parts : List diskPartition) (total : Nat) (segments : List diskSegment) :
    Prop where
  tiles : Tiles diskSegment.start diskSegment.stop 0 segments total
  filled : ∀ s ∈ segments, s.start < s.stop
  kept : ∀ p ∈ parts, p.skip = false → ∀ b, p.has b → b < total →
    ∃ s ∈ segments, s.has b ∧ s.source = ownSource isBlockDevice snapshots total p
  gaps : ∀ b, b < total → (∀ p ∈ parts, ¬p.has b) →
    ∃ s ∈ segments, s.has b ∧ s.source = .disk false

/-- No empty region, nor one past the disk's end, begins behind all that is read
before it. -/
def NoneAstray (regions : List diskSegment) : Prop :=
  ∀ v ∈ regions, v.stop ≤ v.start → v.start = 0 ∨
    ∃ r ∈ regions, r.start < v.start ∧ v.start ≤ r.stop

/-- One that covers the byte, and none that does starts before it. -/
def Leads (regions : List diskSegment) (b : Nat) (r : diskSegment) : Prop :=
  r ∈ regions ∧ r.has b ∧ ∀ other ∈ regions, other.has b → r.start ≤ other.start

/-- Where regions overlap, what leads is of the same source as the kept partition
there. -/
def NoneHidden (parts : List diskPartition) (total : Nat) : Prop :=
  ∀ p ∈ parts, p.skip = false → ∀ b, p.has b → b < total →
    ∀ r, Leads (diskRegions isBlockDevice snapshots parts total) b r →
      r.source = ownSource isBlockDevice snapshots total p

end

/-! The loop. -/

/-- An empty region in the rest starts where the cursor already is, or where it
will be then. -/
def Fits : Nat → List diskSegment → Prop
  | _, [] => True
  | cursor, r :: rest =>
      (r.stop ≤ r.start → r.start ≤ cursor) ∧ Fits (max cursor r.stop) rest

theorem fits_of_none_astray (cursor : Nat) (sorted : List diskSegment)
    (order : sorted.Pairwise startsFirst)
    (none_ : ∀ v ∈ sorted, v.stop ≤ v.start → v.start ≤ cursor ∨
      ∃ r ∈ sorted, r.start < v.start ∧ v.start ≤ r.stop) : Fits cursor sorted := by
  induction sorted generalizing cursor with
  | nil => trivial
  | cons r rest ih =>
      obtain ⟨first, order⟩ := List.pairwise_cons.mp order
      refine ⟨fun empty => ?_, ih _ order fun v member empty => ?_⟩
      · rcases none_ r List.mem_cons_self empty with reached | ⟨other, member, before, -⟩
        · exact reached
        · rcases List.mem_cons.mp member with rfl | member
          · omega
          · have later : r.start ≤ other.start := first other member
            omega
      · rcases none_ v (List.mem_cons_of_mem r member) empty with reached | ⟨other, known, before, ends⟩
        · exact Or.inl (by omega)
        · rcases List.mem_cons.mp known with rfl | known
          · exact Or.inl (by omega)
          · exact Or.inr ⟨other, known, before, ends⟩

/-- What the loop does with one region: it may leave a gap before it, and takes what
lies behind the cursor. -/
theorem assemble_cases (total cursor : Nat) (r : diskSegment) (rest : List diskSegment) :
    (cursor < r.start ∧ r.start < r.stop ∧ assembleFrom total cursor (r :: rest) =
      rawDisk cursor r.start :: r :: assembleFrom total r.stop rest) ∨
    (cursor < r.start ∧ r.stop ≤ r.start ∧ assembleFrom total cursor (r :: rest) =
      rawDisk cursor r.start :: assembleFrom total cursor rest) ∨
    (r.start ≤ cursor ∧ cursor < r.stop ∧ assembleFrom total cursor (r :: rest) =
      { r with start := cursor } :: assembleFrom total r.stop rest) ∨
    (r.start ≤ cursor ∧ r.stop ≤ cursor ∧
      assembleFrom total cursor (r :: rest) = assembleFrom total cursor rest) := by
  have step : assembleFrom total cursor (r :: rest) =
      let gap := if r.start > cursor then [rawDisk cursor r.start] else []
      let s := if r.start < cursor then cursor else r.start
      if r.stop > s then gap ++ { r with start := s } :: assembleFrom total r.stop rest
      else gap ++ assembleFrom total cursor rest := rfl
  dsimp only at step
  by_cases gap : r.start > cursor
  · rw [if_pos gap, if_neg (show ¬r.start < cursor by omega)] at step
    by_cases filled : r.stop > r.start
    · rw [if_pos filled] at step
      exact Or.inl ⟨gap, filled, step⟩
    · rw [if_neg filled] at step
      exact Or.inr (Or.inl ⟨gap, by omega, step⟩)
  · have begins : (if r.start < cursor then cursor else r.start) = cursor := by
      split <;> omega
    rw [if_neg gap, begins] at step
    by_cases filled : r.stop > cursor
    · rw [if_pos filled] at step
      exact Or.inr (Or.inr (Or.inl ⟨by omega, filled, step⟩))
    · rw [if_neg filled] at step
      exact Or.inr (Or.inr (Or.inr ⟨by omega, by omega, step⟩))

theorem assemble_tiles (total cursor : Nat) (sorted : List diskSegment) (fits : Fits cursor sorted)
    (within : cursor ≤ total) (clipped : ∀ r ∈ sorted, r.stop ≤ total) :
    Tiles diskSegment.start diskSegment.stop cursor (assembleFrom total cursor sorted) total ∧
      ∀ s ∈ assembleFrom total cursor sorted, s.start < s.stop := by
  induction sorted generalizing cursor with
  | nil =>
      unfold assembleFrom
      split
      · next before =>
          refine ⟨⟨rfl, within, rfl⟩, fun s member => ?_⟩
          rw [List.mem_singleton.mp member]
          exact before
      · refine ⟨show cursor = total by omega, fun s member => ?_⟩
        exact absurd member List.not_mem_nil
  | cons r rest ih =>
      obtain ⟨here, later⟩ := fits
      have stop := clipped r List.mem_cons_self
      have others : ∀ other ∈ rest, other.stop ≤ total :=
        fun other member => clipped other (List.mem_cons_of_mem r member)
      rcases assemble_cases total cursor r rest with
        ⟨gap, filled, same⟩ | ⟨gap, empty, same⟩ | ⟨reached, filled, same⟩ | ⟨reached, past, same⟩
      · rw [max_eq_right (by omega)] at later
        obtain ⟨tiles, proper⟩ := ih r.stop later stop others
        rw [same]
        refine ⟨⟨rfl, Nat.le_of_lt gap, rfl, Nat.le_of_lt filled, tiles⟩, fun s member => ?_⟩
        rcases List.mem_cons.mp member with rfl | member
        · exact gap
        · rcases List.mem_cons.mp member with rfl | member
          · exact filled
          · exact proper s member
      · -- an empty region would begin behind the cursor
        have begins := here empty
        omega
      · rw [max_eq_right (by omega)] at later
        obtain ⟨tiles, proper⟩ := ih r.stop later stop others
        rw [same]
        refine ⟨⟨rfl, Nat.le_of_lt filled, tiles⟩, fun s member => ?_⟩
        rcases List.mem_cons.mp member with rfl | member
        · exact filled
        · exact proper s member
      · rw [max_eq_left past] at later
        rw [same]
        exact ih cursor later within others

/-- A byte comes from the first region that has it. -/
theorem assemble_first (total cursor : Nat) (front back : List diskSegment) (r : diskSegment)
    (b : Nat) (before : ∀ x ∈ front, ¬x.has b) (has : r.has b) (reached : cursor ≤ b)
    (order : (front ++ r :: back).Pairwise startsFirst) :
    ∃ s ∈ assembleFrom total cursor (front ++ r :: back), s.has b ∧ s.source = r.source := by
  induction front generalizing cursor with
  | nil =>
      obtain ⟨low, high⟩ := has
      rw [List.nil_append]
      rcases assemble_cases total cursor r back with
        ⟨-, -, same⟩ | ⟨-, empty, -⟩ | ⟨-, -, same⟩ | ⟨-, past, -⟩
      · rw [same]
        exact ⟨r, List.mem_cons_of_mem _ List.mem_cons_self, ⟨low, high⟩, rfl⟩
      · omega
      · rw [same]
        exact ⟨_, List.mem_cons_self, ⟨reached, high⟩, rfl⟩
      · omega
  | cons first rest ih =>
      obtain ⟨starts, order⟩ := List.pairwise_cons.mp order
      have ahead : first.start ≤ r.start := starts r (by simp)
      have aside := before first List.mem_cons_self
      have past : first.stop ≤ b := by
        by_contra inside
        exact aside ⟨Nat.le_trans ahead has.1, by omega⟩
      have others : ∀ x ∈ rest, ¬x.has b := fun x member => before x (List.mem_cons_of_mem first member)
      rw [List.cons_append]
      rcases assemble_cases total cursor first (rest ++ r :: back) with
        ⟨-, -, same⟩ | ⟨-, -, same⟩ | ⟨-, -, same⟩ | ⟨-, -, same⟩
      · obtain ⟨s, member, found⟩ := ih first.stop others past order
        rw [same]
        exact ⟨s, List.mem_cons_of_mem _ (List.mem_cons_of_mem _ member), found⟩
      · obtain ⟨s, member, found⟩ := ih cursor others reached order
        rw [same]
        exact ⟨s, List.mem_cons_of_mem _ member, found⟩
      · obtain ⟨s, member, found⟩ := ih first.stop others past order
        rw [same]
        exact ⟨s, List.mem_cons_of_mem _ member, found⟩
      · rw [same]
        exact ih cursor others reached order

/-- A byte of no region comes from the disk. -/
theorem assemble_none (total cursor : Nat) (sorted : List diskSegment) (b : Nat)
    (none_ : ∀ r ∈ sorted, ¬r.has b) (reached : cursor ≤ b) (inside : b < total) :
    ∃ s ∈ assembleFrom total cursor sorted, s.has b ∧ s.source = .disk false := by
  induction sorted generalizing cursor with
  | nil =>
      unfold assembleFrom
      rw [if_pos (by omega)]
      exact ⟨_, List.mem_singleton_self _, ⟨reached, inside⟩, rfl⟩
  | cons r rest ih =>
      have aside := none_ r List.mem_cons_self
      have others : ∀ other ∈ rest, ¬other.has b :=
        fun other member => none_ other (List.mem_cons_of_mem r member)
      by_cases before : b < r.start
      · -- it lies in the gap before the region
        have found : (rawDisk cursor r.start).has b := ⟨reached, before⟩
        rcases assemble_cases total cursor r rest with
          ⟨-, -, same⟩ | ⟨-, -, same⟩ | ⟨begun, -, -⟩ | ⟨begun, -, -⟩
        · rw [same]
          exact ⟨_, List.mem_cons_self, found, rfl⟩
        · rw [same]
          exact ⟨_, List.mem_cons_self, found, rfl⟩
        · omega
        · omega
      · have past : r.stop ≤ b := by
          by_contra inside
          exact aside ⟨by omega, by omega⟩
        rcases assemble_cases total cursor r rest with
          ⟨-, -, same⟩ | ⟨-, -, same⟩ | ⟨-, -, same⟩ | ⟨-, -, same⟩
        · obtain ⟨s, member, found⟩ := ih r.stop others past
          rw [same]
          exact ⟨s, List.mem_cons_of_mem _ (List.mem_cons_of_mem _ member), found⟩
        · obtain ⟨s, member, found⟩ := ih cursor others reached
          rw [same]
          exact ⟨s, List.mem_cons_of_mem _ member, found⟩
        · obtain ⟨s, member, found⟩ := ih r.stop others past
          rw [same]
          exact ⟨s, List.mem_cons_of_mem _ member, found⟩
        · rw [same]
          exact ih cursor others reached

/-- What is assembled starts at the cursor. -/
theorem assemble_starts (total cursor : Nat) (sorted : List diskSegment) :
    assembleFrom total cursor sorted = [] ∧ total ≤ cursor ∨
      ∃ s rest, assembleFrom total cursor sorted = s :: rest ∧ s.start = cursor := by
  induction sorted with
  | nil =>
      unfold assembleFrom
      split
      · exact Or.inr ⟨_, _, rfl, rfl⟩
      · exact Or.inl ⟨rfl, by omega⟩
  | cons r rest ih =>
      rcases assemble_cases total cursor r rest with
        ⟨-, -, same⟩ | ⟨-, -, same⟩ | ⟨-, -, same⟩ | ⟨-, -, same⟩
      · exact Or.inr ⟨_, _, same, rfl⟩
      · exact Or.inr ⟨_, _, same, rfl⟩
      · exact Or.inr ⟨_, _, same, rfl⟩
      · rw [same]
        exact ih

/-- Where the loop has not got to, nothing is laid. -/
theorem not_tiles_behind (total cursor place : Nat) (sorted : List diskSegment)
    (behind : cursor < place) (known : place ≤ total) :
    ¬Tiles diskSegment.start diskSegment.stop place (assembleFrom total cursor sorted) total := by
  intro tiles
  rcases assemble_starts total cursor sorted with ⟨nothing, past⟩ | ⟨s, rest, some_, starts⟩
  · omega
  · rw [some_] at tiles
    have same : s.start = place := tiles.1
    omega

/-- An empty region ahead of the cursor: the gap before it is read twice. -/
theorem astray_not_tiles (total cursor : Nat) (front back : List diskSegment) (v : diskSegment)
    (empty : v.stop ≤ v.start) (ahead : cursor < v.start)
    (before : ∀ x ∈ front, x.start < v.start ∧ x.stop < v.start) :
    ¬Tiles diskSegment.start diskSegment.stop cursor
      (assembleFrom total cursor (front ++ v :: back)) total := by
  induction front generalizing cursor with
  | nil =>
      intro tiles
      rw [List.nil_append] at tiles
      rcases assemble_cases total cursor v back with
        ⟨-, filled, -⟩ | ⟨-, -, same⟩ | ⟨reached, -, -⟩ | ⟨reached, -, -⟩
      · omega
      · rw [same] at tiles
        obtain ⟨-, -, tail⟩ := tiles
        exact not_tiles_behind total cursor v.start back ahead tail.ordered tail
      · omega
      · omega
  | cons r rest ih =>
      intro tiles
      obtain ⟨starts, stops⟩ := before r List.mem_cons_self
      have others := fun x member => before x (List.mem_cons_of_mem r member)
      rw [List.cons_append] at tiles
      rcases assemble_cases total cursor r (rest ++ v :: back) with
        ⟨-, -, same⟩ | ⟨gap, -, same⟩ | ⟨-, -, same⟩ | ⟨-, -, same⟩
      · rw [same] at tiles
        obtain ⟨-, -, -, -, tail⟩ := tiles
        exact ih r.stop stops others tail
      · rw [same] at tiles
        obtain ⟨-, -, tail⟩ := tiles
        exact not_tiles_behind total cursor r.start _ gap tail.ordered tail
      · rw [same] at tiles
        obtain ⟨-, -, tail⟩ := tiles
        exact ih r.stop stops others tail
      · rw [same] at tiles
        exact ih cursor ahead others tiles

/-! The orders sort.Slice may leave. -/

instance : Std.Total startsFirst := ⟨fun a b => Nat.le_total a.start b.start⟩

instance : IsTrans diskSegment startsFirst := ⟨fun _ _ _ first then_ => Nat.le_trans first then_⟩

instance (s : diskSegment) (b : Nat) : Decidable (s.has b) :=
  inferInstanceAs (Decidable (s.start ≤ b ∧ b < s.stop))

/-- One with a region put before the others of its start. -/
theorem sorts_ahead (regions : List diskSegment) (r : diskSegment) (listed : r ∈ regions) :
    ∃ front back, Sorts regions (front ++ r :: back) ∧ ∀ x ∈ front, x.start < r.start := by
  have order := List.insertionSort_cons_eq_take_drop startsFirst r (regions.erase r)
  refine ⟨((regions.erase r).insertionSort startsFirst).takeWhile fun b => ¬startsFirst r b,
    ((regions.erase r).insertionSort startsFirst).dropWhile fun b => ¬startsFirst r b,
    ⟨?_, ?_⟩, fun x member => ?_⟩
  · rw [← order]
    exact (List.perm_insertionSort startsFirst _).trans (List.perm_cons_erase listed).symm
  · rw [← order]
    exact List.pairwise_insertionSort startsFirst _
  · have before : ¬startsFirst r x := by simpa using List.mem_takeWhile_imp member
    exact Nat.lt_of_not_le before

/-- A place of some region has one that comes first. -/
theorem leads_of_has (regions sorted : List diskSegment) (sorts : Sorts regions sorted) (b : Nat)
    (some_ : ∃ r ∈ regions, r.has b) : ∃ front r back, sorted = front ++ r :: back ∧
      (∀ x ∈ front, ¬x.has b) ∧ Leads regions b r := by
  obtain ⟨perm, order⟩ := sorts
  obtain ⟨known, listed, has⟩ := some_
  obtain ⟨r, found⟩ := Option.isSome_iff_exists.mp (show (sorted.find? fun x => x.has b).isSome from
    List.find?_isSome.mpr ⟨known, perm.mem_iff.mpr listed, decide_eq_true has⟩)
  obtain ⟨covers, front, back, same, before⟩ := List.find?_eq_some_iff_append.mp found
  have aside : ∀ x ∈ front, ¬x.has b := fun x member => by simpa using before x member
  have covers : r.has b := of_decide_eq_true covers
  rw [same] at perm order
  refine ⟨front, r, back, same, aside, perm.mem_iff.mp (by simp), covers, fun other there has => ?_⟩
  rcases List.mem_append.mp (perm.mem_iff.mpr there) with ahead | later
  · exact absurd has (aside other ahead)
  · rcases List.mem_cons.mp later with rfl | later
    · exact Nat.le_refl _
    · exact (List.pairwise_cons.mp (List.pairwise_append.mp order).2.1).1 other later

section

variable {isBlockDevice : String → Bool} {snapshots : String → Option SnapShot}

/-- A region is its partition's range, cut at the disk's end. -/
theorem region_range {total : Nat} {p : diskPartition} {r : diskSegment}
    (made : diskRegion isBlockDevice snapshots total p = some r) :
    r.start = p.startByte ∧ r.stop = min p.endByte total := by
  have cut : (if p.endByte > total then total else p.endByte) = min p.endByte total := by
    split <;> omega
  unfold diskRegion at made
  rw [cut] at made
  dsimp only at made
  split at made
  · cases made
    exact ⟨rfl, rfl⟩
  · split at made
    · split at made
      · cases made
        exact ⟨rfl, rfl⟩
      · cases made
    · split at made
      · cases made
      · split at made
        · cases made
        · cases made
          exact ⟨rfl, rfl⟩

theorem region_has {total : Nat} {p : diskPartition} {r : diskSegment}
    (made : diskRegion isBlockDevice snapshots total p = some r) (b : Nat) :
    r.has b ↔ p.has b ∧ b < total := by
  obtain ⟨starts, stops⟩ := region_range made
  unfold diskSegment.has diskPartition.has
  omega

theorem regions_clipped (parts : List diskPartition) (total : Nat) :
    ∀ r ∈ diskRegions isBlockDevice snapshots parts total, r.stop ≤ total := by
  intro r listed
  obtain ⟨p, -, made⟩ := List.mem_filterMap.mp listed
  rw [(region_range made).2]
  exact Nat.min_le_right _ _

/-- In any order the loop tiles the disk, if no empty region begins ahead of it. -/
theorem assembled_tiles {parts : List diskPartition} {total : Nat} {sorted : List diskSegment}
    (sorts : Sorts (diskRegions isBlockDevice snapshots parts total) sorted)
    (near : NoneAstray (diskRegions isBlockDevice snapshots parts total)) :
    Tiles diskSegment.start diskSegment.stop 0 (assembleSegments total sorted) total ∧
      ∀ s ∈ assembleSegments total sorted, s.start < s.stop := by
  obtain ⟨perm, order⟩ := sorts
  have fits : Fits 0 sorted := fits_of_none_astray 0 sorted order fun v member empty => by
    rcases near v (perm.mem_iff.mp member) empty with zero | ⟨r, listed, before, ends⟩
    · exact Or.inl (Nat.le_of_eq zero)
    · exact Or.inr ⟨r, perm.mem_iff.mpr listed, before, ends⟩
  exact assemble_tiles total 0 sorted fits (Nat.zero_le _) fun r member =>
    regions_clipped parts total r (perm.mem_iff.mp member)

/-- A byte comes from the region that leads there. -/
theorem assembled_source {parts : List diskPartition} {total : Nat} {sorted : List diskSegment}
    (sorts : Sorts (diskRegions isBlockDevice snapshots parts total) sorted)
    (shown : NoneHidden isBlockDevice snapshots parts total) :
    ∀ p ∈ parts, p.skip = false → ∀ b, p.has b → b < total →
      ∃ s ∈ assembleSegments total sorted, s.has b ∧
        s.source = ownSource isBlockDevice snapshots total p := by
  intro p listed kept b inside within
  by_cases covered : ∃ r ∈ diskRegions isBlockDevice snapshots parts total, r.has b
  · obtain ⟨front, r, back, same, aside, leads⟩ := leads_of_has _ sorted sorts b covered
    have order := sorts.2
    subst same
    obtain ⟨s, member, has, source⟩ :=
      assemble_first total 0 front back r b aside leads.2.1 (Nat.zero_le _) order
    exact ⟨s, member, has, source.trans (shown p listed kept b inside within r leads)⟩
  · -- then the partition itself has no region
    have own : ownSource isBlockDevice snapshots total p = .disk false := by
      unfold ownSource
      cases made : diskRegion isBlockDevice snapshots total p with
      | none => rfl
      | some r =>
          have listed := List.mem_filterMap.mpr ⟨p, listed, made⟩
          exact absurd ⟨r, listed, (region_has made b).mpr ⟨inside, within⟩⟩ covered
    obtain ⟨s, member, has, source⟩ := assemble_none total 0 sorted b
      (fun r member has => covered ⟨r, sorts.1.mem_iff.mp member, has⟩) (Nat.zero_le _) within
    exact ⟨s, member, has, source.trans own.symm⟩

theorem assembled_gaps {parts : List diskPartition} {total : Nat} {sorted : List diskSegment}
    (sorts : Sorts (diskRegions isBlockDevice snapshots parts total) sorted) :
    ∀ b, b < total → (∀ p ∈ parts, ¬p.has b) →
      ∃ s ∈ assembleSegments total sorted, s.has b ∧ s.source = .disk false := by
  intro b within free
  refine assemble_none total 0 sorted b (fun r member has => ?_) (Nat.zero_le _) within
  obtain ⟨p, listed, made⟩ := List.mem_filterMap.mp (sorts.1.mem_iff.mp member)
  exact free p listed ((region_has made b).mp has).1

/-- Whatever order the sort leaves, the segments tile the disk and every byte is
read from where it should be, if and only if no empty region begins behind all
before it and none hides a kept partition of another source. -/
theorem tilesDisk_iff (isBlockDevice : String → Bool) (snapshots : String → Option SnapShot)
    (parts : List diskPartition) (total : Nat) :
    (∀ sorted, Sorts (diskRegions isBlockDevice snapshots parts total) sorted →
      TilesDisk isBlockDevice snapshots parts total (assembleSegments total sorted)) ↔
    NoneAstray (diskRegions isBlockDevice snapshots parts total) ∧
      NoneHidden isBlockDevice snapshots parts total := by
  constructor
  · intro always
    refine ⟨fun v listed empty => ?_, fun p kept_ kept b inside within r leads => ?_⟩
    · by_contra astray
      obtain ⟨front, back, sorts, before⟩ := sorts_ahead _ v listed
      apply astray_not_tiles total 0 front back v empty (by omega) _ (always _ sorts).tiles
      intro x member
      have earlier := before x member
      refine ⟨earlier, Nat.lt_of_not_le fun reaches => astray (Or.inr ⟨x, ?_, earlier, reaches⟩)⟩
      exact sorts.1.mem_iff.mp (List.mem_append_left _ member)
    · obtain ⟨listed, has, least⟩ := leads
      obtain ⟨front, back, sorts, before⟩ := sorts_ahead _ r listed
      have tiled := always _ sorts
      have aside : ∀ x ∈ front, ¬x.has b := by
        intro x member covers
        have later := least x (sorts.1.mem_iff.mp (List.mem_append_left _ member)) covers
        exact absurd (before x member) (Nat.not_lt.mpr later)
      obtain ⟨s, member, covers, source⟩ :=
        assemble_first total 0 front back r b aside has (Nat.zero_le _) sorts.2
      obtain ⟨own, member', covers', source'⟩ := tiled.kept p kept_ kept b inside within
      -- one segment only has the byte
      have same := tiled.tiles.unique b s member own member' covers.1 covers.2 covers'.1 covers'.2
      rw [← source, same, source']
  · rintro ⟨near, shown⟩ sorted sorts
    obtain ⟨tiles, filled⟩ := assembled_tiles sorts near
    exact ⟨tiles, filled, assembled_source sorts shown, assembled_gaps sorts⟩

/-- An unmounted ext4 partition of no bytes, halfway: the first half is read twice. -/
theorem empty_partition_doubles : ¬TilesDisk (fun _ => false) (fun _ => none)
    [⟨50, 50, "", "ext4", false⟩] 100 (assembleSegments 100
      (diskRegions (fun _ => false) (fun _ => none) [⟨50, 50, "", "ext4", false⟩] 100)) := by
  intro tiled
  have read : assembleSegments 100
      (diskRegions (fun _ => false) (fun _ => none) [⟨50, 50, "", "ext4", false⟩] 100) =
      [rawDisk 0 50, rawDisk 0 100] := by decide
  rw [read] at tiled
  have again : (0 : Nat) = 50 := tiled.tiles.2.2.1
  omega

end

end ProxmoxBackup.DiskSegments
