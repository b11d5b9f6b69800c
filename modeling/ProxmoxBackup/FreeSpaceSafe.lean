import ProxmoxBackup.FreeSpaceMap
import Mathlib.Tactic.NormNum

/-! When LinuxFreeSpaceMap returns. Every index it makes is inside its slice, but for the
pointers of an inner block of an XFS tree, and only the makes that are sized by the disk
can be too large. -/

namespace ProxmoxBackup.FreeSpaceSafe

open GoValues FreeSpaceMap

/-! The parts that always return. -/

theorem makeBytes_meets (n : Int) (positive : 0 ≤ n) (small : n ≤ maxAlloc) :
    (makeBytes n).Meets fun b => b.length = n.toNat := by
  have fits : 0 ≤ n ∧ n * (1 : Nat) ≤ maxAlloc := by omega
  rw [makeBytes, makes, if_pos fits]
  exact .ok rfl

/-- A buffer of a size that is not read from the disk. -/
theorem fixed_meets (n : Nat) (small : n ≤ 2 ^ 16) :
    (makeBytes n).Meets fun b => b.length = n := by
  have fits : (n : Int) ≤ maxAlloc := by
    simp only [maxAlloc]
    omega
  exact makeBytes_meets n (by omega) fits

theorem readSome_meets (r : Reader) (buf : Buffer) (off : Int) :
    (r.readSome buf off).Meets fun b => b.length = buf.length := by
  rw [Reader.readSome]
  split
  · exact .error
  · exact .ok rfl

theorem readFull_meets (r : Reader) (buf : Buffer) (off : Int) :
    (r.readFull buf off).Meets fun b => b.length = buf.length := by
  rw [Reader.readFull]
  split
  · exact .error
  · exact .ok rfl

theorem little_lt (b : Buffer) (o size : Nat) : little b o size < 256 ^ size := by
  induction size generalizing o with
  | zero => exact Nat.one_pos
  | succ size ih =>
    have low := (b.byte o).toNat_lt
    have rest := ih (o + 1)
    rw [little, Nat.pow_succ]
    omega

theorem le_meets (size : Nat) (b : Buffer) (o : Nat) (inside : o + size ≤ b.length) :
    (le size b o).Meets fun v => v < 256 ^ size := by
  rw [le, if_pos inside]
  exact .ok (little_lt b o size)

theorem be_meets (size : Nat) (b : Buffer) (o : Nat) (inside : o + size ≤ b.length) :
    (be size b o).Meets fun v => v = big b o size := by
  rw [be, if_pos inside]
  exact .ok rfl

theorem tag_meets (b : Buffer) (inside : 4 ≤ b.length) : (tag b).Meets fun _ => True := by
  rw [tag, if_pos inside]
  exact .ok trivial

/-- The bits of a map have room for its clusters. -/
def Sized (clusters : Nat) (m : Map) : Prop :=
  m.clusters = clusters ∧ m.bits.length = (clusters + 7) / 8

theorem touch_meets (change : UInt8 → UInt8 → UInt8) (clusters steps : Nat) (c : Int)
    (bits : Buffer) (sized : bits.length = (clusters + 7) / 8) :
    (Map.touch change clusters steps c bits).Meets
      fun after => after.length = (clusters + 7) / 8 := by
  induction steps generalizing c bits with
  | zero => exact .ok sized
  | succ steps ih =>
    rw [Map.touch]
    split
    · next below =>
        split
        · next started =>
            have inside : c.toNat / 8 < bits.length := by omega
            dsimp only
            rw [if_pos inside]
            exact ih (c + 1) ⟨bits.length, _⟩ sized
        · exact ih (c + 1) bits sized
    · exact .ok sized

theorem run_meets (change : UInt8 → UInt8 → UInt8) (clusters : Nat) (m : Map) (c count : Int)
    (sized : Sized clusters m) : (m.run change c count).Meets (Sized clusters) := by
  have bits : m.bits.length = (m.clusters + 7) / 8 := by rw [sized.1, sized.2]
  apply (touch_meets change m.clusters _ c m.bits bits).bind
  intro after same
  exact .ok ⟨sized.1, by rw [same, sized.1]⟩

theorem free_meets (clusters : Nat) (m : Map) (c count : Int) (sized : Sized clusters m) :
    (m.free c count).Meets (Sized clusters) := run_meets _ clusters m c count sized

theorem markUsed_meets (clusters : Nat) (m : Map) (c count : Int) (sized : Sized clusters m) :
    (m.markUsed c count).Meets (Sized clusters) := run_meets _ clusters m c count sized

/-- The bits of a map of so many clusters can be made. -/
def MapFits (clusters : Nat) : Prop := (clusters + 7) / 8 ≤ maxAlloc

theorem newUsedMap_meets (clusters : Nat) (fits : MapFits clusters) :
    (Map.newUsedMap clusters).Meets (Sized clusters) := by
  have small : (clusters + 7) / 8 ≤ 2 ^ 48 := fits
  have exact_ : (int64 (clusters + 7)).tdiv 8 = ((clusters + 7) / 8 : Nat) := by
    rw [int64_same _ (by omega) (by omega)]
    exact Int.tdiv_eq_ediv_of_nonneg (by omega)
  rw [Map.newUsedMap, exact_]
  apply (makeBytes_meets _ (by omega) (by simp only [maxAlloc]; omega)).bind
  intro bits length
  exact .ok ⟨rfl, length⟩

theorem newUsedMap_panicked (clusters : Nat) (counted : clusters < 2 ^ 63)
    (large : ¬ MapFits clusters) : Map.newUsedMap clusters = .panicked := by
  have many : 2 ^ 48 < (clusters + 7) / 8 := Nat.lt_of_not_le large
  have unfit : ¬ (0 ≤ (int64 (clusters + 7)).tdiv 8 ∧
      (int64 (clusters + 7)).tdiv 8 * (1 : Nat) ≤ maxAlloc) := by
    rintro ⟨positive, small⟩
    by_cases wraps : (clusters : Int) + 7 < 2 ^ 63
    · rw [int64_same _ (by omega) wraps, Int.tdiv_eq_ediv_of_nonneg (by omega)] at small
      simp only [maxAlloc] at small
      omega
    · have negative : int64 (clusters + 7) < -8 := by
        unfold int64
        omega
      have below : (int64 (clusters + 7)).tdiv 8 < 0 := by
        rw [← Int.neg_neg (int64 (clusters + 7)), Int.neg_tdiv,
          Int.tdiv_eq_ediv_of_nonneg (by omega)]
        omega
      omega
  rw [Map.newUsedMap, makeBytes, makes, if_neg unfit]
  rfl

theorem provided_meets {α : Type} {post : α → Prop} (p : Prop) [Decidable p]
    (body : Outcome MapError α) (kept : α) (inside : p → body.Meets post) (else_ : post kept) :
    (provided p body kept).Meets post := by
  rw [provided]
  split
  · next holds => exact inside holds
  · exact .ok else_

/-! ext2/3/4. -/

/-- The sizes that are read from the disk and kept as they are. -/
def Narrow (s : ExtSuper) : Prop :=
  s.descSize < 2 ^ 16 ∧ s.ipg < 2 ^ 32 ∧ s.inodeSize < 2 ^ 16 ∧ s.reservedGDT < 2 ^ 16

theorem extSuper_meets (sb : Buffer) (size : sb.length = extSuperSize) :
    (extSuper sb).Meets Narrow := by
  simp only [extSuperSize] at size
  rw [extSuper]
  apply (le_meets 4 sb 92 (by omega)).bind
  intro compat _
  apply (le_meets 4 sb 96 (by omega)).bind
  intro incompat _
  apply (le_meets 4 sb 100 (by omega)).bind
  intro roCompat _
  split
  · exact .error
  · apply (le_meets 4 sb 24 (by omega)).bind
    intro logBS _
    split
    · exact .error
    · apply (le_meets 4 sb 4 (by omega)).bind
      intro low _
      apply (provided_meets _ (le 4 sb 336) 0 (fun _ => le_meets 4 sb 336 (by omega))
        (by norm_num)).bind
      intro high _
      apply (provided_meets _ (le 2 sb 254) 0 (fun _ => le_meets 2 sb 254 (by omega))
        (by norm_num)).bind
      intro ds small
      apply (le_meets 4 sb 20 (by omega)).bind
      intro firstData _
      apply (le_meets 4 sb 32 (by omega)).bind
      intro bpg _
      apply (le_meets 4 sb 40 (by omega)).bind
      intro ipg inodes
      apply (le_meets 4 sb 76 (by omega)).bind
      intro rev _
      apply (provided_meets _ (le 2 sb 88) 128 (fun _ => le_meets 2 sb 88 (by omega))
        (by norm_num)).bind
      intro inodeSize sized
      apply (le_meets 2 sb 0xCE (by omega)).bind
      intro reservedGDT reserved
      apply (le_meets 4 sb 0x24C (by omega)).bind
      intro backup0 _
      apply (le_meets 4 sb 0x250 (by omega)).bind
      intro backup1 _
      split
      · exact .error
      · have bound : (if 64 ≤ ds then ds else 32) < 2 ^ 16 := by
          split
          · exact small
          · norm_num
        exact .ok ⟨bound, inodes, sized, reserved⟩

theorem extRead_meets (r : Reader) : (extRead r).Meets Narrow := by
  apply (fixed_meets extSuperSize (by norm_num [extSuperSize])).bind
  intro buf size
  apply (readFull_meets r buf 1024).bind
  intro sb same
  exact extSuper_meets sb (same.trans size)

/-- The tables of a superblock can be made. -/
structure TablesFit (s : ExtSuper) : Prop where
  gdt : 0 ≤ s.gdtSize ∧ s.gdtSize ≤ maxAlloc
  metas : 0 ≤ s.groups ∧ s.groups * 24 ≤ maxAlloc

/-- The table of the descriptors holds all of them. -/
theorem TablesFit.length {s : ExtSuper} (fits : TablesFit s) (small : s.descSize < 2 ^ 16) :
    s.gdtSize.toNat = s.groups.toNat * s.descSize := by
  have few : s.groups ≤ 2 ^ 44 := by
    have bound : s.groups * 24 ≤ 2 ^ 48 := fits.metas.2
    omega
  have product : s.groups * s.descSize ≤ 2 ^ 44 * 2 ^ 16 :=
    Int.mul_le_mul few (by omega) (by omega) (by norm_num)
  have positive : 0 ≤ s.groups * s.descSize := Int.mul_nonneg fits.metas.1 (by omega)
  have same : s.gdtSize = s.groups * s.descSize := by
    rw [ExtSuper.gdtSize]
    exact int64_same _ (by omega) (by omega)
  rw [same, Int.toNat_mul fits.metas.1 (by omega), Int.toNat_natCast]

theorem blockNumber_meets (s : ExtSuper) (gdt : Buffer) (d lo hi : Nat)
    (inside : d + lo + 4 ≤ gdt.length) (wide : 64 ≤ s.descSize → d + hi + 4 ≤ gdt.length) :
    (blockNumber s gdt d lo hi).Meets fun _ => True := by
  rw [blockNumber]
  apply (le_meets 4 gdt (d + lo) inside).bind
  intro low _
  split
  · next large =>
      apply (le_meets 4 gdt (d + hi) (wide large)).bind
      intro high _
      exact .ok trivial
  · exact .ok trivial

theorem descriptor_meets (s : ExtSuper) (gdt : Buffer) (g : Nat)
    (inside : g * s.descSize + s.descSize ≤ gdt.length) :
    (descriptor s gdt g).Meets fun _ => True := by
  have described := s.described
  rw [descriptor]
  apply (blockNumber_meets s gdt _ 0 0x20 (by omega) (by omega)).bind
  intro bb _
  apply (blockNumber_meets s gdt _ 4 0x24 (by omega) (by omega)).bind
  intro ib _
  apply (blockNumber_meets s gdt _ 8 0x28 (by omega) (by omega)).bind
  intro it _
  apply (le_meets 2 gdt _ (by omega)).bind
  intro flags _
  split
  · exact .error
  · exact .ok trivial

theorem descriptors_meets (s : ExtSuper) (gdt : Buffer) (left g : Nat)
    (inside : (g + left) * s.descSize ≤ gdt.length) :
    (descriptors s gdt left g).Meets fun metas => metas.length = left := by
  induction left generalizing g with
  | zero => exact .ok rfl
  | succ left ih =>
    have first : g * s.descSize + s.descSize ≤ gdt.length := by
      have less : (g + 1) * s.descSize ≤ (g + (left + 1)) * s.descSize :=
        Nat.mul_le_mul_right _ (by omega)
      rw [Nat.succ_mul] at less
      omega
    rw [descriptors]
    apply (descriptor_meets s gdt g first).bind
    intro group _
    apply (ih (g + 1) (by rw [Nat.add_assoc, Nat.add_comm 1]; exact inside)).bind
    intro rest length
    exact .ok (congrArg Nat.succ length)

theorem makes_meets (n : Int) (size : Nat) (fits : 0 ≤ n ∧ n * size ≤ maxAlloc) :
    (makes n size).Meets fun _ => True := by
  rw [makes, if_pos fits]
  exact .ok trivial

theorem extLayout_meets (r : Reader)
    (fits : ∀ s, extRead r = .ok s → TablesFit s) :
    (extLayout r).Meets fun (s, metas) =>
      extRead r = .ok s ∧ metas.length = s.groups.toNat := by
  have read := extRead_meets r
  rw [extLayout]
  cases found : extRead r with
  | error err => exact .error
  | panicked => exact (read.not_panicked found).elim
  | ok s =>
    have tables := fits s found
    have small := (read.of_ok found).1
    apply (makeBytes_meets s.gdtSize tables.gdt.1 tables.gdt.2).bind
    intro buf length
    apply (readSome_meets r buf _).bind
    intro gdt same
    apply (makes_meets s.groups 24 tables.metas).bind
    intro _ _
    have flags : s.groups * (4 : Nat) ≤ maxAlloc := by
      have metas := tables.metas
      omega
    apply (makes_meets s.groups 4 ⟨tables.metas.1, flags⟩).bind
    intro _ _
    have whole : (0 + s.groups.toNat) * s.descSize ≤ gdt.length := by
      rw [same, length, tables.length small, Nat.zero_add]
    apply (descriptors_meets s gdt _ 0 whole).bind
    intro metas length
    exact .ok ⟨rfl, length⟩

theorem markRuns_meets (clusters start count : Nat) (runs : List (Int × Int)) (m : Map)
    (sized : Sized clusters m) : (markRuns start count runs m).Meets (Sized clusters) := by
  induction runs generalizing m with
  | nil => exact .ok sized
  | cons run rest ih =>
    rw [markRuns]
    apply (provided_meets _ _ m (fun _ => markUsed_meets clusters m _ _ sized) sized).bind
    exact ih

theorem freeClear_meets (clusters start : Nat) (bitmap : Buffer) (left i : Nat) (m : Map)
    (sized : Sized clusters m) (inside : i + left ≤ bitmap.length * 8) :
    (freeClear start bitmap left i m).Meets (Sized clusters) := by
  induction left generalizing i m with
  | zero => exact .ok sized
  | succ left ih =>
    have within : i / 8 < bitmap.length := by omega
    rw [freeClear, if_pos within]
    apply (provided_meets _ _ m (fun _ => free_meets clusters m _ _ sized) sized).bind
    intro next kept
    exact ih (i + 1) next kept (by omega)

theorem visitGroup_meets (r : Reader) (s : ExtSuper) (metas : List Group) (clusters g : Nat)
    (m : Map) (bitmap : Buffer) (known : g < metas.length) (sized : Sized clusters m)
    (size : bitmap.length = s.bs) : (visitGroup r s metas g m bitmap).Meets
      fun (after, buf) => Sized clusters after ∧ buf.length = s.bs := by
  rw [visitGroup, List.getElem?_eq_getElem known]
  dsimp only
  split
  · apply (free_meets clusters m _ _ sized).bind
    intro freed kept
    apply (provided_meets _ _ freed (fun _ => markUsed_meets clusters freed _ _ kept) kept).bind
    intro backed kept
    apply (markRuns_meets clusters _ _ _ backed kept).bind
    intro marked kept
    exact .ok ⟨kept, size⟩
  · apply (readSome_meets r bitmap _).bind
    intro buf same
    have grouped : s.count g ≤ s.bs * 8 := Nat.le_trans (Nat.min_le_left _ _) s.grouped.2
    apply (freeClear_meets clusters _ buf _ 0 m sized (by omega)).bind
    intro freed kept
    have positive : 0 < s.bs := Nat.mul_pos (by norm_num) (Nat.two_pow_pos _)
    rw [if_neg (by omega)]
    split
    · exact .error
    · exact .ok ⟨kept, same.trans size⟩

theorem visitGroups_meets (r : Reader) (s : ExtSuper) (metas : List Group) (clusters : Nat)
    (order : List Nat) (m : Map) (bitmap : Buffer) (known : ∀ g ∈ order, g < metas.length)
    (sized : Sized clusters m) (size : bitmap.length = s.bs) :
    (visitGroups r s metas order m bitmap).Meets (Sized clusters) := by
  induction order generalizing m bitmap with
  | nil => exact .ok sized
  | cons g rest ih =>
    rw [visitGroups]
    apply (visitGroup_meets r s metas clusters g m bitmap (known g List.mem_cons_self) sized
      size).bind
    rintro ⟨after, buf⟩ ⟨kept, length⟩
    exact ih after buf (fun g member => known g (List.mem_cons_of_mem _ member)) kept length

theorem bs_small (s : ExtSuper) : s.bs ≤ 2 ^ 16 := by
  have power : 2 ^ s.logBS ≤ 2 ^ 6 := Nat.pow_le_pow_right (by norm_num) s.small
  rw [ExtSuper.bs]
  omega

/-- The sizes in an ext superblock that make every make possible: its tables, and once the
descriptors have passed their checks the map itself. -/
def ExtFits (r : Reader) : Prop :=
  ∀ s, extRead r = .ok s →
    TablesFit s ∧ ∀ metas, extLayout r = .ok (s, metas) → MapFits s.blocks

theorem makes_panicked (n : Int) (size : Nat) (unfit : ¬ (0 ≤ n ∧ n * size ≤ maxAlloc)) :
    makes n size = .panicked := if_neg unfit

/-- A table that cannot be made ends the run there. -/
theorem extLayout_panicked (r : Reader) (s : ExtSuper) (found : extRead r = .ok s)
    (unfit : ¬ TablesFit s) : extLayout r = .panicked := by
  rw [extLayout, found]
  by_cases gdt : 0 ≤ s.gdtSize ∧ s.gdtSize ≤ maxAlloc
  · have metas : ¬ (0 ≤ s.groups ∧ s.groups * (24 : Nat) ≤ maxAlloc) := fun metas =>
      unfit ⟨gdt, metas⟩
    have first := makeBytes_meets s.gdtSize gdt.1 gdt.2
    cases made : makeBytes s.gdtSize with
    | error err =>
      rw [makeBytes, makes] at made
      split at made
      · cases made
      · cases made
    | panicked => exact (first.not_panicked made).elim
    | ok buf =>
      -- The table starts behind the superblock, so its read cannot fail.
      have positive : ¬ (((s.firstData + 1) * s.bs : Int) < 0 ∧ !r.section_) := by
        intro both
        have product : (0 : Int) ≤ (s.firstData + 1) * s.bs :=
          Int.mul_nonneg (by omega) (by omega)
        omega
      rw [Outcome.ok_bind, made, Outcome.ok_bind, Reader.readSome, if_neg positive,
        Outcome.ok_bind, makes_panicked _ _ metas, Outcome.panicked_bind]
  · have none_ : makeBytes s.gdtSize = .panicked := by
      rw [makeBytes, makes_panicked _ 1 (by simpa using gdt)]
      rfl
    rw [Outcome.ok_bind, none_, Outcome.panicked_bind]

theorem ext_returns_iff (r : Reader) : extUsedMap r ≠ .panicked ↔ ExtFits r := by
  have read := extRead_meets r
  constructor
  · intro returns s found
    have tables : TablesFit s := by
      by_contra unfit
      apply returns
      rw [extUsedMap, extLayout_panicked r s found unfit, Outcome.panicked_bind]
    refine ⟨tables, ?_⟩
    intro metas layout
    by_contra large
    apply returns
    rw [extUsedMap, layout, Outcome.ok_bind]
    dsimp only
    rw [newUsedMap_panicked s.blocks s.counted large, Outcome.panicked_bind]
  · intro fits
    have layout := extLayout_meets r fun s found => (fits s found).1
    have meets : (extUsedMap r).Meets fun _ => True := by
      rw [extUsedMap]
      cases made : extLayout r with
      | error err => exact .error
      | panicked => exact (layout.not_panicked made).elim
      | ok both =>
        obtain ⟨s, metas⟩ := both
        obtain ⟨found, length⟩ := layout.of_ok made
        have room := (fits s found).2 metas made
        rw [Outcome.ok_bind]
        apply (newUsedMap_meets s.blocks room).bind
        intro m sized
        apply (fixed_meets s.bs (bs_small s)).bind
        intro bitmap size
        have known : ∀ g ∈ List.range s.groups.toNat, g < metas.length := by
          intro g member
          rw [length]
          exact List.mem_range.mp member
        exact (visitGroups_meets r s metas _ _ m bitmap known sized size).weaken
          fun _ _ => trivial
    exact meets.not_panicked

/-! XFS. -/

theorem xfsSuper_meets (sb : Buffer) (size : sb.length = xfsSuperSize) :
    (xfsSuper sb).Meets fun _ => True := by
  simp only [xfsSuperSize] at size
  rw [xfsSuper]
  apply (be_meets 4 sb 4 (by omega)).bind
  intro bs _
  apply (be_meets 8 sb 8 (by omega)).bind
  intro dblocks _
  apply (be_meets 4 sb 84 (by omega)).bind
  intro agblocks _
  apply (be_meets 4 sb 88 (by omega)).bind
  intro agcount _
  apply (be_meets 2 sb 102 (by omega)).bind
  intro sectSize _
  apply (be_meets 2 sb 100 (by omega)).bind
  intro version _
  split
  · exact .error
  · exact .ok trivial

theorem xfsRead_meets (r : Reader) : (xfsRead r).Meets fun _ => True := by
  apply (fixed_meets xfsSuperSize (by norm_num [xfsSuperSize])).bind
  intro buf size
  apply (readFull_meets r buf 0).bind
  intro sb same
  exact xfsSuper_meets sb (same.trans size)

theorem agRoot_meets (r : Reader) (x : XfsSuper) (ag : Nat) :
    (agRoot r x ag).Meets fun _ => True := by
  apply (fixed_meets agfSize (by norm_num [agfSize])).bind
  intro buf size
  apply (readSome_meets r buf _).bind
  intro agf same
  have length : agf.length = 64 := same.trans size
  apply (tag_meets agf (by omega)).bind
  intro found _
  split
  · exact .error
  · exact (be_meets 4 agf 16 (by omega)).weaken fun _ _ => trivial

theorem treeBlock_meets (r : Reader) (x : XfsSuper) (ag agbno : Nat) :
    (treeBlock r x ag agbno).Meets fun b => b.length = x.bs := by
  have sized := x.sized
  rw [treeBlock]
  split
  · exact .error
  · apply (fixed_meets x.bs (by omega)).bind
    intro buf size
    apply (readSome_meets r buf _).bind
    intro b same
    apply (tag_meets b (by omega)).bind
    intro found _
    split
    · exact .error
    · exact .ok (same.trans size)

theorem leafRecords_meets (x : XfsSuper) (clusters ag : Nat) (b : Buffer) (left i : Nat) (m : Map)
    (size : b.length = x.bs) (sized : Sized clusters m) :
    (leafRecords x ag b left i m).Meets (Sized clusters) := by
  induction left generalizing i m with
  | zero => exact .ok sized
  | succ left ih =>
    rw [leafRecords]
    split
    · exact .ok sized
    · apply (be_meets 4 b _ (by omega)).bind
      intro start _
      apply (be_meets 4 b _ (by omega)).bind
      intro count _
      split
      · exact .error
      · apply (free_meets clusters m _ _ sized).bind
        intro freed kept
        exact ih (i + 1) freed kept

/-- What a walk returns is still a map of the same clusters. -/
def Keeps (clusters : Nat) (walk : Nat → Map → Outcome MapError Map) : Prop :=
  ∀ child m after, Sized clusters m → walk child m = .ok after → Sized clusters after

theorem innerRecords_keeps (x : XfsSuper) (clusters : Nat) (b : Buffer)
    (walk : Nat → Map → Outcome MapError Map) (keeps : Keeps clusters walk) (left i : Nat)
    (m after : Map) (sized : Sized clusters m)
    (ran : innerRecords x b walk left i m = .ok after) : Sized clusters after := by
  induction left generalizing i m with
  | zero =>
    cases ran
    exact sized
  | succ left ih =>
    rw [innerRecords] at ran
    obtain ⟨child, _, later⟩ := Outcome.bind_ok ran
    obtain ⟨next, walked, rest⟩ := Outcome.bind_ok later
    exact ih (i + 1) next (keeps child m next sized walked) rest

/-- The record of an inner block where the loop panics: the ones before it have been
walked, and its pointer is behind the block or its own walk panics. -/
theorem innerRecords_panicked (x : XfsSuper) (b : Buffer) (size : b.length = x.bs)
    (walk : Nat → Map → Outcome MapError Map) (left i : Nat) (m : Map) :
    innerRecords x b walk left i m = .panicked ↔
      ∃ j < left, ∃ m', innerRecords x b walk j i m = .ok m' ∧
        (x.bs < x.pointer (i + j) + 4 ∨ walk (big b (x.pointer (i + j)) 4) m' = .panicked) := by
  induction left generalizing i m with
  | zero =>
    constructor
    · intro wrong
      cases wrong
    · rintro ⟨j, none_, _⟩
      cases none_
  | succ left ih =>
    by_cases fits : x.pointer i + 4 ≤ x.bs
    · have read : be 4 b (x.pointer i) = .ok (big b (x.pointer i) 4) := if_pos (size ▸ fits)
      -- What the loop does behind its first record.
      have turn : ∀ left, innerRecords x b walk (left + 1) i m =
          walk (big b (x.pointer i) 4) m >>= innerRecords x b walk left (i + 1) := by
        intro left
        rw [innerRecords, read, Outcome.ok_bind]
      rw [turn]
      constructor
      · intro panicked
        rcases Outcome.bind_panicked panicked with first | ⟨next, walked, rest⟩
        · exact ⟨0, Nat.succ_pos left, m, rfl, Or.inr first⟩
        · obtain ⟨j, below, m', before, bad⟩ := (ih (i + 1) next).mp rest
          have place : i + (j + 1) = i + 1 + j := by omega
          refine ⟨j + 1, Nat.succ_lt_succ below, m', ?_, ?_⟩
          · rw [turn, walked, Outcome.ok_bind]
            exact before
          · rw [place]
            exact bad
      · rintro ⟨j, below, m', before, bad⟩
        cases j with
        | zero =>
          cases before
          rcases bad with outside | first
          · exact absurd fits (Nat.not_le_of_lt outside)
          · rw [show walk (big b (x.pointer i) 4) m = .panicked from first, Outcome.panicked_bind]
        | succ j =>
          rw [turn] at before
          obtain ⟨next, walked, rest⟩ := Outcome.bind_ok before
          have place : i + (j + 1) = i + 1 + j := by omega
          rw [place] at bad
          rw [walked, Outcome.ok_bind]
          exact (ih (i + 1) next).mpr ⟨j, Nat.lt_of_succ_lt_succ below, m', rest, bad⟩
    · have unread : be 4 b (x.pointer i) = .panicked := if_neg (size ▸ fits)
      rw [innerRecords, unread, Outcome.panicked_bind]
      constructor
      · intro _
        exact ⟨0, Nat.succ_pos left, m, rfl, Or.inl (Nat.lt_of_not_le fits)⟩
      · intro _
        rfl

/-- The walk from a block comes to an inner block with a record whose pointer does not fit
into the block; all before that record has been walked. -/
def Overfull (r : Reader) (x : XfsSuper) (ag : Nat) : Nat → Nat → Map → Prop
  | 0, _, _ => False
  | levels + 1, agbno, m => ∃ b, treeBlock r x ag agbno = .ok b ∧ big b 4 2 ≠ 0 ∧
      ∃ i < big b 6 2, ∃ m', innerRecords x b (walk r x ag levels) i 0 m = .ok m' ∧
        (x.bs < x.pointer i + 4 ∨ Overfull r x ag levels (big b (x.pointer i) 4) m')

theorem walk_block (r : Reader) (x : XfsSuper) (ag levels agbno : Nat) (m : Map) (b : Buffer)
    (block : treeBlock r x ag agbno = .ok b) : walk r x ag (levels + 1) agbno m =
      if big b 4 2 = 0 then leafRecords x ag b (big b 6 2) 0 m
      else innerRecords x b (walk r x ag levels) (big b 6 2) 0 m := by
  have size := (treeBlock_meets r x ag agbno).of_ok block
  have sized := x.sized
  have level : be 2 b 4 = .ok (big b 4 2) := if_pos (by omega)
  have n : be 2 b 6 = .ok (big b 6 2) := if_pos (by omega)
  rw [walk, block, Outcome.ok_bind, level, Outcome.ok_bind, n, Outcome.ok_bind]

theorem walk_keeps (r : Reader) (x : XfsSuper) (clusters ag levels : Nat) :
    Keeps clusters (walk r x ag levels) := by
  induction levels with
  | zero =>
    intro agbno m after _ ran
    cases ran
  | succ levels ih =>
    intro agbno m after sized ran
    have ran' := ran
    rw [walk] at ran'
    obtain ⟨b, block, _⟩ := Outcome.bind_ok ran'
    have size := (treeBlock_meets r x ag agbno).of_ok block
    rw [walk_block r x ag levels agbno m b block] at ran
    split at ran
    · exact (leafRecords_meets x clusters ag b _ 0 m size sized).of_ok ran
    · exact innerRecords_keeps x clusters b _ ih _ 0 m after sized ran

theorem walk_panicked (r : Reader) (x : XfsSuper) (clusters ag levels agbno : Nat) (m : Map)
    (sized : Sized clusters m) :
    walk r x ag levels agbno m = .panicked ↔ Overfull r x ag levels agbno m := by
  induction levels generalizing agbno m with
  | zero =>
    constructor
    · intro wrong
      cases wrong
    · exact False.elim
  | succ levels ih =>
    have read := treeBlock_meets r x ag agbno
    cases block : treeBlock r x ag agbno with
    | error err =>
      rw [walk, block, Outcome.error_bind, Overfull]
      constructor
      · intro wrong
        cases wrong
      · rintro ⟨b, found, _⟩
        rw [block] at found
        cases found
    | panicked => exact (read.not_panicked block).elim
    | ok b =>
      have size := read.of_ok block
      rw [walk_block r x ag levels agbno m b block]
      constructor
      · intro panicked
        split at panicked
        · exact ((leafRecords_meets x clusters ag b _ 0 m size sized).not_panicked panicked).elim
        · next inner =>
            obtain ⟨i, below, m', before, bad⟩ :=
              (innerRecords_panicked x b size _ _ 0 m).mp panicked
            rw [Nat.zero_add] at bad
            have kept := innerRecords_keeps x clusters b _ (walk_keeps r x clusters ag levels)
              i 0 m m' sized before
            refine ⟨b, block, inner, i, below, m', before, ?_⟩
            exact bad.imp_right (ih _ m' kept).mp
      · rintro ⟨other, found, inner, i, below, m', before, bad⟩
        rw [block] at found
        cases found
        rw [if_neg inner]
        apply (innerRecords_panicked x b size _ _ 0 m).mpr
        have kept := innerRecords_keeps x clusters b _ (walk_keeps r x clusters ag levels)
          i 0 m m' sized before
        rw [← Nat.zero_add i] at bad
        exact ⟨i, below, m', before, bad.imp_right (ih _ m' kept).mpr⟩

/-- The allocation group whose walk panics. -/
theorem xfsGroups_panicked (r : Reader) (x : XfsSuper) (clusters left ag : Nat) (m : Map)
    (sized : Sized clusters m) :
    xfsGroups r x left ag m = .panicked ↔
      ∃ j < left, ∃ m', xfsGroups r x j ag m = .ok m' ∧
        ∃ root, agRoot r x (ag + j) = .ok root ∧ Overfull r x (ag + j) 17 root m' := by
  induction left generalizing ag m with
  | zero =>
    constructor
    · intro wrong
      cases wrong
    · rintro ⟨j, none_, _⟩
      cases none_
  | succ left ih =>
    have start := agRoot_meets r x ag
    rw [xfsGroups]
    constructor
    · intro panicked
      rcases Outcome.bind_panicked panicked with first | ⟨root, found, later⟩
      · exact (start.not_panicked first).elim
      · rcases Outcome.bind_panicked later with here | ⟨next, walked, rest⟩
        · exact ⟨0, Nat.succ_pos left, m, rfl, root, found,
            (walk_panicked r x clusters ag 17 root m sized).mp here⟩
        · have kept := walk_keeps r x clusters ag 17 root m next sized walked
          obtain ⟨j, below, m', before, bad⟩ := (ih (ag + 1) next kept).mp rest
          have place : ag + (j + 1) = ag + 1 + j := by omega
          refine ⟨j + 1, Nat.succ_lt_succ below, m', ?_, ?_⟩
          · rw [xfsGroups, found, Outcome.ok_bind, walked, Outcome.ok_bind]
            exact before
          · rw [place]
            exact bad
    · rintro ⟨j, below, m', before, root, found, bad⟩
      cases j with
      | zero =>
        cases before
        rw [Nat.add_zero] at found bad
        rw [found, Outcome.ok_bind, (walk_panicked r x clusters ag 17 root m sized).mpr bad,
          Outcome.panicked_bind]
      | succ j =>
        rw [xfsGroups] at before
        obtain ⟨first, reached, later⟩ := Outcome.bind_ok before
        obtain ⟨next, walked, rest⟩ := Outcome.bind_ok later
        have kept := walk_keeps r x clusters ag 17 first m next sized walked
        have place : ag + (j + 1) = ag + 1 + j := by omega
        rw [place] at found bad
        rw [reached, Outcome.ok_bind, walked, Outcome.ok_bind]
        exact (ih (ag + 1) next kept).mpr
          ⟨j, Nat.lt_of_succ_lt_succ below, m', rest, root, found, bad⟩

/-- The map of an XFS superblock can be made, and no allocation group that is come to has
an overfull block in its free-space tree. -/
def XfsFits (r : Reader) : Prop :=
  ∀ x, xfsRead r = .ok x → MapFits x.dblocks ∧
    ∀ m, Map.newUsedMap x.dblocks = .ok m →
      ∀ ag < x.agcount, ∀ m', xfsGroups r x ag 0 m = .ok m' →
        ∀ root, agRoot r x ag = .ok root → ¬ Overfull r x ag 17 root m'

theorem xfs_returns_iff (r : Reader) : xfsUsedMap r ≠ .panicked ↔ XfsFits r := by
  have read := xfsRead_meets r
  constructor
  · intro returns x found
    have room : MapFits x.dblocks := by
      by_contra large
      apply returns
      rw [xfsUsedMap, found, Outcome.ok_bind, newUsedMap_panicked x.dblocks x.counted large,
        Outcome.panicked_bind]
    refine ⟨room, ?_⟩
    intro m made ag below m' before root start bad
    have sized := (newUsedMap_meets x.dblocks room).of_ok made
    apply returns
    rw [xfsUsedMap, found, Outcome.ok_bind, made, Outcome.ok_bind]
    apply (xfsGroups_panicked r x x.dblocks x.agcount 0 m sized).mpr
    refine ⟨ag, below, m', before, root, ?_, ?_⟩
    · rw [Nat.zero_add]
      exact start
    · rw [Nat.zero_add]
      exact bad
  · intro fits panicked
    rw [xfsUsedMap] at panicked
    rcases Outcome.bind_panicked panicked with first | ⟨x, found, later⟩
    · exact read.not_panicked first
    · obtain ⟨room, trees⟩ := fits x found
      have map := newUsedMap_meets x.dblocks room
      rcases Outcome.bind_panicked later with second | ⟨m, made, rest⟩
      · exact map.not_panicked second
      · obtain ⟨ag, below, m', before, root, start, bad⟩ :=
          (xfsGroups_panicked r x x.dblocks x.agcount 0 m (map.of_ok made)).mp rest
        rw [Nat.zero_add] at start bad
        exact trees m made ag below m' before root start bad

theorem fileSystem_meets (r : Reader) : (fileSystem r).Meets fun _ => True := by
  apply (fixed_meets headSize (by norm_num [headSize])).bind
  intro buf size
  apply (readSome_meets r buf 0).bind
  intro head same
  have length : head.length = 2048 := same.trans size
  apply (le_meets 2 head (1024 + 56) (by omega)).bind
  intro magic _
  apply (tag_meets head (by omega)).bind
  intro name _
  exact .ok trivial

/-- Exactly when the free-space map of a partition comes to a map or an error. -/
theorem linux_map_returns_iff (r : Reader) :
    LinuxFreeSpaceMap r ≠ .panicked ↔
      (fileSystem r = .ok .ext → ExtFits r) ∧ (fileSystem r = .ok .xfs → XfsFits r) := by
  have known := fileSystem_meets r
  rw [LinuxFreeSpaceMap]
  cases kind : fileSystem r with
  | error err =>
    constructor
    · intro _
      constructor
      · intro wrong
        cases wrong
      · intro wrong
        cases wrong
    · intro _ wrong
      cases wrong
  | panicked => exact (known.not_panicked kind).elim
  | ok fs =>
    rw [Outcome.ok_bind]
    cases fs with
    | ext =>
      rw [← ext_returns_iff]
      constructor
      · intro returns
        constructor
        · intro _
          exact returns
        · intro wrong
          cases wrong
      · intro both
        exact both.1 rfl
    | xfs =>
      rw [← xfs_returns_iff]
      constructor
      · intro returns
        constructor
        · intro wrong
          cases wrong
        · intro _
          exact returns
      · intro both
        exact both.2 rfl
    | other =>
      constructor
      · intro _
        constructor
        · intro wrong
          cases wrong
        · intro wrong
          cases wrong
      · intro _ wrong
        cases wrong

/-- 16 blocks of 512 bytes: the superblock, the AGF at 512 with block 2 as the root, an
inner block with 43 records there, whose first 42 pointers name block 3, and an empty leaf
in block 3. The pointer of the last record would be behind the inner block. -/
def overfullImage (i : Nat) : UInt8 :=
  if i < 4 then ([88, 70, 83, 66].getD i 0)
  -- The block size, the size of the file system in blocks, that of the one group.
  else if i = 6 then 2
  else if i = 15 then 16
  else if i = 87 then 16
  else if i = 91 then 1
  else if i = 102 then 2
  -- XAGF
  else if 512 ≤ i ∧ i < 516 then ([88, 65, 71, 70].getD (i - 512) 0)
  else if i = 531 then 2
  -- ABTB
  else if 1024 ≤ i ∧ i < 1028 then ([65, 66, 84, 66].getD (i - 1024) 0)
  else if i = 1029 then 1
  else if i = 1031 then 43
  else if 1368 ≤ i ∧ i < 1536 ∧ i % 4 = 3 then 3
  else if 1536 ≤ i ∧ i < 1540 then ([65, 66, 84, 66].getD (i - 1536) 0)
  else 0

def overfullReader : Reader := ⟨⟨8192, overfullImage⟩, by norm_num, false⟩

def isPanic {α : Type} : Outcome MapError α → Bool
  | .panicked => true
  | _ => false

theorem overfull_panics : LinuxFreeSpaceMap overfullReader = .panicked := by
  have panics : isPanic (LinuxFreeSpaceMap overfullReader) = true := by decide +kernel
  cases result : LinuxFreeSpaceMap overfullReader with
  | panicked => rfl
  | ok m =>
    rw [result] at panics
    cases panics
  | error err =>
    rw [result] at panics
    cases panics

end ProxmoxBackup.FreeSpaceSafe
