import ProxmoxBackup.FreeSpaceSafe

/-! Which blocks the map of an ext file system calls free. A group's descriptor may place
its metadata in any group, so the groups' turns touch each other's blocks; what a turn
leaves behind is stated for every order of the groups. -/

namespace ProxmoxBackup.ExtFreeSpace

open GoValues FreeSpaceMap FreeSpaceSafe

def bitAt (bits : Buffer) (k : Nat) : Bool :=
  bits.byte (k / 8) &&& (1 <<< UInt8.ofNat (k % 8)) != 0

/-- One bit of a byte is set to a value, and no other changes. -/
def Sets (change : UInt8 → UInt8 → UInt8) (value : Bool) : Prop :=
  ∀ (b : UInt8) (i j : Nat), i < 8 → j < 8 →
    (change (1 <<< UInt8.ofNat i) b).toNat.testBit j = if j = i then value else b.toNat.testBit j

theorem bit_toNat (i : Nat) (low : i < 8) : (1 <<< UInt8.ofNat i : UInt8).toNat = 2 ^ i := by
  interval_cases i <;> rfl

theorem setBit_sets : Sets Map.setBit true := by
  intro b i j low low'
  rw [Map.setBit, UInt8.toNat_or, Nat.testBit_or, bit_toNat i low, Nat.testBit_two_pow]
  by_cases same : j = i
  · subst same
    simp
  · have other : i ≠ j := fun equal => same equal.symm
    simp [same, other]

theorem clearBit_sets : Sets Map.clearBit false := by
  intro b i j low low'
  rw [Map.clearBit, UInt8.toNat_and, Nat.testBit_and, UInt8.toNat_not, bit_toNat i low]
  have mask : (UInt8.size - 1 - 2 ^ i).testBit j = decide (j ≠ i) := by
    interval_cases i <;> interval_cases j <;> rfl
  rw [mask]
  by_cases same : j = i
  · simp [same]
  · simp [same]

theorem bitAt_testBit (bits : Buffer) (k : Nat) :
    bitAt bits k = (bits.byte (k / 8)).toNat.testBit (k % 8) :=
  UsedMap.bit_of_byte _ _ (Nat.mod_lt k (by norm_num))

/-- The loop of free or markUsed reaches the clusters in its range and no others. -/
theorem touch_bits (change : UInt8 → UInt8 → UInt8) (value : Bool) (sets : Sets change value)
    (clusters steps : Nat) (c : Int) (bits after : Buffer)
    (ran : Map.touch change clusters steps c bits = .ok after) (k : Nat) (known : k < clusters) :
    bitAt after k = if c ≤ k ∧ k < c + steps then value else bitAt bits k := by
  induction steps generalizing c bits with
  | zero =>
    cases ran
    rw [if_neg (by omega)]
  | succ steps ih =>
    rw [Map.touch] at ran
    split at ran
    · next below =>
        split at ran
        · next started =>
            dsimp only at ran
            split at ran
            · next inside =>
                rw [ih (c + 1) _ ran]
                by_cases here : (k : Int) = c
                · have same : c.toNat = k := by omega
                  rw [if_neg (by omega), if_pos (by omega), bitAt_testBit, same]
                  dsimp only
                  rw [Function.update_self, sets _ _ _ (Nat.mod_lt k (by norm_num))
                    (Nat.mod_lt k (by norm_num)), if_pos rfl]
                · have kept : bitAt ⟨bits.length, Function.update bits.byte (c.toNat / 8)
                      (change (1 <<< UInt8.ofNat (c.toNat % 8)) (bits.byte (c.toNat / 8)))⟩ k =
                        bitAt bits k := by
                    rw [bitAt_testBit, bitAt_testBit]
                    dsimp only
                    by_cases byte : k / 8 = c.toNat / 8
                    · rw [byte, Function.update_self, sets _ _ _ (Nat.mod_lt _ (by norm_num))
                        (Nat.mod_lt _ (by norm_num)), if_neg (by omega)]
                    · rw [Function.update_of_ne byte]
                  rw [kept]
                  by_cases reached : c + 1 ≤ (k : Int) ∧ (k : Int) < c + 1 + steps
                  · rw [if_pos reached, if_pos (by omega)]
                  · rw [if_neg reached, if_neg (by omega)]
            · cases ran
        · next early =>
            rw [ih (c + 1) bits ran]
            by_cases reached : c + 1 ≤ (k : Int) ∧ (k : Int) < c + 1 + steps
            · rw [if_pos reached, if_pos (by omega)]
            · rw [if_neg reached, if_neg (by omega)]
    · next above =>
        cases ran
        rw [if_neg (by omega)]

theorem run_used (change : UInt8 → UInt8 → UInt8) (value : Bool) (sets : Sets change value)
    (m after : Map) (c count : Int) (low : -2 ^ 63 ≤ c + count) (high : c + count < 2 ^ 63)
    (ran : m.run change c count = .ok after) (k : Nat) (known : k < m.clusters) :
    after.used k = if c ≤ k ∧ k < c + count then value else m.used k := by
  rw [Map.run] at ran
  obtain ⟨bits, touched, same⟩ := Outcome.bind_ok ran
  cases same
  have result := touch_bits change value sets m.clusters _ c m.bits bits touched k known
  rw [int64_same _ low high] at result
  change bitAt bits k = if c ≤ k ∧ k < c + count then value else bitAt m.bits k
  rw [result]
  by_cases reached : c ≤ (k : Int) ∧ (k : Int) < c + count
  · rw [if_pos reached, if_pos (by omega)]
  · rw [if_neg reached, if_neg (by omega)]

theorem free_used (m after : Map) (c count : Int) (low : -2 ^ 63 ≤ c + count)
    (high : c + count < 2 ^ 63) (ran : m.free c count = .ok after) (k : Nat)
    (known : k < m.clusters) :
    after.used k = true ↔ m.used k = true ∧ ¬ (c ≤ k ∧ k < c + count) := by
  rw [run_used _ false clearBit_sets m after c count low high ran k known]
  by_cases reached : c ≤ (k : Int) ∧ (k : Int) < c + count
  · simp [reached]
  · simp [reached]

theorem markUsed_used (m after : Map) (c count : Int) (low : -2 ^ 63 ≤ c + count)
    (high : c + count < 2 ^ 63) (ran : m.markUsed c count = .ok after) (k : Nat)
    (known : k < m.clusters) :
    after.used k = true ↔ m.used k = true ∨ (c ≤ k ∧ k < c + count) := by
  rw [run_used _ true setBit_sets m after c count low high ran k known]
  by_cases reached : c ≤ (k : Int) ∧ (k : Int) < c + count
  · simp [reached]
  · simp [reached]

/-! What the map is to say. -/

def InGroup (s : ExtSuper) (g k : Nat) : Prop := s.start g ≤ k ∧ k < s.start g + s.count g

/-- The block is part of some group's block bitmap, inode bitmap or inode table. -/
def Meta (s : ExtSuper) (metas : List Group) (k : Nat) : Prop :=
  ∃ run ∈ metas.flatMap (Group.runs s), run.1 ≤ k ∧ k < run.1 + run.2

/-- The group's superblock and descriptor backup area. -/
def Backup (s : ExtSuper) (g k : Nat) : Prop :=
  s.hasBackup g = true ∧ s.start g ≤ k ∧
    (k : Int) < s.start g + (1 + s.gdtBlocks + s.reservedGDT)

/-- A group's bitmap as it stands in the image. -/
def bitmapOf (r : Reader) (s : ExtSuper) (group : Group) : Buffer :=
  ⟨s.bs, fun i => r.image.byte (group.bb.toNat * s.bs + i)⟩

/-- The block is free by its group's bitmap, or its group is BLOCK_UNINIT and it is neither
in the group's backup area nor any group's metadata. -/
def Unused (r : Reader) (s : ExtSuper) (metas : List Group) (g : Nat) (group : Group) (k : Nat) :
    Prop :=
  if group.uninit then ¬ Backup s g k ∧ ¬ Meta s metas k
  else bitAt (bitmapOf r s group) (k - s.start g) = false

def CallsFree (r : Reader) (s : ExtSuper) (metas : List Group) (k : Nat) : Prop :=
  ∃ g group, metas[g]? = some group ∧ InGroup s g k ∧ Unused r s metas g group k

instance (s : ExtSuper) (g k : Nat) : Decidable (InGroup s g k) :=
  inferInstanceAs (Decidable (_ ∧ _))

instance (s : ExtSuper) (metas : List Group) (k : Nat) : Decidable (Meta s metas k) :=
  inferInstanceAs (Decidable (∃ run ∈ _, _))

/-- The file system lies in the image, and the bitmap of a group that has one marks the
metadata in it, whichever group's that is. -/
def Consistent (r : Reader) (s : ExtSuper) (metas : List Group) : Prop :=
  s.blocks * s.bs ≤ r.image.length ∧
    ∀ g < metas.length, ∀ group ∈ metas[g]?, group.uninit = false →
      ∀ k < s.blocks, InGroup s g k → Meta s metas k →
        bitAt (bitmapOf r s group) (k - s.start g) = true

/-- The sizes of a layout whose map was made. -/
structure Ready (s : ExtSuper) (metas : List Group) : Prop where
  few : s.blocks < 2 ^ 52
  length : metas.length = s.groups.toNat
  starts : ∀ g < metas.length, s.start g < s.blocks
  covers : ∀ k, s.firstData ≤ k → k < s.blocks → (k - s.firstData) / s.bpg < metas.length
  bitmaps : ∀ o ∈ metas, 0 ≤ o.bb ∧ o.bb < s.blocks
  runs : ∀ run ∈ metas.flatMap (Group.runs s), 0 ≤ run.1 ∧ 0 ≤ run.2 ∧ run.1 + run.2 < 2 ^ 62
  backups : -2 ^ 62 < 1 + s.gdtBlocks + s.reservedGDT ∧ 1 + s.gdtBlocks + s.reservedGDT < 2 ^ 62

theorem inGroup_place (s : ExtSuper) (g k : Nat) (inside : InGroup s g k) :
    (k - s.firstData) / s.bpg = g := by
  have least : s.count g ≤ s.bpg := Nat.min_le_left _ _
  have start := inside.1
  have stop := inside.2
  rw [ExtSuper.start] at start stop
  apply Nat.div_eq_of_lt_le
  · exact Nat.le_sub_of_add_le' start
  · rw [Nat.succ_mul]
    generalize g * s.bpg = before at start stop
    omega

/-- Every block from the first data block on is in the group at its place. -/
theorem place_inGroup (s : ExtSuper) (k : Nat) (first : s.firstData ≤ k) (known : k < s.blocks) :
    InGroup s ((k - s.firstData) / s.bpg) k := by
  have low := Nat.div_mul_le_self (k - s.firstData) s.bpg
  have high := Nat.lt_div_mul_add (a := k - s.firstData) s.grouped.1
  constructor
  · rw [ExtSuper.start]
    omega
  · rw [ExtSuper.count, ExtSuper.start]
    omega

theorem callsFree_iff (r : Reader) (s : ExtSuper) (metas : List Group) (g : Nat) (group : Group)
    (k : Nat) (found : metas[g]? = some group) (inside : InGroup s g k) :
    CallsFree r s metas k ↔ Unused r s metas g group k := by
  constructor
  · rintro ⟨other, its, listed, place, unused⟩
    have same : other = g := (inGroup_place s other k place).symm.trans (inGroup_place s g k inside)
    subst same
    rw [found] at listed
    cases listed
    exact unused
  · intro unused
    exact ⟨g, group, found, inside, unused⟩

/-! What a group's turn does. -/

theorem markRuns_used (clusters start count : Nat) (runs : List (Int × Int)) (m after : Map)
    (sized : Sized clusters m)
    (bounded : ∀ run ∈ runs, 0 ≤ run.1 ∧ 0 ≤ run.2 ∧ run.1 + run.2 < 2 ^ 62)
    (ran : markRuns start count runs m = .ok after) (k : Nat) (known : k < clusters) :
    after.used k = true ↔ m.used k = true ∨ ∃ run ∈ runs,
      (run.1 + run.2 > start ∧ run.1 < start + count) ∧ run.1 ≤ k ∧ k < run.1 + run.2 := by
  induction runs generalizing m with
  | nil =>
    cases ran
    simp
  | cons run rest ih =>
    rw [markRuns] at ran
    obtain ⟨next, marked, later⟩ := Outcome.bind_ok ran
    have bound := bounded run List.mem_cons_self
    have further := fun other member => bounded other (List.mem_cons_of_mem run member)
    rw [provided] at marked
    split at marked
    · next overlaps =>
        have kept := (markUsed_meets clusters m _ _ sized).of_ok marked
        rw [ih next kept further later, markUsed_used m next _ _ (by omega) (by omega) marked k
          (sized.1 ▸ known), List.exists_mem_cons_iff, or_assoc]
        simp only [overlaps, true_and]
    · next apart =>
        cases marked
        rw [ih m sized further later, List.exists_mem_cons_iff]
        simp only [apart, false_and, false_or]

theorem freeClear_used (clusters start : Nat) (bitmap : Buffer) (left i : Nat) (m after : Map)
    (sized : Sized clusters m) (bounded : start + i + left < 2 ^ 62)
    (ran : freeClear start bitmap left i m = .ok after) (k : Nat) (known : k < clusters) :
    after.used k = true ↔ m.used k = true ∧
      ¬ (start + i ≤ k ∧ k < start + i + left ∧ bitAt bitmap (k - start) = false) := by
  induction left generalizing i m with
  | zero =>
    cases ran
    have none_ : ¬ (start + i ≤ k ∧ k < start + i + 0 ∧ bitAt bitmap (k - start) = false) := by
      omega
    simp only [none_, not_false_eq_true, and_true]
  | succ left ih =>
    rw [freeClear] at ran
    split at ran
    · obtain ⟨next, freed, later⟩ := Outcome.bind_ok ran
      rw [provided] at freed
      split at freed
      · next clear_ =>
          have kept := (free_meets clusters m _ _ sized).of_ok freed
          have bit : bitAt bitmap i = false := by
            simp only [bitAt, clear_]
            rfl
          rw [ih (i + 1) next kept (by omega) later, free_used m next _ _ (by omega) (by omega)
            freed k (sized.1 ▸ known), and_assoc]
          apply and_congr_right
          intro _
          by_cases here : k = start + i
          · have place : k - start = i := by omega
            rw [place]
            constructor
            · rintro ⟨other, _⟩
              exact (other ⟨by omega, by omega⟩).elim
            · intro other
              exact (other ⟨by omega, by omega, bit⟩).elim
          · constructor
            · rintro ⟨_, other⟩ ⟨low, high, unset⟩
              exact other ⟨by omega, by omega, unset⟩
            · intro other
              refine ⟨by omega, ?_⟩
              rintro ⟨low, high, unset⟩
              exact other ⟨by omega, by omega, unset⟩
      · next set_ =>
          cases freed
          have bit : bitAt bitmap i = true := bne_iff_ne.mpr set_
          rw [ih (i + 1) m sized (by omega) later]
          apply and_congr_right
          intro _
          by_cases here : k = start + i
          · have place : k - start = i := by omega
            rw [place, bit]
            simp only [reduceCtorEq, and_false]
          · constructor
            · rintro other ⟨low, high, unset⟩
              exact other ⟨by omega, by omega, unset⟩
            · rintro other ⟨low, high, unset⟩
              exact other ⟨by omega, by omega, unset⟩
    · cases ran

/-- The bitmap of a group of a file system that lies in the image is read whole, whatever
the buffer held. -/
theorem fill_bitmap (r : Reader) (s : ExtSuper) (group : Group) (buf : Buffer)
    (size : buf.length = s.bs) (whole : s.blocks * s.bs ≤ r.image.length) (low : 0 ≤ group.bb) (high : group.bb < s.blocks) :
    r.readSome buf (int64 (group.bb * s.bs)) = .ok (r.fill buf (group.bb * s.bs)) ∧
      ∀ i < s.bs, (r.fill buf (group.bb * s.bs)).byte i = (bitmapOf r s group).byte i := by
  have fits := r.fits
  have place : group.bb * s.bs = (group.bb.toNat * s.bs : Nat) := by
    rw [Nat.cast_mul, Int.toNat_of_nonneg low]
  have inside : group.bb.toNat * s.bs + s.bs ≤ r.image.length := by
    have next : (group.bb.toNat + 1) * s.bs ≤ s.blocks * s.bs :=
      Nat.mul_le_mul_right _ (by omega)
    rw [Nat.succ_mul] at next
    exact Nat.le_trans next whole
  constructor
  · rw [place, int64_same _ (by omega) (by omega), Reader.readSome, if_neg (by omega)]
  · intro i within
    rw [place]
    simp only [Reader.fill, Int.toNat_natCast]
    rw [if_pos ⟨by omega, by omega, by omega⟩]
    rfl

theorem bitAt_congr (a b : Buffer) (k : Nat) (same : a.byte (k / 8) = b.byte (k / 8)) :
    bitAt a k = bitAt b k := by
  rw [bitAt, bitAt, same]

/-- A turn decides the group's own blocks, and elsewhere it only marks: the group's backup
area and the runs of metadata that reach into the group. -/
theorem visitGroup_used (r : Reader) (s : ExtSuper) (metas : List Group) (ready : Ready s metas)
    (whole : s.blocks * s.bs ≤ r.image.length) (g : Nat) (m after : Map) (bitmap buf : Buffer)
    (sized : Sized s.blocks m) (size : bitmap.length = s.bs)
    (ran : visitGroup r s metas g m bitmap = .ok (after, buf)) :
    ∃ group, metas[g]? = some group ∧ ∀ k < s.blocks,
      (InGroup s g k → m.used k = true →
        (after.used k = false ↔ Unused r s metas g group k)) ∧
      (¬ InGroup s g k →
        (after.used k = true → m.used k = true ∨ Backup s g k ∨ Meta s metas k) ∧
        (m.used k = true → after.used k = true)) := by
  rw [visitGroup] at ran
  cases found : metas[g]? with
  | none =>
    rw [found] at ran
    cases ran
  | some group =>
    rw [found] at ran
    dsimp only at ran
    have listed := List.mem_of_getElem? found
    have known : g < metas.length := (List.getElem?_eq_some_iff.mp found).1
    have start := ready.starts g known
    have few := ready.few
    have stop : s.start g + s.count g ≤ s.blocks := by
      rw [ExtSuper.count]
      omega
    refine ⟨group, rfl, ?_⟩
    intro k below
    split at ran
    · next uninit =>
        obtain ⟨freed, first, ran⟩ := Outcome.bind_ok ran
        obtain ⟨backed, second, ran⟩ := Outcome.bind_ok ran
        obtain ⟨marked, third, ran⟩ := Outcome.bind_ok ran
        cases ran
        have sizedF := (free_meets s.blocks m _ _ sized).of_ok first
        have usedF := free_used m freed _ _ (by omega) (by omega) first k (sized.1 ▸ below)
        have sizedB := (provided_meets _ _ freed
          (fun _ => markUsed_meets s.blocks freed _ _ sizedF) sizedF).of_ok second
        have usedB : backed.used k = true ↔ freed.used k = true ∨ Backup s g k := by
          rw [provided] at second
          split at second
          · next backup =>
              have bounds := ready.backups
              rw [markUsed_used freed backed _ _ (by omega) (by omega) second k (sizedF.1 ▸ below)]
              simp only [Backup, backup, true_and, Nat.cast_le]
          · next none_ =>
              cases second
              simp [Backup, none_]
        have usedM := markRuns_used s.blocks _ _ _ backed after sizedB ready.runs third k below
        constructor
        · intro inside _
          have gone : freed.used k ≠ true := by
            intro used
            have out := (usedF.mp used).2
            exact out ⟨by have low := inside.1; omega, by have high := inside.2; omega⟩
          -- A run that holds a block of the group reaches into the group.
          have runs : (∃ run ∈ metas.flatMap (Group.runs s),
              (run.1 + run.2 > s.start g ∧ run.1 < s.start g + s.count g) ∧
                run.1 ≤ k ∧ k < run.1 + run.2) ↔ Meta s metas k := by
            constructor
            · rintro ⟨run, member, _, holds⟩
              exact ⟨run, member, holds⟩
            · rintro ⟨run, member, holds⟩
              have low := inside.1
              have high := inside.2
              exact ⟨run, member, ⟨by omega, by omega⟩, holds⟩
          rw [runs, usedB] at usedM
          rw [Unused, if_pos uninit, ← Bool.not_eq_true, usedM, or_iff_right gone, not_or]
        · intro out
          constructor
          · intro used
            rcases usedM.mp used with earlier | ⟨run, member, _, holds⟩
            · rcases usedB.mp earlier with old | backup
              · exact Or.inl (usedF.mp old).1
              · exact Or.inr (Or.inl backup)
            · exact Or.inr (Or.inr ⟨run, member, holds⟩)
          · intro used
            apply usedM.mpr
            apply Or.inl
            apply usedB.mpr
            apply Or.inl
            apply usedF.mpr
            refine ⟨used, ?_⟩
            rintro ⟨low, high⟩
            exact out ⟨by omega, by omega⟩
    · next init =>
        have place := ready.bitmaps group listed
        obtain ⟨reads, bytes⟩ := fill_bitmap r s group bitmap size whole place.1 place.2
        rw [reads, Outcome.ok_bind] at ran
        obtain ⟨cleared, first, ran⟩ := Outcome.bind_ok ran
        have same : cleared = after := by
          split at ran
          · cases ran
          · split at ran
            · cases ran
            · cases ran
              rfl
        subst same
        have used := freeClear_used s.blocks _ _ _ 0 m cleared sized (by omega) first k below
        rw [Nat.add_zero] at used
        constructor
        · intro inside before
          have least : s.count g ≤ s.bs * 8 := Nat.le_trans (Nat.min_le_left _ _) s.grouped.2
          have low := inside.1
          have high := inside.2
          have bit := bitAt_congr (r.fill bitmap (group.bb * s.bs)) (bitmapOf r s group)
            (k - s.start g) (bytes _ (by omega))
          rw [bit] at used
          rw [Unused, if_neg init, ← Bool.not_eq_true, used]
          constructor
          · intro unused
            by_contra set_
            exact unused ⟨before, fun clear_ => set_ clear_.2.2⟩
          · rintro clear_ ⟨_, other⟩
            exact other ⟨low, high, clear_⟩
        · intro out
          constructor
          · intro now
            exact Or.inl (used.mp now).1
          · intro before
            apply used.mpr
            refine ⟨before, ?_⟩
            rintro ⟨low, high, _⟩
            exact out ⟨low, high⟩

/-- After some groups' turns: their blocks are decided, and all others are used. -/
structure Visited (r : Reader) (s : ExtSuper) (metas : List Group) (visited : List Nat) (m : Map) :
    Prop where
  sized : Sized s.blocks m
  decided : ∀ k < s.blocks, ∀ g ∈ visited, InGroup s g k →
    (m.used k = false ↔ CallsFree r s metas k)
  kept : ∀ k < s.blocks, (∀ g ∈ visited, ¬ InGroup s g k) → m.used k = true

/-- Metadata is never unused, whichever group it lies in. -/
theorem meta_not_free (r : Reader) (s : ExtSuper) (metas : List Group)
    (consistent : Consistent r s metas) (k : Nat) (below : k < s.blocks) (part : Meta s metas k) :
    ¬ CallsFree r s metas k := by
  rintro ⟨g, group, found, inside, unused⟩
  rw [Unused] at unused
  split at unused
  · exact unused.2 part
  · next init =>
      have known := (List.getElem?_eq_some_iff.mp found).1
      have marked := consistent.2 g known group found (by simpa using init) k below inside part
      rw [unused] at marked
      cases marked

theorem visit_step (r : Reader) (s : ExtSuper) (metas : List Group) (ready : Ready s metas)
    (consistent : Consistent r s metas) (visited : List Nat) (g : Nat) (fresh : g ∉ visited)
    (m after : Map) (bitmap buf : Buffer) (held : Visited r s metas visited m)
    (size : bitmap.length = s.bs)
    (apart : ∀ k < s.blocks, ∀ other ∈ visited, InGroup s other k → ¬ Backup s g k)
    (ran : visitGroup r s metas g m bitmap = .ok (after, buf)) :
    Visited r s metas (g :: visited) after ∧ buf.length = s.bs := by
  obtain ⟨group, found, turn⟩ :=
    visitGroup_used r s metas ready consistent.1 g m after bitmap buf held.sized size ran
  have known := (List.getElem?_eq_some_iff.mp found).1
  have meets := (visitGroup_meets r s metas s.blocks g m bitmap known held.sized size).of_ok ran
  refine ⟨⟨meets.1, ?_, ?_⟩, meets.2⟩
  · intro k below other member inside
    by_cases mine : InGroup s g k
    · have untouched : m.used k = true := by
        apply held.kept k below
        intro earlier before there
        have same := (inGroup_place s earlier k there).symm.trans (inGroup_place s g k mine)
        exact fresh (same ▸ before)
      rw [callsFree_iff r s metas g group k found mine]
      exact (turn k below).1 mine untouched
    · have before : other ∈ visited := by
        rcases List.mem_cons.mp member with same | earlier
        · exact (mine (same ▸ inside)).elim
        · exact earlier
      have old := held.decided k below other before inside
      have change := (turn k below).2 mine
      rw [← old]
      constructor
      · intro free
        by_contra used
        rw [Bool.not_eq_false] at used
        rw [change.2 used] at free
        cases free
      · intro free
        by_contra used
        rw [Bool.not_eq_false] at used
        rcases change.1 used with earlier | backup | part
        · rw [free] at earlier
          cases earlier
        · exact apart k below other before inside backup
        · exact meta_not_free r s metas consistent k below part (old.mp free)
  · intro k below out
    have mine := out g List.mem_cons_self
    apply ((turn k below).2 mine).2
    apply held.kept k below
    intro other member
    exact out other (List.mem_cons_of_mem g member)

/-- The turns of any groups, each once and none decided before. -/
theorem visit_run (r : Reader) (s : ExtSuper) (metas : List Group) (ready : Ready s metas)
    (consistent : Consistent r s metas) (order : List Nat) (visited : List Nat)
    (once : (visited ++ order).Nodup) (m after : Map) (bitmap : Buffer)
    (held : Visited r s metas visited m) (size : bitmap.length = s.bs)
    (apart : ∀ front g back, order = front ++ g :: back → ∀ k < s.blocks,
      ∀ other ∈ visited ++ front, InGroup s other k → ¬ Backup s g k)
    (ran : visitGroups r s metas order m bitmap = .ok after) :
    ∃ all, (∀ g, g ∈ all ↔ g ∈ visited ∨ g ∈ order) ∧ Visited r s metas all after := by
  induction order generalizing visited m bitmap with
  | nil =>
    cases ran
    exact ⟨visited, by simp, held⟩
  | cons g rest ih =>
    rw [visitGroups] at ran
    obtain ⟨⟨next, buf⟩, turn, later⟩ := Outcome.bind_ok ran
    have parts := List.nodup_append.mp once
    have fresh : g ∉ visited := fun member => parts.2.2 g member g List.mem_cons_self rfl
    have first := apart [] g rest rfl
    rw [List.append_nil] at first
    obtain ⟨step, length⟩ := visit_step r s metas ready consistent visited g fresh m next bitmap
      buf held size first turn
    have onceNext : ((g :: visited) ++ rest).Nodup := by
      have moved : (visited ++ g :: rest).Perm (g :: (visited ++ rest)) := List.perm_middle
      exact moved.nodup_iff.mp once
    have apartNext : ∀ front other back, rest = front ++ other :: back → ∀ k < s.blocks,
        ∀ earlier ∈ (g :: visited) ++ front, InGroup s earlier k → ¬ Backup s other k := by
      intro front other back split k below earlier member inside
      apply apart (g :: front) other back (by rw [split, List.cons_append]) k below earlier _ inside
      rw [List.cons_append, List.mem_cons, List.mem_append] at member
      rw [List.mem_append, List.mem_cons]
      rcases member with same | before | among
      · exact Or.inr (Or.inl same)
      · exact Or.inl before
      · exact Or.inr (Or.inr among)
    obtain ⟨all, members, final⟩ := ih (g :: visited) onceNext next buf step length apartNext later
    refine ⟨all, ?_, final⟩
    intro other
    rw [members, List.mem_cons, List.mem_cons]
    constructor
    · rintro ((same | before) | among)
      · exact Or.inr (Or.inl same)
      · exact Or.inl before
      · exact Or.inr (Or.inr among)
    · rintro (before | same | among)
      · exact Or.inl (Or.inr before)
      · exact Or.inl (Or.inl same)
      · exact Or.inr among

theorem newUsedMap_used (clusters : Nat) (m : Map) (made : Map.newUsedMap clusters = .ok m)
    (k : Nat) : m.used k = true := by
  rw [Map.newUsedMap] at made
  obtain ⟨bits, _, same⟩ := Outcome.bind_ok made
  cases same
  have low : k % 8 < 8 := Nat.mod_lt k (by norm_num)
  change bitAt ⟨bits.length, fun _ => 255⟩ k = true
  rw [bitAt_testBit]
  dsimp only
  generalize k % 8 = i at low
  interval_cases i <;> rfl

/-- Once all groups have had their turn, the map says what it should. -/
theorem order_used (r : Reader) (s : ExtSuper) (metas : List Group) (ready : Ready s metas)
    (consistent : Consistent r s metas) (order : List Nat)
    (all : order.Perm (List.range metas.length)) (m after : Map) (bitmap : Buffer)
    (made : Map.newUsedMap s.blocks = .ok m) (sized : Sized s.blocks m) (size : bitmap.length = s.bs)
    (apart : ∀ front g back, order = front ++ g :: back → ∀ k < s.blocks,
      ∀ other ∈ front, InGroup s other k → ¬ Backup s g k)
    (ran : visitGroups r s metas order m bitmap = .ok after) :
    ∀ k < s.blocks, after.used k = false ↔ CallsFree r s metas k := by
  have start : Visited r s metas [] m := by
    constructor
    · exact sized
    · intro k _ g none_
      cases none_
    · intro k _ _
      exact newUsedMap_used s.blocks m made k
  have once : ([] ++ order).Nodup := all.nodup_iff.mpr List.nodup_range
  obtain ⟨visited, members, final⟩ :=
    visit_run r s metas ready consistent order [] once m after bitmap start size apart ran
  intro k below
  by_cases first : s.firstData ≤ k
  · have inside := place_inGroup s k first below
    apply final.decided k below _ _ inside
    apply (members _).mpr
    apply Or.inr
    rw [all.mem_iff]
    exact List.mem_range.mpr (ready.covers k first below)
  · -- A block before the first group is in none, so no turn has freed it.
    have out : ∀ g, ¬ InGroup s g k := by
      intro g inside
      have low := inside.1
      rw [ExtSuper.start] at low
      omega
    have used := final.kept k below fun g _ => out g
    rw [used]
    constructor
    · intro wrong
      cases wrong
    · rintro ⟨g, _, _, inside, _⟩
      exact (out g inside).elim

/-! The sizes of a layout whose map was made. -/

theorem inside_bounds (s : ExtSuper) (b : Int) (inside : outside s b = false) :
    0 ≤ b ∧ b < s.blocks := by
  simp only [outside, Bool.or_eq_false_iff, decide_eq_false_iff_not] at inside
  omega

theorem descriptor_inside (s : ExtSuper) (gdt : Buffer) (g : Nat) (o : Group)
    (ran : descriptor s gdt g = .ok o) :
    outside s o.bb = false ∧ outside s o.ib = false ∧ outside s o.it = false := by
  rw [descriptor] at ran
  obtain ⟨bb, _, ran⟩ := Outcome.bind_ok ran
  obtain ⟨ib, _, ran⟩ := Outcome.bind_ok ran
  obtain ⟨it, _, ran⟩ := Outcome.bind_ok ran
  obtain ⟨flags, _, ran⟩ := Outcome.bind_ok ran
  split at ran
  · cases ran
  · next passed =>
      cases ran
      simp only [Bool.or_eq_true, not_or, Bool.not_eq_true] at passed
      exact ⟨passed.1.1.1, passed.1.1.2, passed.1.2⟩

theorem descriptors_inside (s : ExtSuper) (gdt : Buffer) (left g : Nat) (metas : List Group)
    (ran : descriptors s gdt left g = .ok metas) :
    ∀ o ∈ metas, outside s o.bb = false ∧ outside s o.ib = false ∧ outside s o.it = false := by
  induction left generalizing g metas with
  | zero =>
    cases ran
    intro o none_
    cases none_
  | succ left ih =>
    rw [descriptors] at ran
    obtain ⟨first, one, ran⟩ := Outcome.bind_ok ran
    obtain ⟨rest, others, ran⟩ := Outcome.bind_ok ran
    cases ran
    intro o member
    rcases List.mem_cons.mp member with same | later
    · rw [same]
      exact descriptor_inside s gdt g first one
    · exact ih (g + 1) rest others o later

theorem itBlocks_le (s : ExtSuper) (narrow : Narrow s) : s.itBlocks < 2 ^ 49 := by
  have product : s.ipg * s.inodeSize < 2 ^ 32 * 2 ^ 16 :=
    Nat.mul_lt_mul'' narrow.2.1 narrow.2.2.1
  have small := bs_small s
  have cut : s.itBlocks ≤ s.ipg * s.inodeSize + s.bs - 1 := Nat.div_le_self _ _
  omega

theorem gdtBlocks_bounds (s : ExtSuper) (fits : TablesFit s) :
    0 ≤ s.gdtBlocks ∧ s.gdtBlocks < 2 ^ 49 := by
  have small := bs_small s
  have size : s.gdtSize ≤ 2 ^ 48 := fits.gdt.2
  have low := fits.gdt.1
  have positive : 0 < s.bs := Nat.mul_pos (by norm_num) (Nat.two_pow_pos _)
  have cut : s.gdtBlocks = (s.gdtSize + s.bs - 1) / s.bs := by
    rw [ExtSuper.gdtBlocks, int64_same _ (by omega) (by omega),
      Int.tdiv_eq_ediv_of_nonneg (by omega)]
  constructor
  · rw [cut]
    exact Int.ediv_nonneg (by omega) (by omega)
  · have less : (s.gdtSize + s.bs - 1) / s.bs ≤ s.gdtSize + s.bs - 1 :=
      Int.ediv_le_self _ (by omega)
    omega

theorem groups_exact (s : ExtSuper) (few : s.blocks < 2 ^ 52) :
    s.groups.toNat = (s.blocks - s.firstData + s.bpg - 1) / s.bpg := by
  have ordered := s.ordered
  have grouped := s.grouped
  have small := bs_small s
  rw [← ExtSuper.bs] at grouped
  have sum : (s.blocks : Int) - s.firstData + s.bpg - 1 =
      (s.blocks - s.firstData + s.bpg - 1 : Nat) := by omega
  rw [ExtSuper.groups, sum, int64_same _ (by omega) (by omega),
    Int.tdiv_eq_ediv_of_nonneg (by omega), ← Int.natCast_ediv, Int.toNat_natCast]

/-- What a layout was read from. -/
theorem extLayout_parts (r : Reader) (s : ExtSuper) (metas : List Group)
    (layout : extLayout r = .ok (s, metas)) :
    extRead r = .ok s ∧ ∃ gdt, descriptors s gdt s.groups.toNat 0 = .ok metas := by
  rw [extLayout] at layout
  obtain ⟨other, read, ran⟩ := Outcome.bind_ok layout
  obtain ⟨_, _, ran⟩ := Outcome.bind_ok ran
  obtain ⟨gdt, _, ran⟩ := Outcome.bind_ok ran
  obtain ⟨_, _, ran⟩ := Outcome.bind_ok ran
  obtain ⟨_, _, ran⟩ := Outcome.bind_ok ran
  obtain ⟨listed, checked, ran⟩ := Outcome.bind_ok ran
  cases ran
  exact ⟨read, gdt, checked⟩

theorem layout_ready (r : Reader) (s : ExtSuper) (metas : List Group) (m : Map)
    (layout : extLayout r = .ok (s, metas)) (made : Map.newUsedMap s.blocks = .ok m) :
    Ready s metas := by
  obtain ⟨found, gdt, checked⟩ := extLayout_parts r s metas layout
  have tables : TablesFit s := by
    by_contra unfit
    rw [extLayout_panicked r s found unfit] at layout
    cases layout
  have room : MapFits s.blocks := by
    by_contra large
    rw [newUsedMap_panicked s.blocks s.counted large] at made
    cases made
  have few : s.blocks < 2 ^ 52 := by
    have bits : (s.blocks + 7) / 8 ≤ 2 ^ 48 := room
    omega
  have narrow := (extRead_meets r).of_ok found
  have groups := groups_exact s few
  have ordered := s.ordered
  have positive := s.grouped.1
  have length : metas.length = s.groups.toNat := by
    have fits : ∀ other, extRead r = .ok other → TablesFit other := by
      intro other read
      rw [found] at read
      cases read
      exact tables
    exact ((extLayout_meets r fits).of_ok layout).2
  have passed : ∀ o ∈ metas,
      outside s o.bb = false ∧ outside s o.ib = false ∧ outside s o.it = false :=
    descriptors_inside s gdt _ 0 metas checked
  constructor
  · exact few
  · exact length
  · intro g known
    rw [length, groups] at known
    have turns := (Nat.le_div_iff_mul_le positive).mp known
    rw [Nat.succ_mul] at turns
    rw [ExtSuper.start]
    generalize g * s.bpg = before at turns
    omega
  · intro k first below
    rw [length, groups]
    have next : (k - s.firstData) / s.bpg + 1 = (k - s.firstData + s.bpg) / s.bpg :=
      (Nat.add_div_right _ positive).symm
    have more : (k - s.firstData + s.bpg) / s.bpg ≤
        (s.blocks - s.firstData + s.bpg - 1) / s.bpg := Nat.div_le_div_right (by omega)
    omega
  · intro o member
    exact inside_bounds s o.bb (passed o member).1
  · intro run member
    obtain ⟨o, listed, among⟩ := List.mem_flatMap.mp member
    have bb := inside_bounds s o.bb (passed o listed).1
    have ib := inside_bounds s o.ib (passed o listed).2.1
    have it := inside_bounds s o.it (passed o listed).2.2
    have table := itBlocks_le s narrow
    simp only [Group.runs, List.mem_cons, List.not_mem_nil, or_false] at among
    rcases among with rfl | rfl | rfl
    · exact ⟨bb.1, by norm_num, by dsimp only; omega⟩
    · exact ⟨ib.1, by norm_num, by dsimp only; omega⟩
    · exact ⟨it.1, by dsimp only; omega, by dsimp only; omega⟩
  · have blocks := gdtBlocks_bounds s tables
    have reserved := narrow.2.2.2
    omega

/-- The backup area of a group without a bitmap of its own ends inside the group. -/
def BackupsInside (s : ExtSuper) (metas : List Group) : Prop :=
  ∀ g < metas.length, ∀ k < s.blocks, Backup s g k → InGroup s g k

/-- 33 blocks of 1024 bytes in two groups; the metadata of both is in the first, and the
second is BLOCK_UNINIT. -/
def flexImage (i : Nat) : UInt8 :=
  if i = 1028 then 33
  else if i = 1044 then 1
  else if i = 1056 then 16
  else if i = 1064 then 8
  else if i = 1080 then 0x53
  else if i = 1081 then 0xEF
  else if i = 1121 then 2
  -- The descriptors.
  else if i = 2048 then 3
  else if i = 2052 then 4
  else if i = 2056 then 5
  else if i = 2080 then 6
  else if i = 2084 then 7
  else if i = 2088 then 8
  else if i = 2098 then 2
  -- The bitmap of the first group.
  else if i = 3072 then 255
  else 0

def flexReader : Reader := ⟨⟨33792, flexImage⟩, by norm_num, true⟩

instance (r : Reader) (s : ExtSuper) (metas : List Group) : Decidable (Consistent r s metas) :=
  inferInstanceAs (Decidable (_ ∧ ∀ g < metas.length, ∀ group ∈ metas[g]?, _))

instance (s : ExtSuper) (g k : Nat) : Decidable (Backup s g k) :=
  inferInstanceAs (Decidable (_ ∧ _ ∧ _))

instance (s : ExtSuper) (metas : List Group) : Decidable (BackupsInside s metas) :=
  inferInstanceAs (Decidable (∀ g < metas.length, ∀ k < s.blocks, Backup s g k → InGroup s g k))

/-- Blocks 9 and 19 are free, 8 and 18 are not. -/
def asFlex : Outcome MapError Map → Bool
  | .ok m => !m.used 9 && m.used 8 && m.used 18 && !m.used 19
  | _ => false

def flexReversed (s : ExtSuper) (metas : List Group) : Outcome MapError Map := do
  let m ← Map.newUsedMap s.blocks
  visitGroups flexReader s metas [1, 0] m ⟨s.bs, fun _ => 0⟩

theorem asFlex_ok {x : Outcome MapError Map} (as_ : asFlex x = true) :
    ∃ m : Map, x = .ok m ∧ m.used 9 = false ∧ m.used 18 = true := by
  cases x with
  | ok m =>
    simp only [asFlex, Bool.and_eq_true, Bool.not_eq_true'] at as_
    exact ⟨m, rfl, as_.1.1.1, as_.1.2⟩
  | error err => cases as_
  | panicked => cases as_

/-- What the image is laid out as. -/
def flexLayout : Outcome MapError (ExtSuper × List Group) → Bool
  | .ok (s, metas) => decide (s.blocks = 33 ∧ metas.length = 2 ∧
      Consistent flexReader s metas ∧ BackupsInside s metas) && asFlex (flexReversed s metas)
  | _ => false

end ProxmoxBackup.ExtFreeSpace
