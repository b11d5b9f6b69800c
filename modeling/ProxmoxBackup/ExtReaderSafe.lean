import ProxmoxBackup.ExtReader

/-! When reading an ext image panics. Opening never does, nor do the extents and a folder's
records; an inode does where its fields point out of its own bytes or its table stands before
the image, and what has a negative size does where it is read whole. A file's reads end. -/
namespace ProxmoxBackup.ExtReaderSafe

open GoValues FreeSpaceMap FreeSpaceSafe FileReads ExtReader BinarySearch

def Always {α : Type} (_ : α) : Prop := True

theorem le_ok {size : Nat} {b : Buffer} {o : Nat} (inside : o + size ≤ b.length) :
    le size b o = .ok (little b o size) := if_pos inside

theorem le_out {size : Nat} {b : Buffer} {o : Nat} (out : b.length < o + size) :
    le size b o = .panicked := if_neg (Nat.not_le.mpr out)

theorem slice_ok {b : Buffer} {lo hi : Nat} (inside : lo ≤ hi ∧ hi ≤ b.length) :
    slice b lo hi = .ok ⟨hi - lo, fun i => b.byte (lo + i)⟩ := if_pos inside

theorem slice_meets {b : Buffer} {lo hi : Nat} (inside : lo ≤ hi ∧ hi ≤ b.length) :
    (slice b lo hi).Meets fun piece => piece.length = hi - lo := by
  rw [slice_ok inside]
  exact .ok rfl

/-! Opening. -/

theorem readTables_meets (blockSize descSize : Nat) (gdt : Buffer) (groups : Nat)
    (described : 32 ≤ descSize) (whole : groups * descSize ≤ gdt.length) :
    (readTables blockSize descSize gdt groups).Meets fun tables => tables.length = groups := by
  induction groups with
  | zero => exact .ok rfl
  | succ g ih =>
      rw [Nat.succ_mul] at whole
      rw [readTables]
      apply (ih (by omega)).bind
      intro before counted
      apply (slice_meets ⟨by omega, Nat.le_refl _⟩).bind
      intro d length
      apply (le_meets 4 d 8 (by omega)).bind
      intro low _
      have high_ : (provided (64 ≤ descSize) (le 4 d 0x28) 0).Meets Always :=
        provided_meets _ _ 0 (fun wide => (le_meets 4 d 0x28 (by omega)).weaken fun _ _ => trivial) trivial
      apply high_.bind
      intro high _
      exact .ok (by rw [List.length_append, counted]; rfl)

/-- What openExt has checked of a superblock. -/
structure Opened (v : ExtReader.Ext) : Prop where
  grouped : 0 < v.inodesPerGroup
  tables : v.inodeTables.length = v.groups
  large : 128 ≤ v.inodeSize

theorem openExt_meets (v : Volume) : (openExt v).Meets Opened := by
  rw [openExt]
  apply (fixed_meets 1024 (by norm_num)).bind
  intro buf empty
  apply (readFull_meets v.toReader buf 1024).bind
  intro sb filled
  have size : sb.length = 1024 := filled.trans empty
  apply (le_meets 2 sb 56 (by omega)).bind
  intro magic _
  split
  · exact .error
  · apply (le_meets 4 sb 24 (by omega)).bind
    intro logBS _
    split
    · exact .error
    · apply (le_meets 4 sb 40 (by omega)).bind
      intro inodesPerGroup _
      apply (le_meets 4 sb 32 (by omega)).bind
      intro blocksPerGroup _
      apply (le_meets 4 sb 76 (by omega)).bind
      intro revLevel _
      apply (provided_meets _ (le 2 sb 88) 128 (fun _ => le_meets 2 sb 88 (by omega))
        (by norm_num)).bind
      intro inodeSize _
      apply (le_meets 4 sb 96 (by omega)).bind
      intro incompat _
      apply (le_meets 4 sb 100 (by omega)).bind
      intro roCompat _
      have label_ : (slice sb 120 136).Meets _ := slice_meets ⟨by omega, by omega⟩
      apply label_.bind
      intro label _
      split
      · exact .error
      · apply (le_meets 4 sb 4 (by omega)).bind
        intro low _
        apply (provided_meets _ (le 4 sb 336) 0 (fun _ => le_meets 4 sb 336 (by omega))
          (by norm_num)).bind
        intro high _
        apply (provided_meets _ (le 2 sb 254) 0 (fun _ => le_meets 2 sb 254 (by omega))
          (by norm_num)).bind
        intro ds small
        split
        · exact .error
        · rename_i sizes
          apply (le_meets 4 sb 20 (by omega)).bind
          intro firstData _
          simp only
          split
          · exact .error
          · rename_i fits_
            generalize groupCount (low + high * 2 ^ 32) firstData blocksPerGroup = groups
              at fits_ ⊢
            have described : 32 ≤ descSize ds := descSize_large ds
            have bound : descSize ds < 2 ^ 16 := by
              unfold descSize
              split
              · exact small
              · norm_num
            generalize descSize ds = descSize at described bound ⊢
            have most : groups * descSize ≤ 2 ^ 24 * 2 ^ 16 :=
              Nat.mul_le_mul (by omega) (Nat.le_of_lt bound)
            have allowed : (maxAlloc : Int) = 2 ^ 48 := by norm_num [maxAlloc]
            have gdt_ : (makeBytes ((groups : Int) * descSize)).Meets fun b =>
                b.length = ((groups : Int) * descSize).toNat := by
              apply makeBytes_meets
              · positivity
              · rw [allowed, ← Nat.cast_mul]
                omega
            apply gdt_.bind
            intro buf counted
            apply (readSome_meets v.toReader buf _).bind
            intro gdt same
            apply (makes_meets groups 8 (by rw [allowed]; omega)).bind
            intro _ _
            have whole : groups * descSize ≤ gdt.length := by
              rw [same, counted, ← Nat.cast_mul, Int.toNat_natCast]
            apply (readTables_meets _ descSize gdt groups described whole).bind
            intro tables counted
            exact .ok ⟨by dsimp only; omega, counted, by dsimp only; omega⟩

/-! Inodes. -/

/-- By induction on the turns: each goes at least 16 bytes on. -/
theorem findData_meets (base : Buffer) (turns o : Nat) (some_ : 0 < turns)
    (enough : base.length < turns + o) : (findData base turns o).Meets Always := by
  induction turns generalizing o with
  | zero => exact absurd some_ (Nat.lt_irrefl 0)
  | succ turns ih =>
      rw [findData]
      split
      · rename_i inside
        apply (le_meets 1 base o (by omega)).bind
        intro nameLen _
        apply (le_meets 1 base (o + 1) (by omega)).bind
        intro idx _
        split
        · exact .ok trivial
        · apply (le_meets 2 base (o + 2) (by omega)).bind
          intro valOff _
          apply (le_meets 4 base (o + 8) (by omega)).bind
          intro valSize _
          split
          · exact .ok trivial
          · rename_i fits
            apply (slice_meets ⟨Nat.le_add_right _ _, Nat.le_of_not_lt fits⟩).bind
            intro name _
            split
            · rename_i found
              exact (slice_meets ⟨Nat.le_add_right _ _, found.2.2⟩).weaken fun _ _ => trivial
            · exact ih _ (by omega) (by omega)
      · exact .ok trivial

theorem inlineXattr_meets (b : Buffer) : (inlineXattr b).Meets Always := by
  rw [inlineXattr]
  split
  · exact .ok trivial
  · apply (le_meets 4 b 0 (by omega)).bind
    intro magic _
    split
    · exact .ok trivial
    · apply (slice_meets ⟨by omega, Nat.le_refl _⟩).bind
      intro base _
      exact findData_meets base _ 0 (Nat.succ_pos _) (by omega)

theorem bind_panics {α β : Type} {x : Read α} {f : α → Read β} :
    (x >>= f) = .panicked ↔ x = .panicked ∨ ∃ a, x = .ok a ∧ f a = .panicked := by
  constructor
  · exact Outcome.bind_panicked
  · intro either
    rcases either with first | ⟨a, went, second⟩
    · rw [first]
      rfl
    · rw [went]
      exact second

theorem le_bind_panics {β : Type} {size : Nat} {b : Buffer} {o : Nat} {next : Nat → Read β} :
    (le size b o >>= next) = .panicked ↔
      b.length < o + size ∨ (o + size ≤ b.length ∧ next (little b o size) = .panicked) := by
  by_cases inside : o + size ≤ b.length
  · rw [le_ok inside, Outcome.ok_bind]
    constructor
    · exact fun panics => .inr ⟨inside, panics⟩
    · rintro (out | ⟨-, panics⟩)
      · omega
      · exact panics
  · rw [le_out (Nat.lt_of_not_le inside), Outcome.panicked_bind]
    constructor
    · exact fun _ => .inl (Nat.lt_of_not_le inside)
    · exact fun _ => rfl

/-- A sequence whose first part is optional. -/
theorem provided_bind {α β : Type} (p : Prop) [Decidable p] (body : Read α) (kept : α)
    (next : α → Read β) :
    (provided p body kept >>= next) = if p then body >>= next else next kept := by
  rw [provided]
  split <;> rfl

theorem readTimes_panics {b : Buffer} {extra : Nat} :
    readTimes b extra = .panicked ↔ (12 ≤ extra ∧ b.length < 140) ∨
      (24 ≤ extra ∧ (b.length < 148 ∨ (little b 0x90 4 ≠ 0 ∧ b.length < 152))) := by
  have done : ¬ (pure () : Read Unit) = .panicked := by
    intro panics
    cases panics
  unfold readTimes
  rw [provided_bind]
  by_cases mtime : 12 ≤ extra
  · rw [if_pos mtime, le_bind_panics, provided_bind]
    by_cases crtime : 24 ≤ extra
    · rw [if_pos crtime, le_bind_panics, provided_bind]
      by_cases set_ : little b 0x90 4 ≠ 0
      · rw [if_pos ⟨crtime, set_⟩, le_bind_panics]
        simp only [done, and_false, or_false]
        omega
      · rw [if_neg fun both => set_ both.2]
        simp only [done, and_false, or_false]
        omega
    · rw [if_neg crtime, provided_bind, if_neg fun both => crtime both.1]
      simp only [done, and_false, or_false]
      omega
  · have early : ¬ 24 ≤ extra := by omega
    rw [if_neg mtime, provided_bind, if_neg early, provided_bind,
      if_neg fun both => early both.1]
    constructor
    · exact fun panics => absurd panics done
    · omega

theorem readInline_panics {flags : Nat} {b : Buffer} {extra : Nat} :
    readInline flags b extra = .panicked ↔
      has flags extFlagInlineData = true ∧ 0 < extra ∧ b.length < 128 + extra := by
  unfold readInline provided
  split
  · next both =>
      by_cases inside : 128 + extra ≤ b.length
      · rw [slice_ok ⟨inside, Nat.le_refl _⟩, Outcome.ok_bind]
        constructor
        · exact fun panics => absurd panics (inlineXattr_meets _).not_panicked
        · omega
      · have out : slice b (128 + extra) b.length = .panicked := if_neg (by omega)
        rw [out, Outcome.panicked_bind]
        exact ⟨fun _ => ⟨both.1, both.2, by omega⟩, fun _ => rfl⟩
  · next neither =>
      constructor
      · intro panics
        cases panics
      · exact fun all => absurd ⟨all.1, all.2.1⟩ neither

/-- A read of bytes at hand: it gives them or panics. -/
def Direct {α : Type} (x : Read α) : Prop := ∀ err, x ≠ .error err

theorem le_direct (size : Nat) (b : Buffer) (o : Nat) : Direct (le size b o) := by
  intro err
  unfold le
  split <;> simp

theorem provided_direct {α : Type} {p : Prop} [Decidable p] {body : Read α} (direct : Direct body)
    (kept : α) : Direct (provided p body kept) := by
  intro err
  unfold provided
  split
  · exact direct err
  · simp

theorem bind_direct {α β : Type} {x : Read α} {f : α → Read β} (first : Direct x)
    (second : ∀ a, Direct (f a)) : Direct (x >>= f) := by
  intro err
  cases is : x with
  | ok a => exact second a err
  | error other => exact absurd is (first other)
  | panicked => simp

theorem readTimes_direct (b : Buffer) (extra : Nat) : Direct (readTimes b extra) :=
  bind_direct (provided_direct (le_direct 4 b 0x88) 0) fun _ =>
    bind_direct (provided_direct (le_direct 4 b 0x90) 0) fun _ =>
      bind_direct (provided_direct (le_direct 4 b 0x94) 0) fun _ err => by simp [pure]

/-- What follows the first 128 bytes of an inode. -/
theorem further_panics {α : Type} {b : Buffer} {extra flags : Nat} {next : Buffer → α} :
    (readTimes b extra >>= fun _ => readInline flags b extra >>= fun inline =>
      (pure (next inline) : Read α)) = .panicked ↔
    (12 ≤ extra ∧ b.length < 140) ∨
      (24 ≤ extra ∧ (b.length < 148 ∨ (little b 0x90 4 ≠ 0 ∧ b.length < 152))) ∨
      (has flags extFlagInlineData = true ∧ 0 < extra ∧ b.length < 128 + extra) := by
  have inline : (readInline flags b extra >>= fun inline => (pure (next inline) : Read α)) =
      .panicked ↔ readInline flags b extra = .panicked := by
    rw [bind_panics]
    constructor
    · rintro (panics | ⟨_, _, panics⟩)
      · exact panics
      · cases panics
    · exact Or.inl
  rw [← or_assoc, ← readTimes_panics, ← readInline_panics, ← inline]
  cases times : readTimes b extra with
  | ok _ => simp
  | error err => exact absurd times (readTimes_direct b extra err)
  | panicked => simp

/-- The size of an inode's further fields, as it says. -/
def extraSize (v : ExtReader.Ext) (b : Buffer) : Nat :=
  if 128 < v.inodeSize then little b 128 2 else 0

/-- An inode whose fields are not all in its own bytes, which are as many as the superblock
says. -/
def Torn (v : ExtReader.Ext) (b : Buffer) : Prop :=
  v.inodeSize = 129 ∨ (12 ≤ extraSize v b ∧ v.inodeSize < 140) ∨
    (24 ≤ extraSize v b ∧ (v.inodeSize < 148 ∨ (little b 0x90 4 ≠ 0 ∧ v.inodeSize < 152))) ∨
    (has (little b 32 4) extFlagInlineData = true ∧ 0 < extraSize v b ∧
      v.inodeSize < 128 + extraSize v b)

/-- The part of the inode that is there in every file system is read in any case. -/
theorem parseInode_panics {v : ExtReader.Ext} (large : 128 ≤ v.inodeSize) {num : Nat} {b : Buffer}
    (size : b.length = v.inodeSize) : parseInode v num b = .panicked ↔ Torn v b := by
  have block_ : slice b 40 100 = .ok ⟨60, fun i => b.byte (40 + i)⟩ := slice_ok ⟨by omega, by omega⟩
  unfold parseInode
  rw [le_ok (by omega), Outcome.ok_bind, le_ok (by omega), Outcome.ok_bind, le_ok (by omega),
    Outcome.ok_bind, le_ok (by omega), Outcome.ok_bind, le_ok (by omega), Outcome.ok_bind,
    le_ok (by omega), Outcome.ok_bind, le_ok (by omega), Outcome.ok_bind, le_ok (by omega),
    Outcome.ok_bind, block_, Outcome.ok_bind, le_ok (by omega), Outcome.ok_bind, provided_bind]
  unfold Torn extraSize
  by_cases further : 128 < v.inodeSize
  · rw [if_pos further, le_bind_panics, if_pos further, further_panics, size]
    by_cases one : v.inodeSize = 129
    · exact ⟨fun _ => .inl one, fun _ => .inl (by omega)⟩
    · have read : 128 + 2 ≤ v.inodeSize := by omega
      simp [one, read]
  · have none_ : ¬ v.inodeSize = 129 := by omega
    rw [if_neg further, if_neg further, further_panics]
    simp [none_]

theorem makePiece_ok : makeBytes itPiece = .ok ⟨itPiece, fun _ => 0⟩ := by
  have fits : (0 : Int) ≤ (itPiece : Int) ∧ (itPiece : Int) * (1 : Nat) ≤ (maxAlloc : Int) := by
    norm_num [itPiece, maxAlloc]
  rw [makeBytes, makes, if_pos fits]
  rfl

/-- An offset before the image whose piece is read all the same: the inode's place in the
piece is negative. -/
def Before (v : ExtReader.Ext) (off : Int) : Prop :=
  off.tmod itPiece < 0 ∧
    off.tmod itPiece + v.inodeSize ≤ available v.v itPiece (off - off.tmod itPiece)

theorem inodeBytes_panics {v : ExtReader.Ext} {off : Int} :
    inodeBytes v off = .panicked ↔ Before v off := by
  have place : off - (off - off.tmod itPiece) = off.tmod itPiece := by omega
  unfold inodeBytes Before
  rw [makePiece_ok, Outcome.ok_bind, readSome_volume, Outcome.ok_bind, place]
  dsimp only
  split
  · next short =>
      constructor
      · intro panics
        cases panics
      · omega
  · next long =>
      split
      · next low => exact ⟨fun _ => ⟨low, by omega⟩, fun _ => rfl⟩
      · next inside =>
          constructor
          · intro panics
            cases panics
          · exact fun both => absurd both.1 inside

theorem inodeBytes_length {v : ExtReader.Ext} {off : Int} {b : Buffer}
    (read : inodeBytes v off = .ok b) : b.length = v.inodeSize := by
  unfold inodeBytes at read
  rw [makePiece_ok, Outcome.ok_bind, readSome_volume, Outcome.ok_bind] at read
  dsimp only at read
  split at read
  · cases read
  · split at read
    · cases read
    · cases read
      rfl

theorem inodeAt_safe {v : ExtReader.Ext} (opened : Opened v) (num : Nat) :
    inodeAt v num ≠ .panicked := by
  unfold inodeAt
  split
  · simp
  · next inside =>
      have low := Nat.mod_le (v.inodesPerGroup * v.groups) (2 ^ 32)
      have group : (num - 1) / v.inodesPerGroup < v.inodeTables.length := by
        rw [opened.tables]
        exact Nat.div_lt_of_lt_mul (by omega)
      rw [List.getElem?_eq_getElem group]
      simp

/-- The place and the bytes of an inode, if it has a number of the volume, let it be read. -/
def InodeWhole (v : ExtReader.Ext) (num : Nat) : Prop :=
  ∀ off, inodeAt v num = .ok off →
    ¬ Before v off ∧ ∀ b, inodeBytes v off = .ok b → ¬ Torn v b

theorem inode_panics {v : ExtReader.Ext} (opened : Opened v) (num : Nat) :
    inode v num ≠ .panicked ↔ InodeWhole v num := by
  constructor
  · intro safe off at_
    refine ⟨fun before => safe ?_, fun b read torn => safe ?_⟩
    · rw [inode, at_, Outcome.ok_bind, inodeBytes_panics.mpr before]
      rfl
    · rw [inode, at_, Outcome.ok_bind, read, Outcome.ok_bind]
      exact (parseInode_panics opened.large (inodeBytes_length read)).mpr torn
  · intro whole panics
    rcases bind_panics.mp panics with first | ⟨off, at_, later⟩
    · exact inodeAt_safe opened num first
    · rcases bind_panics.mp later with bytes | ⟨b, read, parsed⟩
      · exact (whole off at_).1 (inodeBytes_panics.mp bytes)
      · exact (whole off at_).2 b read
          ((parseInode_panics opened.large (inodeBytes_length read)).mp parsed)

/-! Extents. -/

theorem blockSize_fits (v : ExtReader.Ext) : v.blockSize ≤ 2 ^ 16 := by
  have pow : 2 ^ v.logBS ≤ 2 ^ 6 := Nat.pow_le_pow_right (by norm_num) v.small
  calc v.blockSize = 1024 * 2 ^ v.logBS := rfl
    _ ≤ 1024 * 2 ^ 6 := Nat.mul_le_mul_left 1024 pow
    _ = 2 ^ 16 := by norm_num

theorem readBlock_meets (v : ExtReader.Ext) (blk : Nat) :
    (ExtReader.readBlock v blk).Meets fun b => b.length = v.blockSize := by
  apply (fixed_meets v.blockSize (blockSize_fits v)).bind
  intro buf empty
  exact (readSome_meets v.v.toReader buf _).weaken fun b same => same.trans empty

theorem extentEntries_meets {v : ExtReader.Ext} {child : Buffer → List Extent → Read (List Extent)}
    (children : ∀ node out, (child node out).Meets Always) {node : Buffer} (level left i : Nat)
    (inside : 12 + 12 * i ≤ node.length) (out : List Extent) :
    (ExtReader.extentEntries v child node level left i out).Meets Always := by
  induction left generalizing i out with
  | zero => exact .ok trivial
  | succ left ih =>
      rw [ExtReader.extentEntries]
      apply (slice_meets ⟨inside, Nat.le_refl _⟩).bind
      intro e length
      split
      · exact .error
      · next long =>
          have next : 12 + 12 * (i + 1) ≤ node.length := by omega
          split
          · apply (le_meets 2 e 4 (by omega)).bind
            intro l _
            apply (le_meets 2 e 6 (by omega)).bind
            intro high _
            apply (le_meets 4 e 8 (by omega)).bind
            intro low _
            apply (le_meets 4 e 0 (by omega)).bind
            intro logical _
            exact ih (i + 1) next _
          · apply (le_meets 4 e 4 (by omega)).bind
            intro low _
            apply (le_meets 2 e 8 (by omega)).bind
            intro high _
            apply (readBlock_meets v _).bind
            intro b _
            apply (children b out).bind
            intro out _
            exact ih (i + 1) next out

theorem walkExtentNode_meets (v : ExtReader.Ext) (deeper : Nat) (node : Buffer) (out : List Extent) :
    (ExtReader.walkExtentNode v deeper node out).Meets Always := by
  induction deeper generalizing node out with
  | zero => exact .error
  | succ deeper ih =>
      rw [ExtReader.walkExtentNode]
      split
      · exact .error
      · next long =>
          apply (le_meets 2 node 0 (by omega)).bind
          intro magic _
          split
          · exact .error
          · apply (le_meets 2 node 2 (by omega)).bind
            intro entries _
            apply (le_meets 2 node 6 (by omega)).bind
            intro level _
            exact extentEntries_meets (fun node out => ih node out) level entries 0 (by omega) out

theorem direct_meets (ino : ExtInode) (n : Nat) (few : n ≤ 12) : (direct ino n).Meets Always := by
  induction n with
  | zero => exact .ok trivial
  | succ n ih =>
      have sixty := ino.sixty
      apply (ih (by omega)).bind
      intro out _
      apply (le_meets 4 ino.block (n * 4) (by omega)).bind
      intro p _
      exact .ok trivial

open BlockMap.Ext (Walked)

def Walks (child : Nat → Walked → Read Walked) : Prop := ∀ p s, (child p s).Meets Always

theorem entries_meets {nblocks : Nat} {child : Nat → Walked → Read Walked} (walks : Walks child)
    {b : Buffer} (left k : Nat) (inside : (k + left) * 4 ≤ b.length) (s : Walked) :
    (entries nblocks child b left k s).Meets Always := by
  induction left generalizing k s with
  | zero => exact .ok trivial
  | succ left ih =>
      rw [entries]
      split
      · apply (le_meets 4 b (k * 4) (by omega)).bind
        intro p _
        apply (walks p s).bind
        intro s _
        exact ih (k + 1) (by omega) s
      · exact .ok trivial

theorem table_walks (v : ExtReader.Ext) (nblocks depth : Nat) {child : Nat → Walked → Read Walked}
    (walks : Walks child) : Walks (table v nblocks depth child) := by
  intro blk s
  unfold table
  split
  · exact .ok trivial
  · apply (readBlock_meets v blk).bind
    intro b length
    have whole : v.per * 4 ≤ v.blockSize := Nat.div_mul_le_self v.blockSize 4
    exact entries_meets walks v.per 0 (by omega) s

theorem walk_walks (v : ExtReader.Ext) (nblocks depth : Nat) : Walks (walk v nblocks depth) := by
  induction depth with
  | zero => exact table_walks v nblocks 0 fun _ _ => .ok trivial
  | succ depth ih => exact table_walks v nblocks (depth + 1) ih

theorem levels_meets (v : ExtReader.Ext) (nblocks : Nat) (ino : ExtInode) (left lvl : Nat)
    (few : lvl + left ≤ 3) (s : Walked) : (levels v nblocks ino left lvl s).Meets Always := by
  induction left generalizing lvl s with
  | zero => exact .ok trivial
  | succ left ih =>
      have sixty := ino.sixty
      rw [levels]
      split
      · apply (le_meets 4 ino.block ((12 + lvl) * 4) (by omega)).bind
        intro p _
        apply (walk_walks v nblocks lvl p s).bind
        intro s _
        exact ih (lvl + 1) (by omega) s
      · exact .ok trivial

theorem extents_meets (v : ExtReader.Ext) (ino : ExtInode) : (extents v ino).Meets Always := by
  unfold extents
  split
  · exact walkExtentNode_meets v 9 ino.block []
  · apply (direct_meets ino _ (Nat.min_le_left _ _)).bind
    intro out _
    apply (levels_meets v _ ino 3 0 (Nat.le_refl 3) _).bind
    intro s _
    exact .ok trivial

/-! What is read whole. -/

/-- The extents of the inode can be read. -/
def Mapped (v : ExtReader.Ext) (ino : ExtInode) : Prop := ∃ ex, extents v ino = .ok ex

def isInline (ino : ExtInode) : Prop := has ino.flags extFlagInlineData = true

theorem content_panics {v : ExtReader.Ext} {ino : ExtInode} :
    content v ino = .panicked ↔ ino.size < 0 ∧ (isInline ino ∨ Mapped v ino) := by
  unfold content
  split
  · next inline =>
      dsimp only
      split
      · next longer =>
          split
          · next negative => exact ⟨fun _ => ⟨negative, .inl inline⟩, fun _ => rfl⟩
          · next positive =>
              have inside : 0 ≤ ino.size.toNat ∧ ino.size.toNat ≤ (inlineData ino).length := by omega
              rw [slice_ok inside]
              exact ⟨fun panics => (by cases panics), fun both => absurd both.1 positive⟩
      · next shorter => exact ⟨fun panics => (by cases panics), fun both => by omega⟩
  · next other =>
      split
      · next large => exact ⟨fun panics => (by cases panics), fun both => by omega⟩
      · next small =>
          constructor
          · intro panics
            rcases bind_panics.mp panics with first | ⟨ex, mapped, later⟩
            · exact absurd first (extents_meets v ino).not_panicked
            · rcases bind_panics.mp later with make | ⟨b, _, rest⟩
              · refine ⟨?_, .inr ⟨ex, mapped⟩⟩
                by_contra positive
                have most : (maxAlloc : Int) = 2 ^ 48 := by norm_num [maxAlloc]
                exact (makeBytes_meets ino.size (by omega) (by omega)).not_panicked make
              · dsimp only at rest
                split at rest <;> cases rest
          · rintro ⟨negative, inline | ⟨ex, mapped⟩⟩
            · exact absurd inline other
            · have make : makeBytes ino.size = .panicked := by
                rw [makeBytes, makes, if_neg (by omega)]
                rfl
              rw [mapped, Outcome.ok_bind, make]
              rfl

theorem readLink_panics {v : ExtReader.Ext} {ino : ExtInode} :
    readLink v ino = .panicked ↔
      ino.size < 0 ∧ (ino.extentTree = false ∨ isInline ino ∨ Mapped v ino) := by
  have sixty := ino.sixty
  unfold readLink
  split
  · next fast =>
      split
      · next negative => exact ⟨fun _ => ⟨negative, .inl fast.2⟩, fun _ => rfl⟩
      · next positive =>
          have inside : 0 ≤ ino.size.toNat ∧ ino.size.toNat ≤ ino.block.length := by omega
          rw [slice_ok inside]
          exact ⟨fun panics => (by cases panics), fun both => absurd both.1 positive⟩
  · next slow =>
      rw [content_panics]
      constructor
      · exact fun both => ⟨both.1, .inr both.2⟩
      · rintro ⟨negative, classic | rest⟩
        · exact absurd ⟨by omega, classic⟩ slow
        · exact ⟨negative, rest⟩

theorem openInode_panics {v : ExtReader.Ext} {ino : ExtInode} :
    openInode v ino = .panicked ↔ isInline ino ∧ ino.size < 0 := by
  unfold openInode
  split
  · next inline =>
      have whole := @content_panics v ino
      cases read : content v ino with
      | ok d =>
          rw [read] at whole
          exact ⟨fun panics => (by cases panics), fun both => (by
            cases whole.mpr ⟨both.2, .inl inline⟩)⟩
      | error err =>
          rw [read] at whole
          exact ⟨fun panics => (by cases panics), fun both => (by
            cases whole.mpr ⟨both.2, .inl inline⟩)⟩
      | panicked => exact ⟨fun _ => ⟨inline, (whole.mp read).1⟩, fun _ => rfl⟩
  · next other =>
      constructor
      · intro panics
        rcases bind_panics.mp panics with first | ⟨ex, _, rest⟩
        · exact absurd first (extents_meets v ino).not_panicked
        · cases rest
      · exact fun both => absurd both.1 other

/-! What is opened. -/

/-- Each turn of the loop goes on and stays inside what is wanted, whatever the extents are. -/
theorem runAt_goes {f : ExtFile} (blocks : 0 < f.blockSize) (pos left : Nat) (more : 0 < left) :
    0 < (f.runAt pos left).2 ∧ (f.runAt pos left).2 ≤ left := by
  have inn := Nat.mod_lt pos blocks
  have rest {k : Nat} (some_ : 0 < k) : 0 < k * f.blockSize - pos % f.blockSize :=
    Nat.sub_pos_of_lt (Nat.lt_of_lt_of_le inn (Nat.le_mul_of_pos_left f.blockSize some_))
  unfold ExtFile.runAt
  dsimp only
  cases found : f.ex[Search (f.endsBehind (pos / f.blockSize)) f.ex.length]? with
  | none => exact ⟨more, Nat.le_refl left⟩
  | some e =>
      obtain ⟨within, _⟩ := List.getElem?_eq_some_iff.mp found
      have ends := search_true within
      rw [ExtFile.endsBehind, found] at ends
      have ahead : pos / f.blockSize < e.logical + e.length := of_decide_eq_true ends
      dsimp only
      split
      · exact ⟨Nat.lt_min.mpr ⟨rest (by omega), more⟩, Nat.min_le_right _ _⟩
      · split
        · exact ⟨Nat.lt_min.mpr ⟨rest (by omega), more⟩, Nat.min_le_right _ _⟩
        · exact ⟨Nat.lt_min.mpr ⟨rest (by omega), more⟩, Nat.min_le_right _ _⟩

theorem turn_goes {f : ExtFile} (blocks : 0 < f.blockSize) (off want : Nat) :
    Fills (fun _ _ => True) want (f.turn off want) := by
  intro n buf more
  have spec := runAt_goes blocks (off + n) (want - n) (by omega)
  unfold ExtFile.turn
  cases run : f.runAt (off + n) (want - n) with
  | mk disk run_ =>
      rw [run] at spec
      obtain ⟨progress, inside⟩ := spec
      dsimp only at progress inside
      have inside_ : n + run_ ≤ want := by omega
      cases disk with
      | none =>
          refine ⟨_, rfl, progress, inside_, rfl, fun _ _ _ => trivial, ?_⟩
          exact fun i out => spliced_outside out
      | some disk =>
          have read := readInto_ok f.v buf n run_ (int64 disk)
          generalize f.v.fill ⟨run_, fun k => buf.byte (n + k)⟩ (int64 disk) = piece at read
          refine ⟨(spliced buf n run_ piece, run_), ?_, progress, inside_, rfl, fun _ _ _ => trivial, ?_⟩
          · dsimp only
            rw [read]
            rfl
          · exact fun i out => spliced_outside out

/-- Every read of the file ends, with the bytes wanted or at the file's end. -/
def Steady : FileReader → Prop
  | .extFile f => (∀ pos left, 0 < left → 0 < (f.runAt pos left).2 ∧ (f.runAt pos left).2 ≤ left) ∧
      ∀ p off, ReadsExactly (fun _ _ => True) f.size p off (f.readAt p off)
  | .bytesFile b => ∀ p off, readBytes b p off ≠ .panicked

theorem extFile_steady (v : ExtReader.Ext) (ino : ExtInode) (ex : List Extent) :
    Steady (.extFile (extFile v ino ex)) := by
  have blocks : 0 < (extFile v ino ex).blockSize := Nat.mul_pos (by norm_num) (Nat.two_pow_pos v.logBS)
  refine ⟨runAt_goes blocks, fun p off => ?_⟩
  unfold ExtFile.readAt
  split
  · next past => exact reads_past_end past
  · exact reads_of_fills (by omega) (fun n => decide_eq_true_iff) (turn_goes blocks off _) (Nat.le_refl _)

theorem bytesFile_steady (b : Buffer) : Steady (.bytesFile b) := by
  intro p off
  unfold readBytes
  split
  · simp
  · rw [slice_ok ⟨by omega, Nat.le_refl _⟩, Outcome.ok_bind]
    simp [pure]

theorem opened_steady {v : ExtReader.Ext} {ino : ExtInode} {f : FileReader}
    (opens : openInode v ino = .ok f) : Steady f := by
  unfold openInode at opens
  split at opens
  · split at opens <;> cases opens <;> exact bytesFile_steady _
  · obtain ⟨ex, _, same⟩ := Outcome.bind_ok opens
    cases same
    exact extFile_steady v ino ex

/-! A folder's names. -/

/-- By induction on the turns: each goes on, to the next entry or the next block. -/
theorem parseDir_meets {v : ExtReader.Ext} {b : Buffer} {inline : Bool} (turns o : Nat)
    (some_ : 0 < turns) (enough : b.length < turns + o) (out : List ExtDirent) :
    (parseDir v b inline turns o out).Meets Always := by
  induction turns generalizing o out with
  | zero => exact absurd some_ (Nat.lt_irrefl 0)
  | succ turns ih =>
      rw [parseDir]
      split
      · next inside =>
          apply (le_meets 4 b o (by omega)).bind
          intro ino _
          apply (le_meets 2 b (o + 4) (by omega)).bind
          intro recLen _
          apply (le_meets 1 b (o + 6) (by omega)).bind
          intro low _
          have high_ : (provided (has v.incompat 0x2 = false) (le 1 b (o + 7)) 0).Meets Always :=
            provided_meets _ _ 0 (fun _ => (le_meets 1 b (o + 7) (by omega)).weaken
              fun _ _ => trivial) trivial
          apply high_.bind
          intro high _
          dsimp only
          split
          · split
            · exact .ok trivial
            · next goes => exact ih _ (by omega) (by omega) out
          · next entry =>
              split
              · next named =>
                  apply (slice_meets ⟨Nat.le_add_right _ _, named.2.2⟩).bind
                  intro name _
                  exact ih _ (by omega) (by omega) _
              · exact ih _ (by omega) (by omega) out
      · exact .ok trivial

theorem parseInode_num {v : ExtReader.Ext} {num : Nat} {b : Buffer} {ino : ExtInode}
    (parsed : parseInode v num b = .ok ino) : ino.num = num := by
  unfold parseInode at parsed
  repeat (obtain ⟨_, _, parsed⟩ := Outcome.bind_ok parsed)
  cases parsed
  rfl

theorem inode_num {v : ExtReader.Ext} {num : Nat} {ino : ExtInode}
    (found : inode v num = .ok ino) : ino.num = num := by
  obtain ⟨_, _, later⟩ := Outcome.bind_ok found
  obtain ⟨_, _, parsed⟩ := Outcome.bind_ok later
  exact parseInode_num parsed

end ProxmoxBackup.ExtReaderSafe
