import ProxmoxBackup.BoundedReads

/-! The security descriptors of an NTFS volume, loadSDS of gui/imagefs/ntfs.go: the
stream $SDS of $Secure is blocks of 256 KiB, each followed by a mirror copy; an
entry is hash, id, its own offset in the stream, length and the descriptor. At
most 1 GiB is read, so that no offset in the buffer wraps around. -/

namespace ProxmoxBackup.SecurityDescriptors

open GoValues BoundedReads LittleEndian Slices

def blockSize : Nat := 256 * 1024

structure Entry where
  id : Nat
  at_ : Int
  length : Nat

/-- The map from ids to descriptors, in the order they came in. -/
abbrev Sds := List (Nat × List UInt8)

def entryAt (buf : List UInt8) (o : Nat) : Outcome Empty Entry := do
  let id ← readNumber buf (o + 4) 4
  let at_ ← readNumber buf (o + 8) 8
  let length ← readNumber buf (o + 16) 4
  pure ⟨id, int64 at_, length⟩

/-- A mirror, or the slack behind a block's last entry. -/
def endsBlock (buf : List UInt8) (o : Nat) (e : Entry) : Prop :=
  e.at_ ≠ o ∨ e.length < 20 + 20 ∨ o + e.length > buf.length

instance (buf : List UInt8) (o : Nat) (e : Entry) : Decidable (endsBlock buf o e) :=
  inferInstanceAs (Decidable (_ ∨ _))

/-- The first descriptor of an id stays. -/
def noteEntry (buf : List UInt8) (o : Nat) (sds : Sds) (e : Entry) : Outcome Empty Sds :=
  if sds.any (·.1 = e.id) then .ok sds
  else do
    let bytes ← cut buf (o + 20) (o + e.length)
    pure (sds ++ [(e.id, bytes)])

/-- Where the next real block starts: two blocks on. -/
def skipMirror (o : Nat) : Nat := (o / blockSize + 2) * blockSize

/-- Behind an entry: an entry that ends a block skips its mirror. -/
def nextEntry (o length : Nat) : Nat :=
  let next := o + (length + 15) / 16 * 16
  if next % blockSize = 0 then next + blockSize else next

theorem skipMirror_grows (o : Nat) : o < skipMirror o := by
  unfold skipMirror blockSize
  omega

theorem nextEntry_grows (o length : Nat) (long : 20 + 20 ≤ length) : o < nextEntry o length := by
  simp only [nextEntry]
  split <;> omega

/-- The loop of loadSDS. -/
def walk (buf : List UInt8) (o : Nat) (sds : Sds) : Outcome Empty Sds :=
  if _ : o + 20 ≤ buf.length then
    entryAt buf o >>= fun e =>
      if _ : endsBlock buf o e then walk buf (skipMirror o) sds
      else noteEntry buf o sds e >>= fun sds => walk buf (nextEntry o e.length) sds
  else .ok sds
termination_by buf.length - o
decreasing_by
  · have grows := skipMirror_grows o
    omega
  · have long : 20 + 20 ≤ e.length := 
      Nat.le_of_not_lt fun short => ‹¬ endsBlock buf o e› (.inr (.inl short))
    have grows := nextEntry_grows o e.length long
    omega

/-- loadSDS, of the stream and of how much of it the read gave. -/
def loadSDS (stream : List UInt8) (read : Nat) : Outcome Empty Sds :=
  if stream.length = 0 ∨ stream.length > 2 ^ 30 then .ok [] else walk (stream.take read) 0 []

def securityDescriptor (sds : Sds) (id : Nat) : Option (List UInt8) :=
  (sds.find? (·.1 = id)).map (·.2)

/-! No bytes make the walk read outside them. -/

theorem entryAt_meets {buf : List UInt8} {o : Nat} (inside : o + 20 ≤ buf.length) :
    (entryAt buf o).Meets (fun _ => True) := by
  refine (readNumber_meets (by omega)).bind fun id _ => ?_
  refine (readNumber_meets (by omega)).bind fun at_ _ => ?_
  refine (readNumber_meets (by omega)).bind fun length _ => ?_
  exact .ok trivial

theorem noteEntry_meets {buf : List UInt8} {o : Nat} (sds : Sds) {e : Entry}
    (goes : ¬ endsBlock buf o e) : (noteEntry buf o sds e).Meets (fun _ => True) := by
  unfold endsBlock at goes
  unfold noteEntry
  split
  · exact .ok trivial
  · refine (cut_meets (by omega) (by omega)).bind fun bytes _ => ?_
    exact .ok trivial

theorem walk_meets (buf : List UInt8) (o : Nat) (sds : Sds) :
    (walk buf o sds).Meets (fun _ => True) := by
  induction o, sds using walk.induct buf with
  | case1 o sds inside skip step =>
      rw [walk, dif_pos inside]
      refine (entryAt_meets inside).bind fun e _ => ?_
      by_cases ended : endsBlock buf o e
      · rw [dif_pos ended]
        exact skip
      · rw [dif_neg ended]
        refine (noteEntry_meets sds ended).bind fun after _ => ?_
        exact step e ended after
  | case2 o sds outside =>
      rw [walk, dif_neg outside]
      exact .ok trivial

/-! The stream NTFS lays out. -/

/-- A descriptor, self-relative: it starts with its own header of 20 bytes. -/
structure Descriptor where
  hash : Nat
  id : Nat
  bytes : List UInt8
  hash_fits : hash < 256 ^ 4
  id_fits : id < 256 ^ 4
  header : 20 ≤ bytes.length

def Descriptor.size (d : Descriptor) : Nat := 20 + d.bytes.length

/-- What the descriptor takes of its block. -/
def Descriptor.room (d : Descriptor) : Nat := (d.size + 15) / 16 * 16

def zeros (n : Nat) : List UInt8 := List.replicate n 0

def entryBytes (o : Nat) (d : Descriptor) : List UInt8 :=
  encode 4 d.hash ++ (encode 4 d.id ++ (encode 8 o ++ (encode 4 d.size ++ d.bytes)))

def packed : Nat → List Descriptor → List UInt8
  | _, [] => []
  | o, d :: rest => entryBytes o d ++ (zeros (d.room - d.size) ++ packed (o + d.room) rest)

def used : List Descriptor → Nat
  | [] => 0
  | d :: rest => d.room + used rest

/-- No entry crosses the end of its block. -/
structure Block where
  entries : List Descriptor
  fits : used entries ≤ blockSize

def slack (b : Block) : List UInt8 := zeros (blockSize - used b.entries)

def blockBytes (o : Nat) (b : Block) : List UInt8 := packed o b.entries ++ slack b

/-- Whole blocks, each followed by its mirror. -/
def layout : Nat → List Block → List UInt8
  | _, [] => []
  | o, b :: rest => blockBytes o b ++ (blockBytes o b ++ layout (o + 2 * blockSize) rest)

/-- The stream of whole blocks and a last one, whose slack and mirror are kept as far
as the stream goes. -/
def stream (blocks : List Block) (last : Block) (kept : Nat) : List UInt8 :=
  let o := 2 * blockSize * blocks.length
  layout 0 blocks ++ (packed o last.entries ++ (slack last ++ blockBytes o last).take kept)

def descriptors (blocks : List Block) (last : Block) : List Descriptor :=
  blocks.flatMap (·.entries) ++ last.entries

/-! The walk over one block. -/

def add (sds : Sds) (d : Descriptor) : Sds :=
  if sds.any (·.1 = d.id) then sds else sds ++ [(d.id, d.bytes)]

theorem room_size (d : Descriptor) : d.size ≤ d.room ∧ d.room % 16 = 0 ∧ 48 ≤ d.room := by
  have header := d.header
  unfold Descriptor.room Descriptor.size
  omega

@[simp] theorem entryBytes_length (o : Nat) (d : Descriptor) : (entryBytes o d).length = d.size := by
  simp [entryBytes, Descriptor.size]
  omega

@[simp] theorem zeros_length (n : Nat) : (zeros n).length = n := List.length_replicate

@[simp] theorem packed_length (o : Nat) (ds : List Descriptor) : (packed o ds).length = used ds := by
  induction ds generalizing o with
  | nil => rfl
  | cons d rest ih =>
      have room := (room_size d).1
      simp only [packed, used, List.length_append, entryBytes_length, zeros_length, ih]
      omega

@[simp] theorem blockBytes_length (o : Nat) (b : Block) : (blockBytes o b).length = blockSize := by
  have fits := b.fits
  simp only [blockBytes, slack, List.length_append, packed_length, zeros_length]
  omega

theorem layout_length (o : Nat) (blocks : List Block) :
    (layout o blocks).length = 2 * blockSize * blocks.length := by
  induction blocks generalizing o with
  | nil => rfl
  | cons b rest ih =>
      simp only [layout, List.length_append, blockBytes_length, ih, List.length_cons]
      ring

/-- The header of an entry is read as it was written. -/
theorem entryAt_written (front back : List UInt8) (d : Descriptor) (small : front.length < 2 ^ 63)
    (short : d.size < 256 ^ 4) :
    entryAt (front ++ (entryBytes front.length d ++ back)) front.length =
      .ok ⟨d.id, front.length, d.size⟩ := by
  have id : (readNumber (front ++ (entryBytes front.length d ++ back)) (front.length + 4) 4 :
      Outcome Empty Nat) = .ok d.id := by
    rw [readNumber_behind _ _ _ (by omega), entryBytes, List.append_assoc,
      readNumber_behind _ _ _ (by simp), encode_length, List.append_assoc]
    simpa using readNumber_first _ d.id_fits
  have at_ : (readNumber (front ++ (entryBytes front.length d ++ back)) (front.length + 8) 8 :
      Outcome Empty Nat) = .ok front.length := by
    rw [readNumber_behind _ _ _ (by omega), entryBytes, List.append_assoc,
      readNumber_behind _ _ _ (by simp), encode_length, List.append_assoc,
      readNumber_behind _ _ _ (by simp), encode_length, List.append_assoc]
    simpa using readNumber_first _ (show front.length < 256 ^ 8 by omega)
  have length : (readNumber (front ++ (entryBytes front.length d ++ back)) (front.length + 16) 4 :
      Outcome Empty Nat) = .ok d.size := by
    rw [readNumber_behind _ _ _ (by omega), entryBytes, List.append_assoc,
      readNumber_behind _ _ _ (by simp), encode_length, List.append_assoc,
      readNumber_behind _ _ _ (by simp), encode_length, List.append_assoc,
      readNumber_behind _ _ _ (by simp), encode_length, List.append_assoc]
    simpa using readNumber_first _ short
  have same : int64 front.length = front.length := int64_same _ (by omega) (by omega)
  unfold entryAt
  rw [id, Outcome.ok_bind, at_, Outcome.ok_bind, length, Outcome.ok_bind, same]
  rfl

theorem cut_written (front back : List UInt8) (d : Descriptor) :
    (cut (front ++ (entryBytes front.length d ++ back)) (front.length + 20)
      (front.length + d.size) : Outcome Empty (List UInt8)) = .ok d.bytes := by
  have parts : entryBytes front.length d ++ back = (encode 4 d.hash ++ (encode 4 d.id ++
      (encode 8 front.length ++ encode 4 d.size))) ++ (d.bytes ++ back) := by
    simp [entryBytes]
  have head : (encode 4 d.hash ++ (encode 4 d.id ++
      (encode 8 front.length ++ encode 4 d.size))).length = 20 := by simp
  have order : 20 ≤ d.size := by
    unfold Descriptor.size
    omega
  rw [cut_behind _ _ (by omega) (by omega), parts, cut_behind _ _ (by rw [head]; omega) (by omega),
    head, Nat.add_sub_cancel_left, Nat.add_sub_cancel_left, Nat.sub_self,
    show d.size - 20 = d.bytes.length from Nat.add_sub_cancel_left ..]
  exact cut_first _ _

/-- At an entry the walk notes it and goes on behind it. -/
theorem walk_entry (front back : List UInt8) (d : Descriptor) (sds : Sds)
    (small : front.length < 2 ^ 63) (short : d.size < 256 ^ 4) :
    walk (front ++ (entryBytes front.length d ++ back)) front.length sds =
      walk (front ++ (entryBytes front.length d ++ back)) (nextEntry front.length d.size)
        (add sds d) := by
  have size : d.size = 20 + d.bytes.length := rfl
  have header := d.header
  have length : (front ++ (entryBytes front.length d ++ back)).length =
      front.length + (d.size + back.length) := by simp
  have goes : ¬ endsBlock (front ++ (entryBytes front.length d ++ back)) front.length
      ⟨d.id, front.length, d.size⟩ := by
    unfold endsBlock
    rw [length]
    simp only [ne_eq, not_true_eq_false, false_or]
    omega
  have noted : noteEntry (front ++ (entryBytes front.length d ++ back)) front.length sds
      ⟨d.id, front.length, d.size⟩ = .ok (add sds d) := by
    unfold noteEntry add
    split
    · rfl
    · rw [cut_written]
      rfl
  rw [walk, dif_pos (by rw [length]; omega), entryAt_written front back d small short,
    Outcome.ok_bind, dif_neg goes, noted, Outcome.ok_bind]

/-- The end of a block is left for the block behind its mirror. -/
def atEnd (start o : Nat) : Nat := if o = start + blockSize then o + blockSize else o

theorem nextEntry_atEnd {start o length : Nat} (block : start % blockSize = 0) (low : start ≤ o)
    (long : 0 < length) (high : o + (length + 15) / 16 * 16 ≤ start + blockSize) :
    nextEntry o length = atEnd start (o + (length + 15) / 16 * 16) := by
  have last : (o + (length + 15) / 16 * 16) % blockSize = 0 ↔
      o + (length + 15) / 16 * 16 = start + blockSize := by
    unfold blockSize at block high ⊢
    omega
  simp only [nextEntry, atEnd, last]

theorem walk_packed (start : Nat) (block : start % blockSize = 0) (small : start + blockSize < 2 ^ 63)
    (ds : List Descriptor) (front back : List UInt8) (low : start ≤ front.length)
    (high : front.length + used ds ≤ start + blockSize) (sds : Sds) :
    walk (front ++ (packed front.length ds ++ back)) (atEnd start front.length) sds =
      walk (front ++ (packed front.length ds ++ back)) (atEnd start (front.length + used ds))
        (ds.foldl add sds) := by
  induction ds generalizing front sds with
  | nil => rfl
  | cons d rest ih =>
      obtain ⟨inside, _, room⟩ := room_size d
      simp only [used] at high ⊢
      have bound : blockSize < 256 ^ 4 := by decide
      have positive : 0 < d.size := by unfold Descriptor.size; omega
      have here : atEnd start front.length = front.length := if_neg (by omega)
      -- the rest of the block stands behind this entry and its padding
      have parts : front ++ (packed front.length (d :: rest) ++ back) =
          front ++ (entryBytes front.length d ++ (zeros (d.room - d.size) ++
            (packed (front.length + d.room) rest ++ back))) := by
        simp [packed]
      have behind : front ++ (entryBytes front.length d ++ (zeros (d.room - d.size) ++
            (packed (front.length + d.room) rest ++ back))) =
          (front ++ (entryBytes front.length d ++ zeros (d.room - d.size))) ++
            (packed (front.length + d.room) rest ++ back) := by simp
      have length : (front ++ (entryBytes front.length d ++ zeros (d.room - d.size))).length =
          front.length + d.room := by
        simp only [List.length_append, entryBytes_length, zeros_length]
        omega
      have later := ih (front ++ (entryBytes front.length d ++ zeros (d.room - d.size)))
        (by omega) (by omega) (add sds d)
      rw [length] at later
      rw [here, parts, walk_entry front _ d sds (by omega) (by omega),
        nextEntry_atEnd block low positive (show front.length + d.room ≤ _ by omega), behind]
      exact later.trans (by rw [Nat.add_assoc]; rfl)

/-- Slack is zeros as far as the stream goes. -/
def Slack (back : List UInt8) (n : Nat) : Prop :=
  ∀ off width, off + width ≤ n → off + width ≤ back.length → slice back off width = zeros width

theorem slack_take (n kept : Nat) (more : List UInt8) : Slack ((zeros n ++ more).take kept) n := by
  intro off width low high
  rw [List.length_take] at high
  have taken : slice ((zeros n ++ more).take kept) off width = slice (zeros n ++ more) off width := by
    rw [slice, List.drop_take, List.take_take, Nat.min_eq_left (by omega), slice]
  rw [taken, slice_before _ _ (by rw [zeros_length]; exact low)]
  exact slice_zeros low

theorem skipMirror_inside {start o : Nat} (block : start % blockSize = 0) (low : start ≤ o)
    (high : o < start + blockSize) : skipMirror o = start + 2 * blockSize := by
  unfold skipMirror
  unfold blockSize at block high ⊢
  omega

/-- From a block's slack the walk goes on at the next real block. -/
theorem walk_slack (start : Nat) (block : start % blockSize = 0) (front back : List UInt8)
    (low : start ≤ front.length) (high : front.length ≤ start + blockSize)
    (aligned : front.length % 16 = 0) (zero : Slack back (start + blockSize - front.length))
    (sds : Sds) :
    walk (front ++ back) (atEnd start front.length) sds =
      walk (front ++ back) (start + 2 * blockSize) sds := by
  have size : blockSize = 262144 := rfl
  by_cases last : front.length = start + blockSize
  · have next : atEnd start front.length = start + 2 * blockSize := by
      rw [atEnd, if_pos last]
      omega
    rw [next]
  · have here : atEnd start front.length = front.length := if_neg last
    rw [here]
    by_cases inside : front.length + 20 ≤ (front ++ back).length
    · have within : 20 ≤ back.length := by
        rw [List.length_append] at inside
        omega
      have numbers (off width : Nat) (fits : off + width ≤ 20) :
          (readNumber (front ++ back) (front.length + off) width : Outcome Empty Nat) =
            .ok (decode (slice back off width)) := by
        rw [readNumber_behind _ _ _ (by omega), Nat.add_sub_cancel_left]
        exact readNumber_inside (by omega)
      have entry : entryAt (front ++ back) front.length =
          .ok ⟨decode (slice back 4 4), int64 (decode (slice back 8 8)),
            decode (slice back 16 4)⟩ := by
        unfold entryAt
        rw [numbers 4 4 (by omega), Outcome.ok_bind, numbers 8 8 (by omega), Outcome.ok_bind,
          numbers 16 4 (by omega), Outcome.ok_bind]
        rfl
      have room : 16 ≤ start + blockSize - front.length := by
        unfold blockSize at *
        omega
      have at_ : int64 (decode (slice back 8 8)) = 0 := by
        rw [zero 8 8 (by omega) (by omega), zeros, decode_zeros]
        rfl
      have ends : endsBlock (front ++ back) front.length ⟨decode (slice back 4 4),
          int64 (decode (slice back 8 8)), decode (slice back 16 4)⟩ := by
        by_cases first : front.length = 0
        · refine .inr (.inl ?_)
          show decode (slice back 16 4) < 20 + 20
          rw [zero 16 4 (by omega) (by omega), zeros, decode_zeros]
          omega
        · refine .inl ?_
          show int64 (decode (slice back 8 8)) ≠ front.length
          rw [at_]
          omega
      have next := skipMirror_inside block low (by omega : front.length < start + blockSize)
      rw [walk, dif_pos inside, entry, Outcome.ok_bind, dif_pos ends, next]
    · rw [walk, dif_neg inside, walk, dif_neg (by omega)]

theorem used_aligned (ds : List Descriptor) : used ds % 16 = 0 := by
  induction ds with
  | nil => rfl
  | cons d rest ih =>
      have room := (room_size d).2.1
      simp only [used]
      omega

/-- One block: its entries, then what is left of it and its mirror. -/
theorem walk_block (b : Block) (front back : List UInt8) (block : front.length % blockSize = 0)
    (small : front.length + blockSize < 2 ^ 63)
    (zero : Slack back (blockSize - used b.entries)) (sds : Sds) :
    walk (front ++ (packed front.length b.entries ++ back)) front.length sds =
      walk (front ++ (packed front.length b.entries ++ back)) (front.length + 2 * blockSize)
        (b.entries.foldl add sds) := by
  have fits := b.fits
  have aligned := used_aligned b.entries
  have start : atEnd front.length front.length = front.length := if_neg (by unfold blockSize; omega)
  have entries := walk_packed front.length block small b.entries front back (Nat.le_refl _)
    (by omega) sds
  have length : (front ++ packed front.length b.entries).length =
      front.length + used b.entries := by simp
  have left := walk_slack front.length block (front ++ packed front.length b.entries) back
    (by omega) (by omega) (by unfold blockSize at *; omega)
    (by rw [length, Nat.add_sub_add_left]; exact zero) (b.entries.foldl add sds)
  rw [start] at entries
  rw [length, List.append_assoc] at left
  rw [entries, left]

theorem walk_layout (blocks : List Block) (front back : List UInt8)
    (block : front.length % blockSize = 0)
    (small : front.length + 2 * blockSize * blocks.length < 2 ^ 63) (sds : Sds) :
    walk (front ++ (layout front.length blocks ++ back)) front.length sds =
      walk (front ++ (layout front.length blocks ++ back))
        (front.length + 2 * blockSize * blocks.length)
        ((blocks.flatMap (·.entries)).foldl add sds) := by
  induction blocks generalizing front sds with
  | nil => rfl
  | cons b rest ih =>
      simp only [List.length_cons] at small ⊢
      have size : blockSize = 262144 := rfl
      rw [Nat.mul_succ] at small ⊢
      have parts : front ++ (layout front.length (b :: rest) ++ back) =
          front ++ (packed front.length b.entries ++ (slack b ++ (blockBytes front.length b ++
            (layout (front.length + 2 * blockSize) rest ++ back)))) := by
        simp [layout, blockBytes]
      have behind : front ++ (packed front.length b.entries ++ (slack b ++
            (blockBytes front.length b ++ (layout (front.length + 2 * blockSize) rest ++ back)))) =
          (front ++ (blockBytes front.length b ++ blockBytes front.length b)) ++
            (layout (front.length + 2 * blockSize) rest ++ back) := by
        simp [blockBytes]
      have length : (front ++ (blockBytes front.length b ++ blockBytes front.length b)).length =
          front.length + 2 * blockSize := by
        simp only [List.length_append, blockBytes_length]
        omega
      have zero : Slack (slack b ++ (blockBytes front.length b ++
          (layout (front.length + 2 * blockSize) rest ++ back))) (blockSize - used b.entries) := by
        have all := slack_take (blockSize - used b.entries) (slack b ++ (blockBytes front.length b ++
          (layout (front.length + 2 * blockSize) rest ++ back))).length (blockBytes front.length b ++
          (layout (front.length + 2 * blockSize) rest ++ back))
        rwa [← slack, List.take_length] at all
      have later := ih (front ++ (blockBytes front.length b ++ blockBytes front.length b))
        (by rw [length, Nat.add_mul_mod_self_right]; exact block) (by omega)
        (b.entries.foldl add sds)
      rw [length] at later
      rw [parts, walk_block b front _ block (by omega) zero, behind, later, List.flatMap_cons,
        List.foldl_append, Nat.add_assoc, Nat.add_comm (2 * blockSize)]

/-! What the map comes to. -/

theorem add_found (sds : Sds) (d : Descriptor) (id : Nat) :
    securityDescriptor (add sds d) id =
      (securityDescriptor sds id).or (if d.id = id then some d.bytes else none) := by
  unfold add securityDescriptor
  by_cases known : sds.any (·.1 = d.id)
  · rw [if_pos known]
    by_cases same : d.id = id
    · -- the id is there already, so its first descriptor stays
      have there : (sds.find? (·.1 = id)).isSome := by
        rw [List.find?_isSome]
        obtain ⟨e, listed, own⟩ := List.any_eq_true.mp known
        exact ⟨e, listed, by simpa [same] using own⟩
      obtain ⟨e, found⟩ := Option.isSome_iff_exists.mp there
      rw [found]
      rfl
    · rw [if_neg same, Option.or_none]
  · rw [if_neg known, List.find?_append]
    cases found : sds.find? (·.1 = id) with
    | some e => rfl
    | none =>
        by_cases same : d.id = id
        · simp [same]
        · simp [same]

theorem adds_found (ds : List Descriptor) (sds : Sds) (id : Nat) :
    securityDescriptor (ds.foldl add sds) id =
      (securityDescriptor sds id).or ((ds.find? (·.id = id)).map (·.bytes)) := by
  induction ds generalizing sds with
  | nil => simp
  | cons d rest ih =>
      rw [List.foldl_cons, ih, add_found, Option.or_assoc]
      congr 1
      by_cases same : d.id = id
      · simp [same]
      · simp [same]

theorem stream_length (blocks : List Block) (last : Block) (kept : Nat) :
    2 * blockSize * blocks.length ≤ (stream blocks last kept).length ∧
      (stream blocks last kept).length ≤ 2 * blockSize * blocks.length + 2 * blockSize := by
  have fits := last.fits
  simp only [stream, List.length_append, layout_length, packed_length, List.length_take,
    blockBytes_length, slack, zeros_length]
  omega

theorem walk_ends (buf : List UInt8) : ∃ sds, walk buf 0 [] = .ok sds := by
  cases ran : walk buf 0 [] with
  | ok sds => exact ⟨sds, rfl⟩
  | error err => cases err
  | panicked => exact absurd ran (walk_meets buf 0 []).not_panicked

/-- The walk over a stream laid out as NTFS does. -/
theorem walk_stream (blocks : List Block) (last : Block) (kept : Nat)
    (small : (stream blocks last kept).length < 2 ^ 62) :
    walk (stream blocks last kept) 0 [] = .ok ((descriptors blocks last).foldl add []) := by
  have size : blockSize = 262144 := rfl
  obtain ⟨low, high⟩ := stream_length blocks last kept
  have whole := walk_layout blocks [] (packed (2 * blockSize * blocks.length) last.entries ++
    (slack last ++ blockBytes (2 * blockSize * blocks.length) last).take kept) rfl
    (by simp only [List.length_nil]; omega) []
  have length := layout_length 0 blocks
  have ending := walk_block last (layout 0 blocks)
    ((slack last ++ blockBytes (2 * blockSize * blocks.length) last).take kept)
    (by rw [length, size]; omega) (by omega) (slack_take _ kept _)
    ((blocks.flatMap (·.entries)).foldl add [])
  rw [length] at ending
  rw [List.length_nil, Nat.zero_add, List.nil_append] at whole
  have past : ¬ 2 * blockSize * blocks.length + 2 * blockSize + 20 ≤
      (layout 0 blocks ++ (packed (2 * blockSize * blocks.length) last.entries ++
        (slack last ++ blockBytes (2 * blockSize * blocks.length) last).take kept)).length := by
    have whole : (stream blocks last kept).length =
      (layout 0 blocks ++ (packed (2 * blockSize * blocks.length) last.entries ++
        (slack last ++ blockBytes (2 * blockSize * blocks.length) last).take kept)).length := rfl
    omega
  show walk (layout 0 blocks ++ _) 0 [] = _
  rw [whole, ending, walk, dif_neg past, descriptors, List.foldl_append]

/-- The walk maps each id to the bytes of its first descriptor and no others, in a
stream of up to 1 GiB as loadSDS reads it; and no bytes make it read outside them. -/
theorem every_descriptor_found (blocks : List Block) (last : Block) (kept : Nat)
    (small : (stream blocks last kept).length < 2 ^ 62) :
    (∃ sds, walk (stream blocks last kept) 0 [] = .ok sds ∧
      (∀ id, securityDescriptor sds id =
        ((descriptors blocks last).find? (·.id = id)).map (·.bytes)) ∧
      ((stream blocks last kept).length ≤ 2 ^ 30 →
        loadSDS (stream blocks last kept) (stream blocks last kept).length = .ok sds)) ∧
      ∀ buf, (∃ sds, walk buf 0 [] = .ok sds) ∧ ∀ read, ∃ sds, loadSDS buf read = .ok sds := by
  constructor
  · have walked := walk_stream blocks last kept small
    refine ⟨_, walked, fun id => ?_, fun read => ?_⟩
    · rw [adds_found]
      rfl
    · unfold loadSDS
      split
      · next outside =>
          have nothing : stream blocks last kept = [] := by
            rcases outside with empty | long
            · exact List.eq_nil_of_length_eq_zero empty
            · omega
          rw [nothing, walk, dif_neg (by simp)] at walked
          exact walked
      · rw [List.take_length]
        exact walked
  · refine fun buf => ⟨walk_ends buf, fun read => ?_⟩
    unfold loadSDS
    split
    · exact ⟨[], rfl⟩
    · exact walk_ends _

/-- The descriptors of a new volume: the second id is noted twice. -/
def newVolume : Block where
  entries :=
    [⟨7, 256, List.replicate 20 1, by decide, by decide, by decide⟩,
      ⟨8, 257, List.replicate 23 2, by decide, by decide, by decide⟩,
      ⟨9, 257, List.replicate 40 3, by decide, by decide, by decide⟩]
  fits := by decide

theorem new_volume_found :
    ∃ sds, walk (stream [] newVolume 64) 0 [] = .ok sds ∧
      securityDescriptor sds 257 = some (List.replicate 23 2) ∧
      securityDescriptor sds 0 = none := by
  have short := (stream_length [] newVolume 64).2
  have size : blockSize = 262144 := rfl
  obtain ⟨⟨sds, walked, found, _⟩, _⟩ := every_descriptor_found [] newVolume 64 (by
    rw [List.length_nil, Nat.mul_zero] at short
    omega)
  exact ⟨sds, walked, (found 257).trans (by decide), (found 0).trans (by decide)⟩

end ProxmoxBackup.SecurityDescriptors
