import ProxmoxBackup.GoodbyeTable
import ProxmoxBackup.PxarWalk

/-! The bytes of a pxar archive: what its streams hold, told from the entries it is of. A
folder's entries stand between its ENTRY and its GOODBYE table, and a file's content behind
its ENTRY, or in the payload stream of a split archive. -/

namespace ProxmoxBackup.ArchiveItems

open DynamicChunks (Bytes)
open FileContent (EntryMeta entryRecord filenameRecord refRecord)
open GoodbyeTable
open LittleEndian (encode)
open PxarFormat
open PxarWalk (PXAR_SYMLINK PXAR_GOODBYE PXAR_FORMAT_VERSION)

def PXAR_GOODBYE_TAIL_MARKER : Nat := 0xef5eed5b753e1555

/-- The entries of a folder, in their order. -/
inductive Items where
  | nil
  | file (name : Bytes) (m : EntryMeta) (content : Bytes) (rest : Items)
  | symlink (name : Bytes) (m : EntryMeta) (target : Bytes) (rest : Items)
  | folder (name : Bytes) (m : EntryMeta) (inside rest : Items)

/-! Records. -/

def versionRecord : Bytes := header PXAR_FORMAT_VERSION 24 ++ encode 8 2

def symlinkRecord (target : Bytes) : Bytes :=
  header PXAR_SYMLINK (16 + target.length + 1) ++ target ++ [0]

def payloadRecord (content : Bytes) : Bytes := header PXAR_PAYLOAD (content.length + 16) ++ content

def itemRecord (i : GoodByeItem) : Bytes := encode 8 i.hash ++ encode 8 i.offset ++ encode 8 i.len

def goodbyeLength (entries : Nat) : Nat := 16 + 24 * (entries + 1)

def goodbyeRecord (table : List GoodByeItem) (dirSize : Nat) : Bytes :=
  header PXAR_GOODBYE (goodbyeLength table.length) ++ (table.flatMap itemRecord ++
    itemRecord ⟨PXAR_GOODBYE_TAIL_MARKER, dirSize, goodbyeLength table.length⟩)

/-- sort.Slice by hash, and ca_make_bst into a new slice. -/
def goodbyeTable (items : List GoodByeItem) : Option (List GoodByeItem) :=
  (caMakeBst (items.mergeSort fun a b => a.hash ≤ b.hash)
    ⟨List.replicate items.length ⟨0, 0, 0⟩, []⟩).map fun output => output.slots

/-! Streams. A span is what an entry's records, and those below it, come to in the stream. -/

section

variable (hash : Bytes → UInt64) (split : Bool)

/-- Each offset is counted back from the table. -/
def goodbyeItems : List (Bytes × Bytes) → List GoodByeItem
  | [] => []
  | (name, span) :: rest =>
      ⟨(hash name).toNat, span.length + (rest.flatMap Prod.snd).length, span.length⟩ ::
        goodbyeItems rest

/-- A folder's span behind its name. -/
def folderRecord (m : EntryMeta) (spans : List (Bytes × Bytes)) : Bytes :=
  let inside := entryRecord m ++ spans.flatMap Prod.snd
  inside ++ goodbyeRecord ((goodbyeTable (goodbyeItems hash spans)).getD []) inside.length

/-- A split archive has the content at q of its payload stream. -/
def contentRecord (q : Nat) (content : Bytes) : Bytes :=
  if split then refRecord q content.length else payloadRecord content

def payloads : Items → Bytes
  | .nil => []
  | .file _ _ content rest => payloadRecord content ++ payloads rest
  | .symlink _ _ _ rest => payloads rest
  | .folder _ _ inside rest => payloads inside ++ payloads rest

/-- The spans of the entries with their names, their payloads beginning at q. -/
def spans : Items → Nat → List (Bytes × Bytes)
  | .nil, _ => []
  | .file name m content rest, q =>
      (name, filenameRecord name ++ entryRecord m ++ contentRecord split q content) ::
        spans rest (q + (payloadRecord content).length)
  | .symlink name m target rest, q =>
      (name, filenameRecord name ++ entryRecord m ++ symlinkRecord target) :: spans rest q
  | .folder name m inside rest, q =>
      (name, filenameRecord name ++ folderRecord hash m (spans inside q)) ::
        spans rest (q + (payloads inside).length)

/-- The stream with the records. -/
def metadata (m : EntryMeta) (items : Items) : Bytes :=
  (if split then versionRecord else []) ++ folderRecord hash m (spans hash split items 16)

end

/-- The second stream of a split archive. -/
def payloadStream (items : Items) : Bytes :=
  header PXAR_PAYLOAD_START_MARKER 16 ++ payloads items ++ header PXAR_PAYLOAD_TAIL_MARKER 16

/-! Lengths. -/

@[simp] theorem entryRecord_length (m : EntryMeta) : (entryRecord m).length = 56 := by
  simp [entryRecord, FileContent.entryFront_length, FileContent.entryNanosOffset]

@[simp] theorem filenameRecord_length (name : Bytes) : (filenameRecord name).length = 17 + name.length := by
  simp only [filenameRecord, List.length_append, header_length, List.length_singleton]
  omega

theorem named_length (name : Bytes) (m : EntryMeta) (last : Bytes) :
    (filenameRecord name ++ entryRecord m ++ last).length = 17 + name.length + 56 + last.length := by
  simp only [List.length_append, filenameRecord_length, entryRecord_length]

@[simp] theorem refRecord_length (offset size : Nat) : (refRecord offset size).length = 32 := by
  simp [refRecord]

@[simp] theorem payloadRecord_length (content : Bytes) :
    (payloadRecord content).length = 16 + content.length := by
  simp [payloadRecord]

@[simp] theorem symlinkRecord_length (target : Bytes) :
    (symlinkRecord target).length = 17 + target.length := by
  simp only [symlinkRecord, List.length_append, header_length, List.length_singleton]
  omega

@[simp] theorem itemRecord_length (i : GoodByeItem) : (itemRecord i).length = 24 := by
  simp [itemRecord]

theorem table_length (table : List GoodByeItem) : (table.flatMap itemRecord).length = 24 * table.length := by
  induction table with
  | nil => rfl
  | cons i rest ih =>
      rw [List.flatMap_cons, List.length_append, itemRecord_length, ih, List.length_cons]
      omega

@[simp] theorem goodbyeRecord_length (table : List GoodByeItem) (dirSize : Nat) :
    (goodbyeRecord table dirSize).length = goodbyeLength table.length := by
  simp only [goodbyeRecord, goodbyeLength, List.length_append, header_length, table_length,
    itemRecord_length]
  omega

/-- A classic archive names no place of the payload stream. -/
theorem spans_classic (hash : Bytes → UInt64) (items : Items) (q q' : Nat) :
    spans hash false items q = spans hash false items q' := by
  induction items generalizing q q' with
  | nil => rfl
  | file name m content rest ih =>
      rw [spans, spans, ih]
      rfl
  | symlink name m target rest ih => rw [spans, spans, ih]
  | folder name m inside rest ihInside ih => rw [spans, spans, ihInside, ih]

theorem spans_at (hash : Bytes → UInt64) {split : Bool} (items : Items) {q q' : Nat}
    (place : split = true → q = q') : spans hash split items q = spans hash split items q' := by
  cases split with
  | true => rw [place rfl]
  | false => exact spans_classic hash items q q'

theorem span_pos (hash : Bytes → UInt64) (split : Bool) (items : Items) (q : Nat) :
    ∀ p ∈ spans hash split items q, 0 < p.2.length := by
  induction items generalizing q with
  | nil => exact fun p none_ => by cases none_
  | file _ _ _ _ ih | symlink _ _ _ _ ih | folder _ _ _ _ _ ih =>
      rw [spans]
      refine List.forall_mem_cons.mpr ⟨?_, ih _⟩
      simp only [List.length_append, filenameRecord_length]
      omega

theorem goodbyeItems_len (hash : Bytes → UInt64) (spans : List (Bytes × Bytes)) :
    (goodbyeItems hash spans).map GoodByeItem.len = spans.map fun p => p.2.length := by
  induction spans with
  | nil => rfl
  | cons p rest ih => rw [goodbyeItems, List.map_cons, List.map_cons, ih]

theorem goodbyeItems_length (hash : Bytes → UInt64) (spans : List (Bytes × Bytes)) :
    (goodbyeItems hash spans).length = spans.length := by
  have same := congrArg List.length (goodbyeItems_len hash spans)
  rwa [List.length_map, List.length_map] at same

/-- Entries are no more than the bytes they take. -/
theorem spans_length_le {spans : List (Bytes × Bytes)} (some_ : ∀ p ∈ spans, 0 < p.2.length) :
    spans.length ≤ (spans.flatMap Prod.snd).length := by
  induction spans with
  | nil => exact Nat.le_refl _
  | cons p rest ih =>
      obtain ⟨first, others⟩ := List.forall_mem_cons.mp some_
      have later := ih others
      rw [List.flatMap_cons, List.length_append, List.length_cons]
      omega

/-! The layout of the GOODBYE table does not look at the items. -/

def Output.mapped (f : GoodByeItem → GoodByeItem) (o : Output) : Output :=
  ⟨o.slots.map f, o.written.map fun w => (w.1, f w.2)⟩

theorem write_mapped (f : GoodByeItem → GoodByeItem) (o : Output) (i : Nat) (item : GoodByeItem) :
    (Output.mapped f o).write i (f item) = (o.write i item).map (Output.mapped f) := by
  unfold Output.write Output.mapped
  rw [List.length_map]
  split
  · simp [List.map_set]
  · rfl

theorem makeBstInner_mapped (f : GoodByeItem → GoodByeItem) (input : List GoodByeItem) (n e : Nat)
    (o : Output) (i : Nat) : makeBstInner (input.map f) n e (Output.mapped f o) i =
      (makeBstInner input n e o i).map (Output.mapped f) := by
  induction e generalizing input n o i with
  | zero =>
      unfold makeBstInner
      split <;> rfl
  | succ e ih =>
      rw [makeBstInner, makeBstInner]
      split
      · rfl
      · simp only [Option.bind_eq_bind, Option.map_bind, List.getElem?_map, Option.bind_map, write_mapped,
          ← List.map_drop, ih, Function.comp_def]

theorem write_length {o o' : Output} {i : Nat} {item : GoodByeItem} (ran : o.write i item = some o') :
    o'.slots.length = o.slots.length := by
  unfold Output.write at ran
  split at ran
  · cases ran
    exact List.length_set
  · cases ran

theorem makeBstInner_length {input : List GoodByeItem} {n e : Nat} {o o' : Output} {i : Nat}
    (ran : makeBstInner input n e o i = some o') : o'.slots.length = o.slots.length := by
  induction e generalizing input n o o' i with
  | zero =>
      unfold makeBstInner at ran
      split at ran
      · cases ran
        rfl
      · cases ran
  | succ e ih =>
      rw [makeBstInner] at ran
      split at ran
      · cases ran
        rfl
      · obtain ⟨p, -, ran⟩ := Option.bind_eq_some_iff.mp ran
        obtain ⟨q, -, ran⟩ := Option.bind_eq_some_iff.mp ran
        obtain ⟨k, -, ran⟩ := Option.bind_eq_some_iff.mp ran
        obtain ⟨item, -, ran⟩ := Option.bind_eq_some_iff.mp ran
        obtain ⟨rooted, wrote, ran⟩ := Option.bind_eq_some_iff.mp ran
        obtain ⟨left, before, ran⟩ := Option.bind_eq_some_iff.mp ran
        obtain ⟨more, -, ran⟩ := Option.bind_eq_some_iff.mp ran
        rw [ih ran, ih before, write_length wrote]

theorem goodbyeTable_length {items table : List GoodByeItem} (ran : goodbyeTable items = some table) :
    table.length = items.length := by
  obtain ⟨output, laid, rfl⟩ := Option.map_eq_some_iff.mp ran
  rw [makeBstInner_length laid, List.length_replicate]

/-- With fewer items than a slice can have, the table is a rearrangement of them. -/
theorem goodbyeTable_laid {items : List GoodByeItem} (word : items.length < 2 ^ 63) :
    ∃ table writes, goodbyeTable items = some table ∧
      ImplicitTree.Fills table.length 0 (items.mergeSort fun a b => a.hash ≤ b.hash) writes ∧
      (∀ write ∈ writes, table[write.1]? = some write.2) ∧ table.Perm items := by
  have sorted := List.mergeSort_perm items fun a b => a.hash ≤ b.hash
  have size := sorted.length_eq
  unfold goodbyeTable
  generalize items.mergeSort (fun a b => a.hash ≤ b.hash) = input at sorted size
  have short : input.length < 2 ^ 63 := by omega
  have small : (logOf2 input.length + 1) % 2 ^ 64 < 64 := by
    rw [exponent_eq _ short]
    split
    · decide
    · next some_ =>
        have below := log2_lt_word _ some_ short
        omega
  have room : (List.replicate items.length (GoodByeItem.mk 0 0 0)).length = input.length := by
    rw [List.length_replicate, size]
  obtain ⟨writes, fills, ran⟩ := makeBstInner_fills input ⟨List.replicate items.length ⟨0, 0, 0⟩, []⟩
    (root_fits input.length short) small (Nat.le_refl _) room
  rw [List.take_length] at fills
  refine ⟨_, writes, congrArg (Option.map fun o : Output => o.slots) ran, ?_,
    fills.store_slot rfl room, (fills.store_perm rfl room).trans sorted⟩
  have whole : (Output.store ⟨List.replicate items.length ⟨0, 0, 0⟩, []⟩ writes).slots.length =
      input.length := (ImplicitTree.store_length _ _).trans room
  rw [whole]
  exact fills

theorem folderRecord_length (hash : Bytes → UInt64) (m : EntryMeta) {inner : List (Bytes × Bytes)}
    (word : inner.length < 2 ^ 63) : (folderRecord hash m inner).length =
      56 + (inner.flatMap Prod.snd).length + goodbyeLength inner.length := by
  have count := goodbyeItems_length hash inner
  obtain ⟨table, -, laid, -⟩ := @goodbyeTable_laid (goodbyeItems hash inner) (by omega)
  unfold folderRecord
  dsimp only
  rw [laid, Option.getD_some, List.length_append, List.length_append, entryRecord_length,
    goodbyeRecord_length, goodbyeTable_length laid, count]

/-- The offsets take no part in it. -/
theorem goodbyeTable_mapped {items : List GoodByeItem} (word : items.length < 2 ^ 63)
    (f : GoodByeItem → GoodByeItem) (hashes : ∀ i, (f i).hash = i.hash) (some_ : ∀ i ∈ items, 0 < i.len) :
    goodbyeTable (items.map f) = (goodbyeTable items).map (List.map f) := by
  -- the new slice's empty items are left alone, so that it is its own image
  let g : GoodByeItem → GoodByeItem := fun i => if i.len = 0 then i else f i
  have same : ∀ i ∈ items, g i = f i := fun i among => if_neg (Nat.ne_of_gt (some_ i among))
  have empty : Output.mapped g ⟨List.replicate items.length ⟨0, 0, 0⟩, []⟩ =
      ⟨List.replicate items.length ⟨0, 0, 0⟩, []⟩ := by
    unfold Output.mapped
    rw [List.map_replicate]
    rfl
  have sorted : (items.map f).mergeSort (fun a b => a.hash ≤ b.hash) =
      (items.mergeSort fun a b => a.hash ≤ b.hash).map g := by
    rw [← List.map_congr_left same]
    refine (List.map_mergeSort fun a _ b _ => ?_).symm
    have kept (i : GoodByeItem) : (g i).hash = i.hash := by
      dsimp only [g]
      split
      · rfl
      · exact hashes i
    rw [kept, kept]
  obtain ⟨table, writes, ran, -, -, perm⟩ := goodbyeTable_laid word
  have mapped : goodbyeTable (items.map f) = (goodbyeTable items).map (List.map g) := by
    unfold goodbyeTable caMakeBst
    rw [sorted, List.length_map, List.length_map, ← empty, makeBstInner_mapped, empty, Option.map_map,
      Option.map_map]
    rfl
  rw [mapped, ran, Option.map_some, Option.map_some]
  exact congrArg some (List.map_congr_left fun i among => same i (perm.mem_iff.mp among))

end ProxmoxBackup.ArchiveItems
