import ProxmoxBackup.ArchiveRecords

/-! walkRange over the bytes of an archive: from a turn for each record, an entry, a folder and
the archive; each entry is shown once, in order, with what its records hold. -/

namespace ProxmoxBackup.ArchiveWalk

open Actions ArchiveItems ArchiveRecords GoValues LittleEndian PxarFormat PxarWalk
open Catalog (Bytes joinArchivePath)
open FileContent (EntryMeta PXAR_ENTRY PXAR_FILENAME PXAR_PAYLOAD_REF entryRecord filenameRecord)

/-! What a walk shows of a folder's entries. -/

section

variable (pr : PXARReader) (hash : Bytes → UInt64) (split : Bool)

def fileEntry (path name : Bytes) (m : EntryMeta) (q size : Nat) : PXARTreeEntry :=
  if split then { nodeEntry path name m with size := size, payloadOffset := q, hasPayloadRef := true }
  else { nodeEntry path name m with size := size }

/-- The section of a file whose content follows its records at o. -/
def sectionOf (o q size : Nat) : Option Section :=
  if split then refSection pr q size else some ⟨.ra, o + 16, size⟩

/-- The entries that stand from o on, their payloads from q on, below the folder at path. -/
def shown : Items → Bytes → Nat → Nat → List Shown
  | .nil, _, _, _ => []
  | .file name m content rest, path, o, q =>
      (fileEntry split path name m q content.length,
        sectionOf pr split (o + (17 + name.length) + 56) q content.length) ::
      shown rest path (o + (17 + name.length) + 56 + (contentRecord split q content).length)
        (q + (payloadRecord content).length)
  | .symlink name m target rest, path, o, q =>
      ({ nodeEntry path name m with isSymlink := true, linkTarget := target }, none) ::
      shown rest path (o + (17 + name.length) + 56 + (17 + target.length)) q
  | .folder name m inside rest, path, o, q =>
      ({ nodeEntry path name m with isDir := true }, none) ::
      (shown inside (joinArchivePath path name) (o + (17 + name.length) + 56) q ++
        shown rest path (o + (17 + name.length) + (folderRecord hash m (spans hash split inside q)).length)
          (q + (payloads inside).length))

end

/-- Names and targets are legible, and each mode is of its entry's kind. -/
def Readable : Items → Prop
  | .nil => True
  | .file name m _ rest => Legible name ∧ m.mode % 2 ^ 64 &&& IFMT ≠ IFDIR ∧ Readable rest
  | .symlink name m target rest =>
      Legible name ∧ Legible target ∧ m.mode % 2 ^ 64 &&& IFMT = IFLNK ∧ Readable rest
  | .folder name m inside rest =>
      Legible name ∧ m.mode % 2 ^ 64 &&& IFMT = IFDIR ∧ Readable inside ∧ Readable rest

section

variable {σ E : Type} {pr : PXARReader} {f : σ → PXARTreeEntry → Option Section → σ} {stop : Int}
  {spanMode : Bool} {o q : Nat} {w : Walk σ}

/-- From o on the walk takes these bytes, turn by turn, and shows these entries. -/
def Walks (pr : PXARReader) (E : Type) (f : σ → PXARTreeEntry → Option Section → σ) (stop : Int)
    (spanMode : Bool) (o len : Nat) (shown : List Shown) (w : Walk σ) : Prop :=
  ∃ n w', Turns (pr.walkStep (gathers f : Callback σ E) stop spanMode) n w w' ∧ 16 * n ≤ len ∧
    Passed f shown (o + len) w w'

theorem Walks.trans {a b : Nat} {first second : List Shown}
    (before : Walks pr E f stop spanMode o a first w)
    (after : ∀ w', Passed f first (o + a) w w' → Walks pr E f stop spanMode (o + a) b second w') :
    Walks pr E f stop spanMode o (a + b) (first ++ second) w := by
  obtain ⟨n, w', turns, few, passed⟩ := before
  obtain ⟨k, last, more, fewer, passed'⟩ := after w' passed
  refine ⟨n + k, last, turns.trans more, by omega, ?_⟩
  rw [← Nat.add_assoc]
  exact passed.trans passed'

/-- The name and the ENTRY of what is no folder. -/
theorem named_turns {name : Bytes} {m : EntryMeta}
    (holds : Holds pr.ra o (filenameRecord name ++ entryRecord m))
    (legible : Legible name) (kind : m.mode % 2 ^ 64 &&& IFMT ≠ IFDIR) (place : w.offset = o)
    (before : ((o + (17 + name.length) : Nat) : Int) < stop)
    (single : spanMode = true → w.pathStack = [] → w.topLevelNames = 0) :
    ∃ v, Turns (pr.walkStep (gathers f : Callback σ E) stop spanMode) 2 w v ∧
      Passed f [] (o + (17 + name.length) + 56) w v ∧ v.hasPendingFile = true ∧
      v.pendingFileMode = m.mode % 2 ^ 64 ∧ pendingEntry v = nodeEntry w.currentPath name m := by
  have next := holds.right
  rw [filenameRecord_length] at next
  have earlier : (o : Int) < stop := by omega
  obtain ⟨uses, names, first⟩ := filename_turn (f := f) (E := E) holds.left legible place earlier single
  obtain ⟨uses', second⟩ := entry_turn (f := f) (E := E) (w := { w with
    offset := ((o + (17 + name.length) : Nat) : Int)
    pendingName := name
    topLevelNames := names
    uses := uses }) spanMode next rfl before
  rw [if_neg kind] at second
  refine ⟨_, (Turns.one first).trans (.one second), ?_⟩
  exact ⟨⟨rfl, rfl, rfl, rfl, rfl⟩, rfl, rfl, rfl⟩

theorem file_walks (split : Bool) {name content : Bytes} {m : EntryMeta}
    (holds : Holds pr.ra o (filenameRecord name ++ entryRecord m ++ contentRecord split q content))
    (there : split = true → Referred pr q content) (legible : Legible name)
    (kind : m.mode % 2 ^ 64 &&& IFMT ≠ IFDIR) (place : w.offset = o)
    (before : ((o + (17 + name.length) + 56 : Nat) : Int) < stop)
    (single : spanMode = true → w.pathStack = [] → w.topLevelNames = 0) :
    Walks pr E f stop spanMode o (17 + name.length + 56 + (contentRecord split q content).length)
      [(fileEntry split w.currentPath name m q content.length,
        sectionOf pr split (o + (17 + name.length) + 56) q content.length)] w := by
  have earlier : ((o + (17 + name.length) : Nat) : Int) < stop := by omega
  obtain ⟨v, first, named, pending, -, same⟩ := named_turns (f := f) (E := E) holds.left legible kind place
    earlier single
  have last := holds.right
  rw [List.length_append, filenameRecord_length, entryRecord_length, ← Nat.add_assoc] at last
  cases split with
  | true =>
      obtain ⟨w', turn, passed⟩ := ref_turn (f := f) (E := E) spanMode
        (there rfl) last named.offset before pending
      have length : (contentRecord true q content).length = 32 := refRecord_length q content.length
      rw [same] at passed
      exact ⟨3, w', first.trans (.one turn), by omega, (named.trans passed).place (by omega)⟩
  | false =>
      obtain ⟨w', turn, passed⟩ := payload_turn (f := f) (E := E) spanMode last named.offset before pending
      have length : (contentRecord false q content).length = 16 + content.length :=
        payloadRecord_length content
      rw [same] at passed
      exact ⟨3, w', first.trans (.one turn), by omega, (named.trans passed).place (by omega)⟩

theorem symlink_walks {name target : Bytes} {m : EntryMeta}
    (holds : Holds pr.ra o (filenameRecord name ++ entryRecord m ++ symlinkRecord target))
    (legible : Legible name) (readable : Legible target) (kind : m.mode % 2 ^ 64 &&& IFMT = IFLNK)
    (place : w.offset = o) (before : ((o + (17 + name.length) + 56 : Nat) : Int) < stop)
    (single : spanMode = true → w.pathStack = [] → w.topLevelNames = 0) :
    Walks pr E f stop spanMode o (17 + name.length + 56 + (17 + target.length))
      [({ nodeEntry w.currentPath name m with isSymlink := true, linkTarget := target }, none)] w := by
  have earlier : ((o + (17 + name.length) : Nat) : Int) < stop := by omega
  obtain ⟨v, first, named, pending, mode, same⟩ := named_turns (f := f) (E := E) holds.left legible
    (by rw [kind]; decide) place earlier single
  have last := holds.right
  rw [List.length_append, filenameRecord_length, entryRecord_length, ← Nat.add_assoc] at last
  obtain ⟨w', turn, passed⟩ := symlink_turn (f := f) (E := E) spanMode last readable named.offset before
    pending
    (by rw [mode]; exact kind)
  rw [same] at passed
  exact ⟨3, w', first.trans (.one turn), by omega, (named.trans passed).place (by omega)⟩

/-- An ENTRY of a folder that is no root shows it, and the walk goes below it. -/
theorem enter_turn {m : EntryMeta} (spanMode : Bool) (holds : Holds pr.ra o (entryRecord m))
    (place : w.offset = o)
    (before : (o : Int) < stop) (kind : m.mode % 2 ^ 64 &&& IFMT = IFDIR) (root : w.rootSeen = true) :
    ∃ w', pr.walkStep (gathers f : Callback σ E) stop spanMode w = .went () w' ∧
      w'.offset = ((o + 56 : Nat) : Int) ∧ w'.pathStack = w.currentPath :: w.pathStack ∧
      w'.currentPath = joinArchivePath w.currentPath w.pendingName ∧ w'.rootSeen = true ∧
      w'.gathered = f w.gathered { nodeEntry w.currentPath w.pendingName m with isDir := true } none := by
  obtain ⟨uses, turn⟩ := entry_turn (f := f) (E := E) (w := w) spanMode holds place before
  rw [if_pos kind] at turn
  rw [turn]
  unfold PXARReader.directory
  rw [bind_reading, if_pos (by exact root)]
  dsimp only
  rw [bind_went (show_pending _ _ _ _)]
  exact ⟨_, rfl, rfl, rfl, rfl, root, rfl⟩

theorem leave_entered {v : Walk σ} {above : Bytes} {rest : List Bytes} (top : v.pathStack = above :: rest) :
    v.leave = { v.use .left with pathStack := rest, currentPath := above } := by
  unfold Walk.leave
  rw [top]

theorem leave_root {v : Walk σ} (top : v.pathStack = []) : v.leave = { v with currentPath := [] } := by
  unfold Walk.leave
  rw [top]

theorem folder_walks {name : Bytes} {m : EntryMeta} {hash : Bytes → UInt64} {inner : List (Bytes × Bytes)}
    {below : List Shown}
    (holds : Holds pr.ra o (filenameRecord name ++ folderRecord hash m inner)) (legible : Legible name)
    (kind : m.mode % 2 ^ 64 &&& IFMT = IFDIR) (place : w.offset = o) (root : w.rootSeen = true)
    (before : ((o + (17 + name.length) + (folderRecord hash m inner).length : Nat) : Int) ≤ stop)
    (single : spanMode = true → w.pathStack = [] → w.topLevelNames = 0)
    (walks : ∀ v : Walk σ, v.offset = ((o + (17 + name.length) + 56 : Nat) : Int) →
      v.pathStack = w.currentPath :: w.pathStack → v.currentPath = joinArchivePath w.currentPath name →
      v.rootSeen = true → Walks pr E f stop spanMode (o + (17 + name.length) + 56)
        (inner.flatMap Prod.snd).length below v) :
    Walks pr E f stop spanMode o (17 + name.length + (folderRecord hash m inner).length)
      (({ nodeEntry w.currentPath name m with isDir := true }, none) :: below) w := by
  have named := holds.left
  have behind := holds.right
  rw [filenameRecord_length] at behind
  unfold folderRecord at behind before ⊢
  dsimp only at behind before ⊢
  generalize (goodbyeTable (goodbyeItems hash inner)).getD [] = table at behind before ⊢
  generalize (entryRecord m ++ inner.flatMap Prod.snd).length = dirSize at behind before ⊢
  have goodbye := behind.right
  rw [List.length_append, List.length_append, entryRecord_length, goodbyeRecord_length] at before ⊢
  rw [List.length_append, entryRecord_length, ← Nat.add_assoc] at goodbye
  have sized : 16 ≤ goodbyeLength table.length := Nat.le_add_right _ _
  have earlier : (o : Int) < stop := by omega
  have entered : ((o + (17 + name.length) : Nat) : Int) < stop := by omega
  have closing : ((o + (17 + name.length) + 56 + (inner.flatMap Prod.snd).length : Nat) : Int) < stop :=
    by omega
  obtain ⟨uses, names, first⟩ := filename_turn (f := f) (E := E) named legible place earlier single
  obtain ⟨v, second, offset, stack, path, rooted, gathered⟩ := enter_turn (f := f) (E := E) (w := { w with
    offset := ((o + (17 + name.length) : Nat) : Int)
    pendingName := name
    topLevelNames := names
    uses := uses }) spanMode behind.left.left rfl entered kind root
  obtain ⟨n, u, turns, few, passed⟩ := walks v offset stack path rooted
  obtain ⟨uses', last⟩ := goodbye_turn (f := f) (E := E) spanMode goodbye passed.offset closing
    (fun _ => by rw [passed.stack, stack]; exact List.cons_ne_nil _ _)
  have top : u.pathStack = w.currentPath :: w.pathStack := passed.stack.trans stack
  rw [leave_entered (by exact top)] at last
  refine ⟨1 + 1 + n + 1, _, (((Turns.one first).trans (.one second)).trans turns).trans (.one last), by omega,
    congrArg (fun n : Nat => (n : Int)) (by omega), rfl, rfl, passed.root.trans (rooted.trans root.symm), ?_⟩
  show u.gathered = _
  rw [passed.gathered, gathered]
  rfl

theorem contentRecord_long (split : Bool) (q : Nat) (content : Bytes) :
    16 ≤ (contentRecord split q content).length := by
  unfold contentRecord
  split
  · rw [refRecord_length]
    decide
  · rw [payloadRecord_length]
    exact Nat.le_add_right _ _

/-- A folder's entries stand behind its ENTRY. -/
theorem folderRecord_parts {hash : Bytes → UInt64} {m : EntryMeta} {inner : List (Bytes × Bytes)}
    (holds : Holds pr.ra o (folderRecord hash m inner)) :
    Holds pr.ra (o + 56) (inner.flatMap Prod.snd) ∧
      56 + (inner.flatMap Prod.snd).length ≤ (folderRecord hash m inner).length := by
  unfold folderRecord at holds ⊢
  have inside := holds.left.right
  rw [entryRecord_length] at inside
  refine ⟨inside, ?_⟩
  rw [List.length_append, List.length_append, entryRecord_length]
  exact Nat.le_add_right _ _

/-- A split archive's payload stream holds the payloads of these entries from q on. -/
def Backed (pr : PXARReader) (split : Bool) (items : Items) (q : Nat) : Prop :=
  split = true → ∃ p, pr.payloadRA = some p ∧ Holds p q (payloads items)

section

variable {split : Bool} {name data : Bytes} {m : EntryMeta} {below rest : Items}

theorem Backed.content (backed : Backed pr split (.file name m data rest) q) (mode : split = true) :
    Referred pr q data := by
  obtain ⟨p, stream, held⟩ := backed mode
  exact ⟨p, stream, held.left⟩

theorem Backed.behindFile (backed : Backed pr split (.file name m data rest) q) :
    Backed pr split rest (q + (payloadRecord data).length) := fun mode => by
  obtain ⟨p, stream, held⟩ := backed mode
  exact ⟨p, stream, held.right⟩

theorem Backed.inside (backed : Backed pr split (.folder name m below rest) q) : Backed pr split below q :=
  fun mode => by
    obtain ⟨p, stream, held⟩ := backed mode
    exact ⟨p, stream, held.left⟩

theorem Backed.behindFolder (backed : Backed pr split (.folder name m below rest) q) :
    Backed pr split rest (q + (payloads below).length) := fun mode => by
  obtain ⟨p, stream, held⟩ := backed mode
  exact ⟨p, stream, held.right⟩

end

/-- What follows the first entry. -/
def behind : Items → Items
  | .nil => .nil
  | .file _ _ _ rest => rest
  | .symlink _ _ _ rest => rest
  | .folder _ _ _ rest => rest

/-- The entries of a folder. At the top of one span's walk there is one at most. -/
theorem items_walk {hash : Bytes → UInt64} {split : Bool} {items : Items} (stop : Int) (spanMode : Bool)
    (holds : Holds pr.ra o ((spans hash split items q).flatMap Prod.snd))
    (backed : Backed pr split items q)
    (readable : Readable items) (place : w.offset = o) (root : w.rootSeen = true)
    (before : ((o + ((spans hash split items q).flatMap Prod.snd).length : Nat) : Int) ≤ stop)
    (single : spanMode = true → w.pathStack = [] →
      items = .nil ∨ w.topLevelNames = 0 ∧ behind items = .nil) :
    Walks pr E f stop spanMode o ((spans hash split items q).flatMap Prod.snd).length
      (shown pr hash split items w.currentPath o q) w := by
  induction items generalizing o q w with
  | nil => exact ⟨0, w, .done, Nat.le_refl _, place, rfl, rfl, rfl, rfl⟩
  | file name m content rest ih =>
      have fresh := fun mode top => (single mode top).resolve_left fun none_ => by cases none_
      obtain ⟨legible, kind, readable⟩ := readable
      rw [spans, List.flatMap_cons] at holds before ⊢
      have next := holds.right
      rw [List.length_append, named_length] at before ⊢
      rw [named_length] at next
      have long := contentRecord_long split q content
      refine (file_walks split holds.left backed.content legible kind place (by omega)
        fun mode top => (fresh mode top).1).trans fun v passed => ?_
      have walks := ih next backed.behindFile readable passed.offset (passed.root.trans root) (by omega)
        fun mode top => .inl (fresh mode (passed.stack ▸ top)).2
      rw [passed.path] at walks
      simp only [Nat.add_assoc] at walks ⊢
      exact walks
  | symlink name m target rest ih =>
      have fresh := fun mode top => (single mode top).resolve_left fun none_ => by cases none_
      obtain ⟨legible, legible', kind, readable⟩ := readable
      rw [spans, List.flatMap_cons] at holds before ⊢
      have next := holds.right
      rw [List.length_append, named_length, symlinkRecord_length] at before ⊢
      rw [named_length, symlinkRecord_length] at next
      refine (symlink_walks holds.left legible legible' kind place (by omega)
        fun mode top => (fresh mode top).1).trans fun v passed => ?_
      have walks := ih next backed readable passed.offset (passed.root.trans root) (by omega)
        fun mode top => .inl (fresh mode (passed.stack ▸ top)).2
      rw [passed.path] at walks
      simp only [Nat.add_assoc] at walks ⊢
      exact walks
  | folder name m below rest ihBelow ih =>
      have fresh := fun mode top => (single mode top).resolve_left fun none_ => by cases none_
      obtain ⟨legible, kind, readableBelow, readable⟩ := readable
      rw [spans, List.flatMap_cons] at holds before ⊢
      have next := holds.right
      have inner := holds.left.right
      rw [List.length_append, List.length_append, filenameRecord_length] at before ⊢
      rw [List.length_append, filenameRecord_length] at next
      rw [filenameRecord_length] at inner
      have parts := folderRecord_parts inner
      refine (folder_walks holds.left legible kind place root (by omega)
        (fun mode top => (fresh mode top).1) fun v offset stack path rooted => ?_).trans fun v passed => ?_
      · have walks := ihBelow parts.1 backed.inside readableBelow offset rooted (by omega)
          fun _ top => by rw [stack] at top; cases top
        rw [path] at walks
        exact walks
      · have walks := ih next backed.behindFolder readable passed.offset (passed.root.trans root) (by omega)
          fun mode top => .inl (fresh mode (passed.stack ▸ top)).2
        rw [passed.path] at walks
        simp only [Nat.add_assoc] at walks ⊢
        exact walks

end

/-! Whole archives. -/

section

variable {σ E : Type} {pr : PXARReader} {f : σ → PXARTreeEntry → Option Section → σ} {stop : Int}
  {spanMode : Bool} {o q : Nat} {w : Walk σ}

/-- The version record in front of a split archive. -/
theorem version_turn (spanMode : Bool) (holds : Holds pr.ra o versionRecord) (place : w.offset = o)
    (before : (o : Int) < stop) :
    ∃ uses, pr.walkStep (gathers f : Callback σ E) stop spanMode w =
      .went () { w with offset := ((o + 24 : Nat) : Int), uses := uses } := by
  unfold versionRecord at holds
  have length : (encode 8 2).length = 8 := encode_length 8 2
  have size : 24 = 16 + (encode 8 2).length := by rw [length]
  rw [size] at holds
  have fits := holds.fits
  rw [List.length_append, header_length] at fits
  rw [turn_record (by decide) holds place before, record_version, length]
  have next : int64 ((o : Int) + int64 (16 + 8 : Nat)) = ((o + 24 : Nat) : Int) := by
    rw [int64_nat (by decide), ← Int.natCast_add]
    exact int64_nat (by omega)
  unfold skip change
  dsimp only
  rw [used _ place, next]
  exact ⟨_, rfl⟩

/-- The ENTRY of the root shows nothing. -/
theorem root_turn {m : EntryMeta} (spanMode : Bool) (holds : Holds pr.ra o (entryRecord m))
    (place : w.offset = o)
    (before : (o : Int) < stop) (kind : m.mode % 2 ^ 64 &&& IFMT = IFDIR) (root : w.rootSeen = false) :
    ∃ w', pr.walkStep (gathers f : Callback σ E) stop spanMode w = .went () w' ∧
      w'.offset = ((o + 56 : Nat) : Int) ∧ w'.pathStack = w.pathStack ∧ w'.currentPath = w.currentPath ∧
      w'.rootSeen = true ∧ w'.gathered = w.gathered := by
  obtain ⟨uses, turn⟩ := entry_turn (f := f) (E := E) (w := w) spanMode holds place before
  rw [if_pos kind] at turn
  rw [turn]
  unfold PXARReader.directory
  rw [bind_reading, if_neg (by rw [root]; exact Bool.false_ne_true)]
  exact ⟨_, rfl, rfl, rfl, rfl, rfl, rfl⟩

end

section

variable {pr : PXARReader} {hash : Bytes → UInt64} {split : Bool} {m : EntryMeta} {items : Items}

/-- The streams behind a reader are those of an archive. -/
structure Opened (pr : PXARReader) (hash : Bytes → UInt64) (split : Bool) (m : EntryMeta)
    (items : Items) : Prop where
  records : Holds pr.ra 0 (metadata hash split m items)
  whole : pr.ra.length = (metadata hash split m items).length
  backed : Backed pr split items 16

theorem opened_classic (fits : (metadata hash false m items).length < 2 ^ 63) :
    Opened (newPXARReaderAt (streamOf (metadata hash false m items) fits)) hash false m items :=
  ⟨streamOf_holds _ fits, rfl, fun wrong => by cases wrong⟩

/-- Where the root's ENTRY stands. -/
def rootAt (split : Bool) : Nat := if split then 24 else 0

theorem front_length (split : Bool) : (if split then versionRecord else []).length = rootAt split := by
  unfold rootAt
  split
  · rw [versionRecord, List.length_append, header_length, encode_length]
  · rfl

/-- The root's folder. -/
theorem Opened.folder (opened : Opened pr hash split m items) :
    Holds pr.ra (rootAt split) (folderRecord hash m (spans hash split items 16)) := by
  have records := opened.records
  unfold metadata at records
  have folder := records.right
  rw [front_length, Nat.zero_add] at folder
  exact folder

theorem Opened.size (opened : Opened pr hash split m items) :
    pr.ra.length = rootAt split + (folderRecord hash m (spans hash split items 16)).length := by
  rw [opened.whole, metadata, List.length_append, front_length]

theorem begin_turns {σ E : Type} (f : σ → PXARTreeEntry → Option Section → σ) (g : σ)
    (opened : Opened pr hash split m items) :
    ∃ n w, Turns (pr.walkStep (gathers f : Callback σ E) pr.size false) n (PXARReader.start g 0 [] false) w ∧
      16 * n ≤ rootAt split ∧ w.offset = rootAt split ∧ w.pathStack = [] ∧ w.currentPath = [] ∧
      w.rootSeen = false ∧ w.gathered = g := by
  have records := opened.records
  have whole := opened.whole
  unfold metadata at records whole
  cases split with
  | true =>
      rw [if_pos rfl] at records whole
      have length : versionRecord.length = 24 := by
        rw [versionRecord, List.length_append, header_length, encode_length]
      rw [List.length_append, length] at whole
      have some_ : ((0 : Nat) : Int) < pr.size := by
        rw [size_eq, whole]
        omega
      obtain ⟨uses, turn⟩ := version_turn (f := f) (E := E) (w := PXARReader.start g 0 [] false) false
        records.left rfl some_
      exact ⟨1, _, .one turn, by decide, rfl, rfl, rfl, rfl, rfl⟩
  | false => exact ⟨0, _, .done, Nat.zero_le _, rfl, rfl, rfl, rfl, rfl⟩

/-- A walk of an archive shows each of its entries, once and in their order. -/
theorem walk_shows (opened : Opened pr hash split m items) (readable : Readable items)
    (kind : m.mode % 2 ^ 64 &&& IFMT = IFDIR) :
    Shows (fun cb g => pr.walk cb g) (shown pr hash split items [] (rootAt split + 56) 16) := by
  intro σ E f g
  obtain ⟨n, first, turns, few, place, stack, path, root, gathered⟩ := begin_turns (E := E) f g opened
  have folder := opened.folder
  have whole := opened.size
  have size := size_eq pr
  obtain ⟨inside, long⟩ := folderRecord_parts folder
  unfold folderRecord at folder whole long
  dsimp only at folder whole long
  generalize (goodbyeTable (goodbyeItems hash (spans hash split items 16))).getD [] =
    table at folder whole long
  generalize (entryRecord m ++ (spans hash split items 16).flatMap Prod.snd).length =
    dirSize at folder whole long
  have goodbye := folder.right
  rw [List.length_append, List.length_append, entryRecord_length, goodbyeRecord_length] at whole
  rw [List.length_append, entryRecord_length, ← Nat.add_assoc] at goodbye
  have sized : 16 ≤ goodbyeLength table.length := Nat.le_add_right _ _
  have earlier : (rootAt split : Int) < pr.size := by omega
  obtain ⟨v, second, offset, stack', path', root', gathered'⟩ :=
    root_turn (f := f) (E := E) (w := first) false
    folder.left.left place earlier kind root
  have fits : ((rootAt split + 56 + ((spans hash split items 16).flatMap Prod.snd).length : Nat) : Int) ≤
    pr.size := by
    omega
  obtain ⟨k, u, more, fewer, passed⟩ := items_walk (f := f) (E := E) pr.size false
    inside opened.backed readable offset root' fits (fun wrong => by cases wrong)
  have closing : ((rootAt split + 56 + ((spans hash split items 16).flatMap Prod.snd).length : Nat) :
    Int) < pr.size := by
    omega
  obtain ⟨uses, last⟩ := goodbye_turn (f := f) (E := E) false goodbye passed.offset closing
    (fun wrong => by cases wrong)
  rw [leave_root (by exact passed.stack.trans (stack'.trans stack))] at last
  have all := ((turns.trans (.one second)).trans more).trans (.one last)
  refine ⟨_, all.loop (walk_ends _ ?_) (by omega), ?_⟩
  · dsimp only
    omega
  · show u.gathered = _
    rw [passed.gathered, gathered', gathered, path', path]

end

/-! What the sections hold. -/

/-- The whole of a section, where its reads do not fail. -/
def readWhole (pr : PXARReader) (s : Section) : Option Bytes :=
  match s.source with
  | .ra => (pr.ra.readAt s.size.toNat s.offset).toOption
  | .payloadRA => pr.payloadRA.bind fun p => (p.readAt s.size.toNat s.offset).toOption
  | .checkedPayload offset size => pr.payloadRA.bind fun p =>
      (PXARReader.checkPayloadHeader p offset size).toOption.bind fun _ =>
        (p.readAt s.size.toNat s.offset).toOption

/-- An entry without where it stands, and with what its section holds. -/
def restored (pr : PXARReader) (e : Shown) : PXARTreeEntry × Option Bytes :=
  ({ e.1 with payloadOffset := 0, hasPayloadRef := false }, e.2.bind (readWhole pr))

/-- What a restore of these entries below path is of. -/
def contents : Items → Bytes → List (PXARTreeEntry × Option Bytes)
  | .nil, _ => []
  | .file name m content rest, path =>
      ({ nodeEntry path name m with size := content.length }, some content) :: contents rest path
  | .symlink name m target rest, path =>
      ({ nodeEntry path name m with isSymlink := true, linkTarget := target }, none) :: contents rest path
  | .folder name m inside rest, path =>
      ({ nodeEntry path name m with isDir := true }, none) ::
        (contents inside (joinArchivePath path name) ++ contents rest path)

section

variable {pr : PXARReader} {hash : Bytes → UInt64} {split : Bool} {o q : Nat}

theorem section_reads {content : Bytes} (mode : pr.metaOnly = false)
    (holds : Holds pr.ra o (contentRecord split q content)) (there : split = true → Referred pr q content) :
    (sectionOf pr split o q content.length).bind (readWhole pr) = some content := by
  unfold sectionOf
  cases split with
  | true =>
      obtain ⟨p, stream, held⟩ := there rfl
      have matching := check_matches held
      unfold payloadRecord at held
      have read := held.right.readAt
      rw [header_length] at read
      rw [if_pos rfl, refSection, mode, if_neg Bool.false_ne_true, Option.bind_some]
      unfold readWhole
      cases pr.lazyPayload with
      | true =>
          rw [if_pos rfl, stream]
          dsimp only
          rw [Option.bind_some, matching, Int.toNat_natCast]
          exact congrArg Except.toOption read
      | false =>
          rw [if_neg Bool.false_ne_true, stream]
          dsimp only
          rw [Option.bind_some, Int.toNat_natCast]
          exact congrArg Except.toOption read
  | false =>
      have read := Holds.readAt (Holds.right (a := header PXAR_PAYLOAD (content.length + 16)) holds)
      rw [header_length] at read
      exact congrArg Except.toOption read

theorem shown_contents {items : Items} {path : Bytes} (mode : pr.metaOnly = false)
    (holds : Holds pr.ra o ((spans hash split items q).flatMap Prod.snd))
    (backed : Backed pr split items q) :
    (shown pr hash split items path o q).map (restored pr) = contents items path := by
  induction items generalizing o q path with
  | nil => rfl
  | file name m content rest ih =>
      rw [spans, List.flatMap_cons] at holds
      have next := holds.right
      have record := holds.left.right
      rw [List.length_append, filenameRecord_length, entryRecord_length, ← Nat.add_assoc] at record
      rw [List.length_append, List.length_append, filenameRecord_length, entryRecord_length, ← Nat.add_assoc,
        ← Nat.add_assoc] at next
      rw [shown, contents, List.map_cons, ih next backed.behindFile, restored,
        section_reads mode record backed.content]
      congr 2
      unfold fileEntry
      cases split <;> rfl
  | symlink name m target rest ih =>
      rw [spans, List.flatMap_cons] at holds
      have next := holds.right
      rw [List.length_append, List.length_append, filenameRecord_length, entryRecord_length,
        symlinkRecord_length,
        ← Nat.add_assoc o (17 + name.length + 56), ← Nat.add_assoc o (17 + name.length)] at next
      rw [shown, contents, List.map_cons, ih next backed]
      rfl
  | folder name m below rest ihBelow ih =>
      rw [spans, List.flatMap_cons] at holds
      have next := holds.right
      have inner := holds.left.right
      rw [List.length_append, filenameRecord_length, ← Nat.add_assoc] at next
      rw [filenameRecord_length] at inner
      rw [shown, contents, List.map_cons, List.map_append, ihBelow (folderRecord_parts inner).1 backed.inside,
        ih next backed.behindFolder]
      rfl

end

end ProxmoxBackup.ArchiveWalk
