import ProxmoxBackup.ArchiveItems

/-! One turn of walkRange over each record of a written archive: what is read of it, what the
callback gets, and where the walk goes on. -/

namespace ProxmoxBackup.ArchiveRecords

open Actions ArchiveItems GoValues LittleEndian PxarFormat PxarWalk
open Catalog (Bytes joinArchivePath)
open FileContent (EntryMeta PXAR_ENTRY PXAR_FILENAME PXAR_PAYLOAD_REF entryRecord filenameRecord refRecord)

/-! What a stream holds. -/

/-- These bytes are in the stream from o on. -/
structure Holds (stream : Stream) (o : Nat) (bytes : Bytes) : Prop where
  inside : o + bytes.length ≤ stream.length
  same : stream.bytes o bytes.length = bytes

section

variable {stream : Stream} {o : Nat}

theorem bytes_append (o n m : Nat) : stream.bytes o (n + m) = stream.bytes o n ++ stream.bytes (o + n) m := by
  unfold Stream.bytes
  rw [List.range_add, List.map_append, List.map_map]
  congr 1
  refine List.map_congr_left fun i _ => ?_
  simp only [Function.comp, Nat.add_assoc]

theorem bytes_length (o n : Nat) : (stream.bytes o n).length = n := by
  rw [Stream.bytes, List.length_map, List.length_range]

theorem Holds.parts {a b : Bytes} (holds : Holds stream o (a ++ b)) :
    Holds stream o a ∧ Holds stream (o + a.length) b := by
  have inside := holds.inside
  have same := holds.same
  rw [List.length_append] at inside same
  rw [bytes_append] at same
  obtain ⟨first, second⟩ := List.append_inj same (bytes_length o a.length)
  exact ⟨⟨by omega, first⟩, ⟨by omega, second⟩⟩

theorem Holds.left {a b : Bytes} (holds : Holds stream o (a ++ b)) : Holds stream o a := holds.parts.1

theorem Holds.right {a b : Bytes} (holds : Holds stream o (a ++ b)) : Holds stream (o + a.length) b :=
  holds.parts.2

theorem Holds.readAt {bytes : Bytes} (holds : Holds stream o bytes) :
    stream.readAt bytes.length o = .ok bytes := by
  have inside := holds.inside
  rw [Stream.readAt, if_neg (by omega), if_neg (by omega), Int.toNat_natCast, holds.same]

end

/-- A list of bytes as a stream. -/
def streamOf (bytes : Bytes) (fits : bytes.length < 2 ^ 63) : Stream :=
  ⟨bytes.length, fun i => bytes.getD i 0, fits⟩

theorem streamOf_holds (bytes : Bytes) (fits : bytes.length < 2 ^ 63) :
    Holds (streamOf bytes fits) 0 bytes := by
  refine ⟨Nat.le_of_eq (Nat.zero_add _), List.ext_getElem? fun i => ?_⟩
  unfold Stream.bytes streamOf
  rw [List.getElem?_map]
  by_cases inside : i < bytes.length
  · rw [List.getElem?_range inside, Option.map_some, Nat.zero_add, List.getElem?_eq_getElem inside]
    simp [List.getD_eq_getElem?_getD, List.getElem?_eq_getElem inside]
  · rw [List.getElem?_eq_none (by simpa using inside), List.getElem?_eq_none (by omega)]
    rfl

/-! One record. -/

/-- What a callback is called with. -/
abbrev Shown := PXARTreeEntry × Option Section

/-- A callback that cannot fail. The weight of an entry is only for the progress shown. -/
def gathers {σ E : Type} (f : σ → PXARTreeEntry → Option Section → σ) : Callback σ E :=
  fun g e s => (f g { e with weight := 0 } s, none)

/-- A walk that ends without an error shows these, whatever is gathered of them. -/
def Shows (walk : ∀ {σ E : Type}, Callback σ E → σ → Option (Exit (WalkError E) × Walk σ))
    (seen : List Shown) : Prop :=
  ∀ (σ E : Type) (f : σ → PXARTreeEntry → Option Section → σ) (g : σ), ∃ w,
    walk (gathers f : Callback σ E) g = some (.stopped, w) ∧
      w.gathered = seen.foldl (fun g e => f g e.1 e.2) g

section

variable {σ E : Type} {pr : PXARReader} {f : σ → PXARTreeEntry → Option Section → σ} {stop : Int}
  {spanMode : Bool} {o : Nat} {w : Walk σ}

theorem size_eq (pr : PXARReader) : pr.size = pr.ra.length := rfl

theorem int64_nat {n : Nat} (fits : n < 2 ^ 63) : int64 n = n := int64_same n (by omega) (by omega)

theorem field_left {a b : Bytes} {size : Nat} (width : a.length = size) :
    field (a ++ b) 0 size = decode a := by
  rw [field, List.drop_zero, List.take_left' width]

theorem field_right {a b : Bytes} {o size : Nat} (before : a.length = o) :
    field (a ++ b) o size = field b 0 size := by
  rw [field, field, List.drop_left' before, List.drop_zero]

theorem field_encode {n size : Nat} {b : Bytes} : field (encode size n ++ b) 0 size = n % 256 ^ size := by
  rw [field_left (encode_length size n), decode_encode_mod]

/-- Where the range ends, so does the walk. -/
theorem walk_ends (cb : Callback σ E) (behind : stop ≤ w.offset) :
    pr.walkStep cb stop spanMode w = .ended .stopped w := by
  unfold PXARReader.walkStep
  rw [bind_reading]
  refine bind_ended ?_
  rw [leave, if_pos behind]

/-- A turn takes the record that is there. -/
theorem turn_record {type : Nat} {content : Bytes} (word : type < 2 ^ 64)
    (holds : Holds pr.ra o (header type (16 + content.length) ++ content)) (place : w.offset = o)
    (before : (o : Int) < stop) (cb : Callback σ E) :
    pr.walkStep cb stop spanMode w =
      pr.record cb spanMode ⟨type, 16 + content.length⟩ (w.use (.header o)) := by
  have fits := pr.ra.fits
  have inside := holds.inside
  rw [List.length_append, header_length] at inside
  have read := holds.left.readAt
  rw [header_length] at read
  have opened : (pr.readHeader : Step σ E PXARHeader) w =
      .went ⟨type, 16 + content.length⟩ (w.use (.header o)) := by
    have next : int64 (w.offset + 16) = (o : Int) + 16 := by
      rw [place]
      exact int64_same _ (by omega) (by omega)
    have size : 16 + content.length < 2 ^ 64 := by omega
    rw [PXARReader.readHeader, next, size_eq, if_neg (by omega), place, read]
    dsimp only
    rw [header, field_encode, field_right (encode_length 8 type), ← List.append_nil (encode 8 (16 + _)),
      field_encode]
    rw [Nat.mod_eq_of_lt (by omega), Nat.mod_eq_of_lt (by omega)]
  unfold PXARReader.walkStep
  rw [bind_reading, bind_stay (by rw [place]; omega), bind_went opened, bind_reading,
    bind_stay (Nat.not_lt_of_le (Nat.le_add_right 16 _)), bind_reading, bind_stay]
  have remaining : (pr.size - (w.use (.header o)).offset) % 2 ^ 64 = ((pr.ra.length - o : Nat) : Int) := by
    rw [size_eq, show (w.use (Use.header o)).offset = o from place]
    omega
  rw [remaining, Int.toNat_natCast]
  dsimp only
  omega

/-! The kind of a record is what its header says. -/

variable (cb : Callback σ E) (size : Nat)

theorem record_filename : pr.record cb spanMode ⟨PXAR_FILENAME, size⟩ =
    pr.filename spanMode (int64 (int64 size - 16)) := by
  simp +decide only [PXARReader.record, ↓reduceIte]

theorem record_entry : pr.record cb spanMode ⟨PXAR_ENTRY, size⟩ = pr.entry cb (int64 (int64 size - 16)) := by
  simp +decide only [PXARReader.record, ↓reduceIte]

theorem record_payload : pr.record cb spanMode ⟨PXAR_PAYLOAD, size⟩ =
    pr.payload cb (int64 (int64 size - 16)) := by
  simp +decide only [PXARReader.record, ↓reduceIte]

theorem record_payloadRef : pr.record cb spanMode ⟨PXAR_PAYLOAD_REF, size⟩ =
    pr.payloadRef cb (int64 (int64 size - 16)) := by
  simp +decide only [PXARReader.record, ↓reduceIte]

theorem record_symlink : pr.record cb spanMode ⟨PXAR_SYMLINK, size⟩ =
    pr.symlink cb (int64 (int64 size - 16)) := by
  simp +decide only [PXARReader.record, ↓reduceIte]

theorem record_goodbye : pr.record cb spanMode ⟨PXAR_GOODBYE, size⟩ = PXARReader.goodbye spanMode size := by
  simp +decide only [PXARReader.record, ↓reduceIte]

theorem record_version : pr.record cb spanMode ⟨PXAR_FORMAT_VERSION, size⟩ = skip (int64 size) := by
  simp +decide only [PXARReader.record, ↓reduceIte]

end

/-! The records of an entry. -/

/-- A name or a target that the walk reads back: no NUL ends it, and a buffer can hold it. -/
structure Legible (text : Bytes) : Prop where
  ends : text.getLast? ≠ some 0
  short : text.length < maxAlloc

theorem dropWhile_fixed {p : UInt8 → Bool} {text : Bytes} (front : ∀ c, text.head? = some c → ¬ p c = true) :
    text.dropWhile p = text := by
  cases text with
  | nil => rfl
  | cons c rest => exact List.dropWhile_cons_of_neg (front c rfl)

theorem trimRight_legible {text : Bytes} (legible : Legible text) : trimRight (text ++ [0]) = text := by
  unfold trimRight
  rw [List.reverse_append, List.reverse_singleton, List.singleton_append, List.dropWhile_cons_of_pos (by rfl),
    dropWhile_fixed, List.reverse_reverse]
  intro c last zero
  rw [List.head?_reverse, beq_iff_eq.mp zero] at last
  exact legible.ends last

theorem legible_letter {c : UInt8} (some_ : c ≠ 0) : Legible [c] :=
  ⟨fun wrong => some_ (Option.some.inj wrong), show ((1 : Nat) : Int) < maxAlloc by decide⟩

section

variable {σ E : Type} {pr : PXARReader} {f : σ → PXARTreeEntry → Option Section → σ} {stop : Int}
  {spanMode : Bool} {o : Nat} {w : Walk σ}

theorem content_size {n : Nat} (fits : 16 + n < 2 ^ 63) : int64 (int64 ((16 + n : Nat) : Int) - 16) = n := by
  rw [int64_nat fits]
  have same : ((16 + n : Nat) : Int) - 16 = n := by omega
  rw [same]
  exact int64_nat (by omega)

/-- Records are short of what an offset can be. -/
theorem Holds.fits {stream : Stream} {bytes : Bytes} (holds : Holds stream o bytes) :
    o + bytes.length < 2 ^ 63 := Nat.lt_of_le_of_lt holds.inside stream.fits

theorem read_went {data : Bytes} {failed : ReadError → WalkError E} (holds : Holds pr.ra o data)
    (place : w.offset = o) (short : data.length ≤ maxAlloc) : pr.read data.length failed w =
      .went data { w.use (.content o data.length) with offset := ((o + data.length : Nat) : Int) } := by
  have fits := holds.fits
  have inside := holds.inside
  have next : int64 (w.offset + data.length) = ((o + data.length : Nat) : Int) := by
    rw [place, ← Int.natCast_add]
    exact int64_nat fits
  rw [PXARReader.read, next, size_eq, if_neg (by omega), if_neg (by omega), Int.toNat_natCast, place,
    holds.readAt]

theorem used (u : Use) (place : w.offset = o) : (w.use u).offset = o := place

theorem skip_header {g : Unit → Step σ E Unit} (place : w.offset = o) (fits : o + 16 < 2 ^ 63) :
    (skip 16 >>= g) w = g () { w with offset := ((o + 16 : Nat) : Int) } := by
  have next : int64 (w.offset + 16) = ((o + 16 : Nat) : Int) := by
    rw [place]
    exact int64_nat fits
  rw [skip, bind_change, next]

/-- A text and the NUL behind it. -/
theorem text_holds {type : Nat} {text : Bytes} (legible : Legible text)
    (holds : Holds pr.ra o (header type (16 + text.length + 1) ++ text ++ [0])) :
    Holds pr.ra o (header type (16 + (text ++ [0]).length) ++ (text ++ [0])) ∧
      (text ++ [0]).length ≤ maxAlloc ∧
      o + 16 + (text ++ [0]).length = o + (17 + text.length) := by
  have size : (text ++ [0]).length = text.length + 1 := List.length_append
  have short := legible.short
  rw [List.append_assoc, Nat.add_assoc, ← size] at holds
  refine ⟨holds, ?_, ?_⟩ <;> omega

theorem content_short {type n : Nat} {content : Bytes} (holds : Holds pr.ra o (header type n ++ content)) :
    o + 16 + content.length < 2 ^ 63 := by
  have fits := holds.fits
  rwa [List.length_append, header_length, ← Nat.add_assoc] at fits

/-- A handler that reads the content of its record first. -/
theorem content_read {type : Nat} {content : Bytes} {failed : ReadError → WalkError E}
    {g : Bytes → Step σ E Unit}
    (holds : Holds pr.ra o (header type (16 + content.length) ++ content)) (place : w.offset = o)
    (short : content.length ≤ maxAlloc) :
    (skip 16 >>= fun _ => pr.read content.length failed >>= g) w =
      g content { w with
        offset := ((o + 16 + content.length : Nat) : Int)
        uses := w.uses ++ [.content ((o + 16 : Nat) : Int) content.length] } := by
  have fits := content_short holds
  have right := holds.right
  rw [header_length] at right
  rw [skip_header place (by omega), bind_went (read_went right rfl short)]
  rfl

/-- The name of an entry. In a span of a folder's entry no second name may stand at its top. -/
theorem filename_turn {name : Bytes} (holds : Holds pr.ra o (filenameRecord name)) (legible : Legible name)
    (place : w.offset = o) (before : (o : Int) < stop)
    (single : spanMode = true → w.pathStack = [] → w.topLevelNames = 0) :
    ∃ uses names, pr.walkStep (gathers f : Callback σ E) stop spanMode w = .went () { w with
      offset := ((o + (17 + name.length) : Nat) : Int)
      pendingName := name
      topLevelNames := names
      uses := uses } := by
  unfold filenameRecord at holds
  obtain ⟨holds, short, next⟩ := text_holds legible holds
  have fits := content_short holds
  rw [turn_record (by decide) holds place before, record_filename, content_size (by omega)]
  unfold PXARReader.filename
  have further {v : Walk σ} (placed : v.offset = o) :
      ∃ uses, (skip 16 >>= fun _ => pr.read (name ++ [0]).length .readFilename >>= fun data =>
        change fun w => { w with pendingName := trimRight data } : Step σ E Unit) v = .went () { v with
          offset := ((o + (17 + name.length) : Nat) : Int)
          pendingName := name
          uses := uses } := by
    rw [content_read holds placed short, next, trimRight_legible legible]
    exact ⟨_, rfl⟩
  rw [bind_reading]
  by_cases top : spanMode = true ∧ w.pathStack = []
  · rw [if_pos (by exact top)]
    have none_ := single top.1 top.2
    obtain ⟨uses, went⟩ := further (v := { w.use (.header o) with topLevelNames := 1 }) place
    refine ⟨uses, 1, Eq.trans (bind_went (a := ()) ?_) went⟩
    rw [bind_change]
    show leave (1 < w.topLevelNames + 1) .stopped _ = _
    have one : (w.use (.header o)).topLevelNames + 1 = 1 := congrArg (· + 1) none_
    rw [leave, if_neg (by omega), one]
  · rw [if_neg (by exact top)]
    obtain ⟨uses, went⟩ := further (v := w.use (.header o)) place
    exact ⟨uses, w.topLevelNames, went⟩

end

/-- An ENTRY behind its header. -/
def entryBody (m : EntryMeta) : Bytes :=
  encode 8 m.mode ++ (encode 8 0 ++ (encode 4 m.uid ++ (encode 4 m.gid ++ (encode 8 m.secs ++
    (encode 4 m.nanos ++ encode 4 0)))))

theorem entryBody_length (m : EntryMeta) : (entryBody m).length = 40 := by
  simp [entryBody]

theorem entryRecord_eq (m : EntryMeta) : entryRecord m =
    header PXAR_ENTRY (16 + (entryBody m).length) ++ entryBody m := by
  rw [entryBody_length, entryRecord, FileContent.entryFront, entryBody]
  simp only [List.append_assoc]

theorem field_behind {a b : Bytes} {o size : Nat} (before : a.length ≤ o) :
    field (a ++ b) o size = field b (o - a.length) size := by
  rw [field, field, List.drop_append, List.drop_eq_nil_of_le before, List.nil_append]

theorem entry_fields (m : EntryMeta) :
    field (entryBody m) 0 8 = m.mode % 2 ^ 64 ∧ field (entryBody m) 24 8 = m.secs % 2 ^ 64 ∧
    field (entryBody m) 16 4 = m.uid % 2 ^ 32 ∧ field (entryBody m) 20 4 = m.gid % 2 ^ 32 ∧
    field (entryBody m) 32 4 = m.nanos % 2 ^ 32 := by
  unfold entryBody
  refine ⟨field_encode, ?_, ?_, ?_, ?_⟩
  all_goals
    repeat rw [field_behind (by rw [encode_length]; decide), encode_length]
    exact field_encode

/-- Three words of 8 bytes in a row. -/
theorem words_read {a b c : Nat} (small : a < 2 ^ 64 ∧ b < 2 ^ 64 ∧ c < 2 ^ 64) :
    field (encode 8 a ++ encode 8 b ++ encode 8 c) 0 8 = a ∧
      field (encode 8 a ++ encode 8 b ++ encode 8 c) 8 8 = b ∧
      field (encode 8 a ++ encode 8 b ++ encode 8 c) 16 8 = c := by
  rw [List.append_assoc]
  refine ⟨?_, ?_, ?_⟩
  · rw [field_encode, Nat.mod_eq_of_lt (by omega)]
  · rw [field_behind (by rw [encode_length]), encode_length, field_encode, Nat.mod_eq_of_lt (by omega)]
  · rw [field_behind (by rw [encode_length]; decide), encode_length, field_behind (by rw [encode_length]),
      encode_length, ← List.append_nil (encode 8 c), field_encode, Nat.mod_eq_of_lt (by omega)]

section

variable {σ E : Type} {pr : PXARReader} {f : σ → PXARTreeEntry → Option Section → σ} {stop : Int}
  {spanMode : Bool} {o : Nat} {w : Walk σ}

/-- What an ENTRY makes the pending file. -/
def pend (m : EntryMeta) (w : Walk σ) : Walk σ := { w with
  pendingFileMode := m.mode % 2 ^ 64
  pendingFileMtime := m.secs % 2 ^ 64
  pendingUID := m.uid % 2 ^ 32
  pendingGID := m.gid % 2 ^ 32
  pendingNanos := m.nanos % 2 ^ 32
  hasPendingFile := true }

theorem entry_turn {m : EntryMeta} (spanMode : Bool) (holds : Holds pr.ra o (entryRecord m))
    (place : w.offset = o) (before : (o : Int) < stop) :
    ∃ uses, pr.walkStep (gathers f : Callback σ E) stop spanMode w =
      (if m.mode % 2 ^ 64 &&& IFMT = IFDIR then PXARReader.directory (gathers f : Callback σ E)
        (m.mode % 2 ^ 64)
          (m.secs % 2 ^ 64) (m.uid % 2 ^ 32) (m.gid % 2 ^ 32) (m.nanos % 2 ^ 32)
        else change (pend m)) { w with offset := ((o + 56 : Nat) : Int), uses := uses } := by
  rw [entryRecord_eq] at holds
  have length := entryBody_length m
  have fits := content_short holds
  rw [turn_record (by decide) holds place before, record_entry, content_size (by omega)]
  unfold PXARReader.entry
  rw [content_read holds (used _ place) (by rw [length]; decide)]
  obtain ⟨mode, secs, uid, gid, nanos⟩ := entry_fields m
  have long : 32 ≤ (entryBody m).length := by omega
  have longer : 36 ≤ (entryBody m).length := by omega
  simp only [if_pos long, if_pos longer, mode, secs, uid, gid, nanos]
  rw [length]
  exact ⟨_, rfl⟩

end

/-! The last record of an entry. -/

/-- An entry of which only the kind, the size and the place of the content are to come. -/
def nodeEntry (path name : Bytes) (m : EntryMeta) : PXARTreeEntry where
  path := joinArchivePath path name
  isDir := false
  size := 0
  mode := m.mode % 2 ^ 64 % 2 ^ 32
  modTime := int64 (m.secs % 2 ^ 64 : Nat)
  modNanos := m.nanos % 2 ^ 32
  modTimeSet := true
  uid := m.uid % 2 ^ 32
  gid := m.gid % 2 ^ 32
  isSymlink := false
  linkTarget := []
  weight := 0
  payloadOffset := 0
  hasPayloadRef := false

section

variable {σ E : Type} {pr : PXARReader} {f : σ → PXARTreeEntry → Option Section → σ} {stop : Int}
  {spanMode : Bool} {o : Nat} {w : Walk σ}

def handed : Option Section → List Use
  | some s => [.handed s]
  | none => []

theorem emit_gathers (e : PXARTreeEntry) (s : Option Section) :
    emit (gathers f : Callback σ E) e s w = .went () { w with
      gathered := f w.gathered { e with weight := 0 } s
      uses := w.uses ++ handed s } := by
  cases s with
  | none =>
      rw [handed, List.append_nil]
      rfl
  | some s => rfl

theorem show_pending (g h : Walk σ → Walk σ) (e : PXARTreeEntry) (s : Option Section) :
    (change g >>= fun _ => emit (gathers f) e s >>= fun _ => change h : Step σ E Unit) w =
      .went () (h { g w with
        gathered := f (g w).gathered { e with weight := 0 } s
        uses := (g w).uses ++ handed s }) := by
  rw [bind_change, bind_went (emit_gathers e s)]
  rfl

/-- Behind so many entries: what the callback has gathered of them, and the next record's place. -/
structure Passed (f : σ → PXARTreeEntry → Option Section → σ) (shown : List Shown)
    (next : Nat) (w w' : Walk σ) : Prop where
  offset : w'.offset = next
  stack : w'.pathStack = w.pathStack
  path : w'.currentPath = w.currentPath
  root : w'.rootSeen = w.rootSeen
  gathered : w'.gathered = shown.foldl (fun g e => f g e.1 e.2) w.gathered

theorem Passed.trans {first second : List Shown} {middle next : Nat} {w' last : Walk σ}
    (before : Passed f first middle w w') (after : Passed f second next w' last) :
    Passed f (first ++ second) next w last where
  offset := after.offset
  stack := after.stack.trans before.stack
  path := after.path.trans before.path
  root := after.root.trans before.root
  gathered := by rw [after.gathered, before.gathered, List.foldl_append]

theorem Passed.place {shown : List Shown} {next next' : Nat} {w' : Walk σ}
    (passed : Passed f shown next w w') (same : next = next') : Passed f shown next' w w' := same ▸ passed

theorem payload_turn {content : Bytes} (spanMode : Bool) (holds : Holds pr.ra o (payloadRecord content))
    (place : w.offset = o) (before : (o : Int) < stop) (pending : w.hasPendingFile = true) :
    ∃ w', pr.walkStep (gathers f : Callback σ E) stop spanMode w = .went () w' ∧
      Passed f [({ pendingEntry w with size := content.length }, some ⟨.ra, o + 16, content.length⟩)]
        (o + (16 + content.length)) w w' := by
  rw [payloadRecord, Nat.add_comm] at holds
  have fits := holds.fits
  have inside := holds.inside
  rw [List.length_append, header_length] at fits inside
  rw [turn_record (by decide) holds place before, record_payload, content_size (by omega)]
  unfold PXARReader.payload
  have next : int64 (((o + 16 : Nat) : Int) + content.length) =
    ((o + (16 + content.length) : Nat) : Int) := by
    rw [← Int.natCast_add, Nat.add_assoc]
    exact int64_nat fits
  rw [skip_header (used _ place) (by omega), bind_reading, bind_stay (by rw [next, size_eq]; omega),
    bind_reading, if_pos (by exact pending)]
  rw [bind_went (show_pending _ _ _ _)]
  refine ⟨_, rfl, next, rfl, rfl, rfl, ?_⟩
  rw [Int.toNat_natCast, uint64_same _ (by omega)]
  rfl


/-- What a reference's record leads to: nothing, for a reader of the metadata alone. -/
def refSection (pr : PXARReader) (q size : Nat) : Option Section :=
  if pr.metaOnly then none
  else some ⟨if pr.lazyPayload then .checkedPayload q size else .payloadRA, q + 16, size⟩

def checkedAt (pr : PXARReader) (q : Nat) : List Use :=
  if pr.metaOnly ∨ pr.lazyPayload then [] else [.payloadHeader q]

/-- The payload stream holds a file's content at q. -/
structure Referred (pr : PXARReader) (q : Nat) (content : Bytes) : Prop where
  stream : ∃ p, pr.payloadRA = some p ∧ Holds p q (payloadRecord content)

theorem check_matches {p : Stream} {q : Nat} {content : Bytes} (holds : Holds p q (payloadRecord content)) :
    PXARReader.checkPayloadHeader p q content.length = .ok () := by
  have fits := holds.fits
  rw [payloadRecord_length] at fits
  unfold payloadRecord at holds
  have read := holds.left.readAt
  rw [header_length] at read
  rw [PXARReader.checkPayloadHeader, int64_nat (by omega), read, PXARReader.matchingHeader, header,
    field_encode,
    field_right (encode_length 8 PXAR_PAYLOAD), ← List.append_nil (encode 8 (content.length + 16)),
      field_encode,
    if_neg]
  rintro (wrong | wrong)
  · exact wrong (by decide)
  · exact wrong rfl

theorem referred_went {path : Bytes} {q : Nat} {content : Bytes} (there : Referred pr q content) :
    (pr.referred path q content.length : Step σ E (Option Section)) w =
      .went (refSection pr q content.length) { w with uses := w.uses ++ checkedAt pr q } := by
  obtain ⟨p, stream, holds⟩ := there
  have fits := holds.fits
  have inside := holds.inside
  rw [payloadRecord_length] at fits inside
  have place : int64 (int64 (q : Int) + 16) = q + 16 := by
    rw [int64_nat (by omega)]
    exact int64_same _ (by omega) (by omega)
  unfold PXARReader.referred refSection checkedAt
  cases meta_ : pr.metaOnly with
  | true =>
      rw [if_pos rfl, if_pos rfl, if_pos (.inl rfl), List.append_nil]
      rfl
  | false =>
      rw [if_neg Bool.false_ne_true, if_neg Bool.false_ne_true]
      have bounds : ¬ (p.length < q ∨ p.length < content.length ∨ p.length <
        uint64 (q + 16 + content.length)) := by
        rw [uint64_same _ (by omega)]
        omega
      cases lazy_ : pr.lazyPayload with
      | true =>
          refine bind_went ?_
          rw [PXARReader.payloadSection, stream]
          dsimp only
          rw [if_neg bounds, if_pos lazy_, place, int64_nat (by omega), if_pos rfl, if_pos (.inr rfl),
            List.append_nil]
      | false =>
          refine bind_went ?_
          rw [PXARReader.payloadSection, stream]
          dsimp only
          rw [if_neg bounds, lazy_, if_neg Bool.false_ne_true, check_matches holds, place,
            int64_nat (by omega), int64_nat (by omega), if_neg (by decide)]
          rfl

theorem ref_turn {q : Nat} {content : Bytes} (spanMode : Bool) (there : Referred pr q content)
    (holds : Holds pr.ra o (refRecord q content.length)) (place : w.offset = o) (before : (o : Int) < stop)
    (pending : w.hasPendingFile = true) :
    ∃ w', pr.walkStep (gathers f : Callback σ E) stop spanMode w = .went () w' ∧
      Passed f [({ pendingEntry w with size := content.length, payloadOffset := q, hasPayloadRef := true },
        refSection pr q content.length)] (o + 32) w w' := by
  have bound : q < 2 ^ 63 ∧ content.length < 2 ^ 63 := by
    obtain ⟨p, -, held⟩ := there
    have fits := held.fits
    rw [payloadRecord_length] at fits
    omega
  rw [refRecord, List.append_assoc] at holds
  have length : (encode 8 q ++ encode 8 content.length).length = 16 := by simp
  have size : 32 = 16 + (encode 8 q ++ encode 8 content.length).length := by rw [length]
  rw [size] at holds
  have fits := content_short holds
  rw [turn_record (by decide) holds place before, record_payloadRef, content_size (by omega)]
  unfold PXARReader.payloadRef
  have offset : field (encode 8 q ++ encode 8 content.length) 0 8 = q := by
    rw [field_encode, Nat.mod_eq_of_lt (by omega)]
  have refSize : field (encode 8 q ++ encode 8 content.length) 8 8 = content.length := by
    rw [field_right (encode_length 8 q), ← List.append_nil (encode 8 content.length), field_encode,
      Nat.mod_eq_of_lt (by omega)]
  rw [content_read holds (used _ place) (by rw [length]; decide), bind_reading,
    bind_stay (by rw [length]; decide), reading_here, if_pos (by exact pending)]
  dsimp only
  rw [offset, refSize, bind_went (referred_went there), show_pending, length]
  exact ⟨_, rfl, rfl, rfl, rfl, rfl, rfl⟩

theorem symlink_turn {target : Bytes} (spanMode : Bool) (holds : Holds pr.ra o (symlinkRecord target))
    (legible : Legible target)
    (place : w.offset = o) (before : (o : Int) < stop) (pending : w.hasPendingFile = true)
    (link : w.pendingFileMode &&& IFMT = IFLNK) :
    ∃ w', pr.walkStep (gathers f : Callback σ E) stop spanMode w = .went () w' ∧
      Passed f [({ pendingEntry w with isSymlink := true, linkTarget := target }, none)]
        (o + (17 + target.length)) w w' := by
  unfold symlinkRecord at holds
  obtain ⟨holds, short, next⟩ := text_holds legible holds
  have fits := content_short holds
  rw [turn_record (by decide) holds place before, record_symlink, content_size (by omega)]
  unfold PXARReader.symlink
  rw [content_read holds (used _ place) short, reading_here, if_pos (by exact ⟨pending, link⟩),
    show_pending, trimRight_legible legible, next]
  exact ⟨_, rfl, rfl, rfl, rfl, rfl, rfl⟩

/-- The GOODBYE of a folder that the walk has entered, or of the root in a walk of it all. -/
theorem goodbye_turn {table : List GoodbyeTable.GoodByeItem} {dirSize : Nat} (spanMode : Bool)
    (holds : Holds pr.ra o (goodbyeRecord table dirSize)) (place : w.offset = o) (before : (o : Int) < stop)
    (inside : spanMode = true → w.pathStack ≠ []) :
    ∃ uses, pr.walkStep (gathers f : Callback σ E) stop spanMode w = .went ()
      ({ w with offset := ((o + goodbyeLength table.length : Nat) : Int), uses := uses } : Walk σ).leave := by
  have whole := holds.fits
  rw [goodbyeRecord_length] at whole
  unfold goodbyeRecord at holds
  generalize content_ : table.flatMap itemRecord ++ itemRecord _ = content at holds
  have length : goodbyeLength table.length = 16 + content.length := by
    rw [← content_, List.length_append, table_length, itemRecord_length, goodbyeLength]
    omega
  rw [length] at holds whole ⊢
  rw [turn_record (by decide) holds place before, record_goodbye]
  unfold PXARReader.goodbye
  have next : int64 ((o : Int) + int64 (16 + content.length : Nat)) =
    ((o + (16 + content.length) : Nat) : Int) := by
    rw [int64_nat (by omega), ← Int.natCast_add]
    exact int64_nat whole
  rw [bind_reading, bind_stay (fun top => inside top.1 top.2), skip, bind_change, used _ place, next]
  exact ⟨_, rfl⟩

end

end ProxmoxBackup.ArchiveRecords
