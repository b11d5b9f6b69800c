import ProxmoxBackup.ExtendedAttributes
import ProxmoxBackup.NtfsAttributes
import ProxmoxBackup.RecordSectors

/-! A whole MFT record as NTFS writes it: the head, the update sequence array, the
attributes and the end marker, in sectors under an update sequence number. -/

namespace ProxmoxBackup.RecordLayout

open GoValues BoundedReads LittleEndian NtfsRecord NtfsAttributes RecordSectors
open ExtendedAttributes

structure Reference where
  record : Nat
  seq : Nat

structure FileRecord where
  lsn : Bytes
  seq : Nat
  links : Bytes
  inUse : Bool
  isDir : Bool
  moreFlags : Nat
  alloc : Bytes
  base : Option Reference
  ids : Bytes
  usnLow : UInt8
  usnHigh : UInt8
  gap : Bytes
  attributes : List Attribute
  pad : Bytes
  free : Bytes

namespace FileRecord

variable (f : FileRecord) (kept : Bytes)

def usaOff : Nat := 40 + f.ids.length

def attrOff : Nat := f.usaOff + 2 + kept.length + f.gap.length

def used : Nat := f.attrOff kept + (area f.attributes).length + 4 + f.pad.length

def flags : Nat := f.inUse.toNat + 2 * f.isDir.toNat + 4 * f.moreFlags

def ref : Nat := match f.base with
  | none => 0
  | some r => r.record + 2 ^ 48 * r.seq

/-- The head up to the sequence number. -/
def opening : Bytes :=
  magic ++ (encode 2 f.usaOff ++ (encode 2 (kept.length / 2 + 1) ++ f.lsn))

def head : Bytes :=
  f.opening kept ++ (encode 2 f.seq ++ (f.links ++ (encode 2 (f.attrOff kept) ++
    (encode 2 f.flags ++ (encode 4 (f.used kept) ++ (f.alloc ++ (encode 8 f.ref ++ f.ids)))))))

/-- The record whose update sequence array keeps these bytes. -/
def bytes : Bytes :=
  f.head kept ++ (f.usnLow :: f.usnHigh :: kept) ++
    (f.gap ++ (area f.attributes ++ (marker ++ (f.pad ++ f.free))))

/-- The record fits these sectors, its array keeps their last bytes, and the fields have
their widths. -/
structure Laid (sectors : List Sector) : Prop where
  parts : plain sectors = f.bytes (saved sectors)
  some_ : sectors ≠ []
  same : ∃ stride, (∀ s ∈ sectors, s.core.length + 2 = stride) ∧
    f.usaOff + 2 + 2 * sectors.length + 2 ≤ stride
  count : sectors.length + 1 < 256 ^ 2
  attrOff : f.attrOff (saved sectors) < 256 ^ 2
  used : f.used (saved sectors) < 256 ^ 4
  widths : f.lsn.length = 8 ∧ f.links.length = 2 ∧ f.alloc.length = 4
  seq : f.seq < 256 ^ 2
  moreFlags : f.moreFlags < 2 ^ 14
  base : ∀ r, f.base = some r → r.record < 2 ^ 48 ∧ r.seq < 2 ^ 16 ∧ 0 < f.ref
  attributes : ∀ a ∈ f.attributes, a.Laid

/-- The attributes of a record in use; those of a free one are left over. -/
def own : List Attribute := if f.inUse then f.attributes else []

/-- The base record of an extension record, else the record itself. -/
def baseOf (num : Nat) : Nat := match f.base with
  | none => num
  | some r => r.record

/-- What a record read says of one that was written, but for the base. -/
structure GivenBack (num : Nat) (r : Record) : Prop where
  num : r.num = num
  seq : r.seq = f.seq
  inUse : r.inUse = f.inUse
  isDir : r.isDir = f.isDir
  names : r.names = f.own.filterMap (·.kind.winName)
  streams : r.streams = f.own.filterMap (·.kind.stream)
  size : r.size = (f.own.filterMap (·.kind.fileSize)).getLast?.getD 0
  hasSize : r.hasSize = !(f.own.filterMap (·.kind.fileSize)).isEmpty

/-- No extension of record 0, whose number is none's. -/
def BaseKnown (num : Nat) : Prop := ∀ r, f.base = some r → r.record = 0 → num = 0

end FileRecord

variable {f : FileRecord} {sectors : List Sector}

theorem opening_length (laid : f.Laid sectors) : (f.opening (saved sectors)).length = 16 := by
  have lsn := laid.widths.1
  simp [FileRecord.opening, magic, lsn]

theorem head_length (laid : f.Laid sectors) : (f.head (saved sectors)).length = f.usaOff := by
  obtain ⟨lsn, links, alloc⟩ := laid.widths
  simp only [FileRecord.head, List.length_append, opening_length laid, encode_length, links, alloc,
    FileRecord.usaOff]
  omega

/-! The fields of the head. -/

theorem read_usaOff (laid : f.Laid sectors) (rest : Bytes) :
    (readNumber (f.head (saved sectors) ++ rest) 4 2 : Outcome Empty Nat) = .ok f.usaOff := by
  have near := laid.attrOff
  unfold FileRecord.attrOff at near
  simp only [FileRecord.head, FileRecord.opening, List.append_assoc]
  exact readNumber_middle magic _ rfl (by omega)

theorem read_usaCount (laid : f.Laid sectors) (rest : Bytes) :
    (readNumber (f.head (saved sectors) ++ rest) 6 2 : Outcome Empty Nat) =
      .ok (sectors.length + 1) := by
  have count : (saved sectors).length / 2 + 1 = sectors.length + 1 := by
    rw [saved_length]
    omega
  have regroup := List.append_assoc magic (encode 2 f.usaOff)
  simp only [FileRecord.head, FileRecord.opening, List.append_assoc, count]
  rw [← regroup]
  exact readNumber_middle _ _ (by simp [magic]) laid.count

theorem read_seq (laid : f.Laid sectors) (rest : Bytes) :
    (readNumber (f.head (saved sectors) ++ rest) 16 2 : Outcome Empty Nat) = .ok f.seq := by
  simp only [FileRecord.head, List.append_assoc]
  exact readNumber_middle _ _ (opening_length laid).symm laid.seq

theorem read_attrOff (laid : f.Laid sectors) (rest : Bytes) :
    (readNumber (f.head (saved sectors) ++ rest) 20 2 : Outcome Empty Nat) =
      .ok (f.attrOff (saved sectors)) := by
  obtain ⟨_, links, _⟩ := laid.widths
  have parts : f.head (saved sectors) ++ rest =
      (f.opening (saved sectors) ++ (encode 2 f.seq ++ f.links)) ++
        (encode 2 (f.attrOff (saved sectors)) ++ (encode 2 f.flags ++
          (encode 4 (f.used (saved sectors)) ++ (f.alloc ++ (encode 8 f.ref ++
            (f.ids ++ rest)))))) := by
    simp only [FileRecord.head, List.append_assoc]
  rw [parts]
  exact readNumber_middle _ _ (by simp [opening_length laid, links]) laid.attrOff

theorem flags_lt (laid : f.Laid sectors) : f.flags < 256 ^ 2 := by
  have more := laid.moreFlags
  have use := Bool.toNat_le f.inUse
  have dir := Bool.toNat_le f.isDir
  unfold FileRecord.flags
  omega

theorem read_flags (laid : f.Laid sectors) (rest : Bytes) :
    (readNumber (f.head (saved sectors) ++ rest) 22 2 : Outcome Empty Nat) = .ok f.flags := by
  obtain ⟨_, links, _⟩ := laid.widths
  have parts : f.head (saved sectors) ++ rest =
      (f.opening (saved sectors) ++ (encode 2 f.seq ++ (f.links ++
        encode 2 (f.attrOff (saved sectors))))) ++ (encode 2 f.flags ++
          (encode 4 (f.used (saved sectors)) ++ (f.alloc ++ (encode 8 f.ref ++
            (f.ids ++ rest))))) := by
    simp only [FileRecord.head, List.append_assoc]
  rw [parts]
  exact readNumber_middle _ _ (by simp [opening_length laid, links]) (flags_lt laid)

theorem read_used (laid : f.Laid sectors) (rest : Bytes) :
    (readNumber (f.head (saved sectors) ++ rest) 24 4 : Outcome Empty Nat) =
      .ok (f.used (saved sectors)) := by
  obtain ⟨_, links, _⟩ := laid.widths
  have parts : f.head (saved sectors) ++ rest =
      (f.opening (saved sectors) ++ (encode 2 f.seq ++ (f.links ++
        (encode 2 (f.attrOff (saved sectors)) ++ encode 2 f.flags)))) ++
          (encode 4 (f.used (saved sectors)) ++ (f.alloc ++ (encode 8 f.ref ++
            (f.ids ++ rest)))) := by
    simp only [FileRecord.head, List.append_assoc]
  rw [parts]
  exact readNumber_middle _ _ (by simp [opening_length laid, links]) laid.used

theorem ref_lt (laid : f.Laid sectors) : f.ref < 256 ^ 8 := by
  unfold FileRecord.ref
  cases base : f.base with
  | none => decide
  | some r =>
      obtain ⟨record, seq, _⟩ := laid.base r base
      simp only
      omega

theorem read_ref (laid : f.Laid sectors) (rest : Bytes) :
    (readNumber (f.head (saved sectors) ++ rest) 32 8 : Outcome Empty Nat) = .ok f.ref := by
  obtain ⟨_, links, alloc⟩ := laid.widths
  have parts : f.head (saved sectors) ++ rest =
      (f.opening (saved sectors) ++ (encode 2 f.seq ++ (f.links ++
        (encode 2 (f.attrOff (saved sectors)) ++ (encode 2 f.flags ++
          (encode 4 (f.used (saved sectors)) ++ f.alloc)))))) ++
            (encode 8 f.ref ++ (f.ids ++ rest)) := by
    simp only [FileRecord.head, List.append_assoc]
  rw [parts]
  exact readNumber_middle _ _ (by simp [opening_length laid, links, alloc]) (ref_lt laid)

/-! What the header and the attributes give. -/

/-- What parseRecord takes from the header of the record. -/
def FileRecord.header (f : FileRecord) (num : Nat) : Record := headerOf num f.flags f.seq f.ref

theorem header_inUse (f : FileRecord) (num : Nat) : (f.header num).inUse = f.inUse := by
  have use := Bool.toNat_le f.inUse
  have bit : f.flags % 2 = f.inUse.toNat := by
    unfold FileRecord.flags
    omega
  simp only [FileRecord.header, headerOf, bit]
  cases f.inUse <;> rfl

theorem header_isDir (f : FileRecord) (num : Nat) : (f.header num).isDir = f.isDir := by
  have use := Bool.toNat_le f.inUse
  have dir := Bool.toNat_le f.isDir
  have bit : f.flags / 2 % 2 = f.isDir.toNat := by
    unfold FileRecord.flags
    omega
  simp only [FileRecord.header, headerOf, bit]
  cases f.isDir <;> rfl

/-- What the attributes of the record tell is all that was written. -/
theorem given_back {num : Nat} {r : Record}
    (told : Told (f.header num) (f.own.filterMap (·.kind.winName))
      (f.own.filterMap (·.kind.stream)) (f.own.filterMap (·.kind.fileSize)) r) :
    f.GivenBack num r where
  num := told.num
  seq := told.seq
  inUse := told.inUse.trans (header_inUse f num)
  isDir := told.isDir.trans (header_isDir f num)
  names := told.names.trans (List.nil_append _)
  streams := told.streams.trans (List.nil_append _)
  size := told.size
  hasSize := told.hasSize.trans (Bool.false_or _)

/-- The base is right but for an extension of record 0, taken for a base record. -/
theorem header_base (laid : f.Laid sectors) (num : Nat) :
    (f.header num).base = f.baseOf num ↔ f.BaseKnown num := by
  simp only [FileRecord.header, headerOf]
  cases base : f.base with
  | none => simp [FileRecord.ref, FileRecord.baseOf, FileRecord.BaseKnown, base]
  | some r =>
      obtain ⟨record, seq, _⟩ := laid.base r base
      have low : f.ref % 2 ^ 48 = r.record := by
        simp only [FileRecord.ref, base]
        omega
      have known : f.BaseKnown num ↔ (r.record = 0 → num = 0) := by
        simp [FileRecord.BaseKnown, base]
      have is : f.baseOf num = r.record := by simp [FileRecord.baseOf, base]
      rw [low, known, is]
      split <;> omega

/-- The record read from the bytes behind their fix-ups. -/
theorem fixedRecord_written (laid : f.Laid sectors) (num : Nat) :
    ∃ r, fixedRecord (f.bytes (saved sectors)) num = .ok (some r) ∧ f.GivenBack num r ∧
      r.base = (f.header num).base := by
  have whole : f.bytes (saved sectors) = f.head (saved sectors) ++
      ((f.usnLow :: f.usnHigh :: saved sectors) ++
        (f.gap ++ (area f.attributes ++ (marker ++ (f.pad ++ f.free))))) := by
    simp only [FileRecord.bytes, List.append_assoc]
  have behind : f.bytes (saved sectors) =
      (f.head (saved sectors) ++ ((f.usnLow :: f.usnHigh :: saved sectors) ++ f.gap)) ++
        (area f.attributes ++ (marker ++ (f.pad ++ f.free))) := by
    simp only [FileRecord.bytes, List.append_assoc]
  have start : (f.head (saved sectors) ++
      ((f.usnLow :: f.usnHigh :: saved sectors) ++ f.gap)).length = f.attrOff (saved sectors) := by
    simp only [List.length_append, List.length_cons, head_length laid, FileRecord.attrOff]
    omega
  have inside : f.used (saved sectors) ≤ (f.bytes (saved sectors)).length := by
    rw [behind, List.length_append, start]
    simp only [FileRecord.used, List.length_append, marker, encode_length]
    omega
  have holds : (f.head (saved sectors) ++
      ((f.usnLow :: f.usnHigh :: saved sectors) ++ f.gap)).length + (area f.attributes).length ≤
        f.used (saved sectors) := by
    rw [start]
    unfold FileRecord.used
    omega
  have flags := read_flags laid ((f.usnLow :: f.usnHigh :: saved sectors) ++
    (f.gap ++ (area f.attributes ++ (marker ++ (f.pad ++ f.free)))))
  have seq := read_seq laid ((f.usnLow :: f.usnHigh :: saved sectors) ++
    (f.gap ++ (area f.attributes ++ (marker ++ (f.pad ++ f.free)))))
  have ref := read_ref laid ((f.usnLow :: f.usnHigh :: saved sectors) ++
    (f.gap ++ (area f.attributes ++ (marker ++ (f.pad ++ f.free)))))
  have attrOff := read_attrOff laid ((f.usnLow :: f.usnHigh :: saved sectors) ++
    (f.gap ++ (area f.attributes ++ (marker ++ (f.pad ++ f.free)))))
  have used := read_used laid ((f.usnLow :: f.usnHigh :: saved sectors) ++
    (f.gap ++ (area f.attributes ++ (marker ++ (f.pad ++ f.free)))))
  rw [← whole] at flags seq ref attrOff used
  unfold fixedRecord
  rw [flags, Outcome.ok_bind, seq, Outcome.ok_bind, ref, Outcome.ok_bind]
  change ∃ r, (if !(f.header num).inUse then (pure (some (f.header num)) : Outcome Empty _)
    else ownAttributes (f.bytes (saved sectors)) (f.header num) >>= fun r => pure (some r)) =
      .ok (some r) ∧ f.GivenBack num r ∧ r.base = (f.header num).base
  rw [header_inUse]
  cases free : f.inUse with
  | false =>
      have own : f.own = [] := by rw [FileRecord.own, free]; rfl
      refine ⟨f.header num, rfl, given_back ?_, rfl⟩
      rw [own]
      exact Told.nothing _
  | true =>
      have own : f.own = f.attributes := by rw [FileRecord.own, free]; rfl
      obtain ⟨r, walked, told⟩ := attributes_told f.attributes laid.attributes
        (f.head (saved sectors) ++ ((f.usnLow :: f.usnHigh :: saved sectors) ++ f.gap))
        (f.pad ++ f.free) (by rwa [← behind]) holds (f.header num)
      rw [← behind, start] at walked
      have read : ownAttributes (f.bytes (saved sectors)) (f.header num) = .ok r := by
        unfold ownAttributes
        rw [attrOff, Outcome.ok_bind, used, Outcome.ok_bind, Nat.min_eq_left inside, walked]
      refine ⟨r, ?_, given_back ?_, told.base⟩
      · rw [read]
        rfl
      · rw [own]
        exact told

/-- A record on the disk is read as it was written. -/
theorem parseRecord_written (laid : f.Laid sectors) (num : Nat) :
    ∃ r, parseRecord (onDisk f.usnLow f.usnHigh sectors) num = .ok (some r) ∧
      f.GivenBack num r ∧ r.base = (f.header num).base := by
  obtain ⟨stride, same, early⟩ := laid.same
  have usaOff := head_length laid
  obtain ⟨restored, rest, disk⟩ := record_restored laid.some_ same laid.parts (by rwa [usaOff])
  have one : 1 ≤ sectors.length := List.length_pos_iff.mpr laid.some_
  have length : (onDisk f.usnLow f.usnHigh sectors).length = sectors.length * stride := by
    rw [onDisk_length, plain_length sectors same]
  have whole : stride ≤ sectors.length * stride := Nat.le_mul_of_pos_left stride one
  have back : 48 ≤ (onDisk f.usnLow f.usnHigh sectors).length := by
    have all : (plain sectors).length = (f.bytes (saved sectors)).length := by rw [laid.parts]
    rw [onDisk_length, all]
    simp only [FileRecord.bytes, List.length_append, List.length_cons, usaOff,
      FileRecord.usaOff, saved_length, marker, encode_length]
    omega
  have magic_ : (onDisk f.usnLow f.usnHigh sectors).take 4 = magic := by
    rw [disk]
    rfl
  have offRead : (readNumber (onDisk f.usnLow f.usnHigh sectors) 4 2 : Outcome Empty Nat) =
      .ok f.usaOff := by
    rw [disk, List.append_assoc]
    exact read_usaOff laid _
  have countRead : (readNumber (onDisk f.usnLow f.usnHigh sectors) 6 2 : Outcome Empty Nat) =
      .ok (sectors.length + 1) := by
    rw [disk, List.append_assoc]
    exact read_usaCount laid _
  have strideIs : (onDisk f.usnLow f.usnHigh sectors).length / (sectors.length + 1 - 1) = stride := by
    rw [length, Nat.add_sub_cancel]
    exact Nat.mul_div_cancel_left stride one
  obtain ⟨r, read, given, base⟩ := fixedRecord_written laid num
  rw [usaOff] at restored
  refine ⟨r, ?_, given, base⟩
  unfold parseRecord
  rw [if_neg (by rw [magic_]; simp; omega), offRead, Outcome.ok_bind, countRead, Outcome.ok_bind,
    if_neg (by rw [length]; omega), strideIs, Nat.add_sub_cancel, restored, Outcome.ok_bind]
  exact (congrArg (fixedRecord · num) laid.parts).trans read

/-- Both parsers return for all bytes. Entries of an $EA that do not overlap give no more
bytes of values than there are, and a record laid out as NTFS does comes back, with its
base unless it is an extension of record 0. -/
theorem records_parsed (b : Bytes) (num : Nat) :
    (∃ found, parseRecord b num = .ok found) ∧
    (∃ eas, parseEAs b = .ok eas ∧ (Apart b → valueBytes eas ≤ b.length)) ∧
    (∀ (f : FileRecord) (sectors : List Sector), f.Laid sectors →
      onDisk f.usnLow f.usnHigh sectors = b →
        ∃ r, parseRecord b num = .ok (some r) ∧ f.GivenBack num r ∧
          (r.base = f.baseOf num ↔ f.BaseKnown num)) := by
  refine ⟨?_, ?_, ?_⟩
  · cases parsed : parseRecord b num with
    | ok found => exact ⟨found, rfl⟩
    | error impossible => cases impossible
    | panicked => exact absurd parsed (parseRecord_meets b num).not_panicked
  · obtain ⟨eas, parsed, bound⟩ := parseFrom_spec b 0 []
    exact ⟨eas, parsed, fun apart => bound apart .first⟩
  · intro f sectors laid is
    obtain ⟨r, parsed, given, base⟩ := parseRecord_written laid num
    rw [is] at parsed
    refine ⟨r, parsed, given, ?_⟩
    rw [base]
    exact header_base laid num

/-- A record of a file with a name and a non-resident $DATA, in two sectors. -/
def sample (base : Option Reference) : FileRecord where
  lsn := List.replicate 8 0
  seq := 1
  links := [1, 0]
  inUse := true
  isDir := false
  moreFlags := 0
  alloc := List.replicate 4 0
  base := base
  ids := []
  usnLow := 7
  usnHigh := 0
  gap := [0, 0]
  attributes := [
    ⟨.fileName ⟨5, 5, 1, List.replicate 56 0, [97, 0]⟩, [0, 0, 1, 0], [0, 0], [], [], [], []⟩,
    ⟨.data [] (.nonResident 0 5000), [0, 0, 2, 0], [], List.replicate 24 0, [], [], []⟩]
  pad := List.replicate 4 0
  free := List.replicate 4 0

def sampleSectors (base : Option Reference) : List Sector :=
  [⟨((sample base).bytes [0, 0, 0, 0]).take 102, 0, 0⟩,
    ⟨(((sample base).bytes [0, 0, 0, 0]).drop 104).take 102, 0, 0⟩]

theorem sample_attributes (base : Option Reference) : ∀ a ∈ (sample base).attributes, a.Laid := by
  intro a among
  simp only [sample, List.mem_cons, List.not_mem_nil, or_false] at among
  cases among with
  | inl first =>
      subst first
      constructor
      case resident =>
        intro content is
        cases is
        decide
      case entry =>
        intro e is
        cases is
        exact ⟨by decide, by decide, by decide, by decide, by decide⟩
      case nonResident => exact fun _ _ is => by cases is
      case other => exact fun _ _ _ is => by cases is
      case name => exact ⟨rfl, by decide⟩
      all_goals decide
  | inr second =>
      subst second
      constructor
      case nonResident =>
        intro firstVCN real is
        cases is
        decide
      case resident => exact fun _ is => by cases is
      case entry => exact fun _ is => by cases is
      case other => exact fun _ _ _ is => by cases is
      case name => exact ⟨rfl, by decide⟩
      all_goals decide

theorem sample_laid {base : Option Reference} (either : base = none ∨ base = some ⟨0, 1⟩) :
    (sample base).Laid (sampleSectors base) := by
  constructor
  case parts => cases either with
    | inl none_ => subst none_; decide +kernel
    | inr some_ => subst some_; decide +kernel
  case base =>
    intro r is
    cases either with
    | inl none_ => subst none_; cases is
    | inr some_ => subst some_; cases is; decide
  case same => cases either with
    | inl none_ => subst none_; exact ⟨104, by decide +kernel⟩
    | inr some_ => subst some_; exact ⟨104, by decide +kernel⟩
  case attributes => exact sample_attributes base
  case some_ => exact List.cons_ne_nil _ _
  all_goals cases either with
    | inl none_ => subst none_; decide +kernel
    | inr some_ => subst some_; decide +kernel

/-- One entry, the last. -/
def oneEntry : Bytes := [0, 0, 0, 0, 0, 1, 1, 0, 65, 0, 66]

theorem oneEntry_apart : Apart oneEntry := by
  have here : ExtendedAttributes.entryAt oneEntry 0 = some ⟨0, 0, 1, 1⟩ := by decide +kernel
  have only : ∀ off, Visits oneEntry off → off = 0 := by
    intro off visited
    induction visited with
    | first => rfl
    | next visited entry more ih =>
        subst ih
        rw [here] at entry
        cases entry
        exact absurd rfl more
  intro off h visited entry
  rw [only off visited, here] at entry
  cases entry
  exact .inl rfl

/-- One entry and one record, read back. -/
theorem records_parsed_sample :
    (∃ eas, parseEAs oneEntry = .ok eas ∧ valueBytes eas ≤ oneEntry.length) ∧
    ∃ r, parseRecord (onDisk 7 0 (sampleSectors none)) 24 = .ok (some r) ∧
      (sample none).GivenBack 24 r ∧ r.base = 24 := by
  obtain ⟨eas, parsed, bound⟩ := (records_parsed oneEntry 0).2.1
  obtain ⟨r, read, given, base⟩ := (records_parsed (onDisk 7 0 (sampleSectors none)) 24).2.2
    (sample none) (sampleSectors none) (sample_laid (.inl rfl)) rfl
  exact ⟨⟨eas, parsed, bound oneEntry_apart⟩, r, read, given, base.mpr (fun _ is => by cases is)⟩

/-- Three headers, each inside the entry before it. -/
def overlapping : Bytes :=
  [8, 0, 0, 0, 0, 1, 30, 0] ++ ([8, 0, 0, 0, 0, 1, 22, 0] ++ List.replicate 24 0)

/-- 52 bytes of values from 40, and an extension of record 0 taken for a base record. -/
theorem values_overlap :
    (∃ eas, parseEAs overlapping = .ok eas ∧ overlapping.length < valueBytes eas) ∧
    ∃ r, parseRecord (onDisk 7 0 (sampleSectors (some ⟨0, 1⟩))) 24 = .ok (some r) ∧
      r.base ≠ (sample (some ⟨0, 1⟩)).baseOf 24 := by
  constructor
  · have first : headerAt overlapping 0 = .ok ⟨8, 0, 1, 30⟩ := rfl
    have second : headerAt overlapping 8 = .ok ⟨8, 0, 1, 22⟩ := rfl
    have third : headerAt overlapping 16 = .ok ⟨0, 0, 0, 0⟩ := rfl
    have firstEA : attributeAt overlapping 0 ⟨8, 0, 1, 30⟩ =
        .ok [⟨[8], 0, overlapping.drop 10⟩] := rfl
    have secondEA : attributeAt overlapping 8 ⟨8, 0, 1, 22⟩ =
        .ok [⟨[0], 0, overlapping.drop 18⟩] := rfl
    have stops : ∀ out, parseFrom overlapping 16 out = .ok out := by
      intro out
      rw [parseFrom, dif_pos (by decide), third, Outcome.ok_bind, if_pos (by decide)]
    have middle : ∀ out, parseFrom overlapping 8 out =
        .ok (out ++ [⟨[0], 0, overlapping.drop 18⟩]) := by
      intro out
      rw [parseFrom, dif_pos (by decide), second, Outcome.ok_bind, if_neg (by decide), secondEA,
        Outcome.ok_bind, dif_neg (by decide)]
      exact stops _
    refine ⟨[⟨[8], 0, overlapping.drop 10⟩, ⟨[0], 0, overlapping.drop 18⟩], ?_, by decide⟩
    rw [parseEAs, parseFrom, dif_pos (by decide), first, Outcome.ok_bind, if_neg (by decide),
      firstEA, Outcome.ok_bind, dif_neg (by decide)]
    exact middle _
  · obtain ⟨r, read, _, base⟩ := parseRecord_written (sample_laid (.inr rfl)) 24
    refine ⟨r, read, ?_⟩
    rw [base]
    decide

end ProxmoxBackup.RecordLayout
