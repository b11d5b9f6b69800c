import ProxmoxBackup.NtfsRecord

/-! The attributes of an MFT record as NTFS lays them out, resident and non-resident, and
what parseRecord reads from them. -/

namespace ProxmoxBackup.NtfsAttributes

open GoValues BoundedReads Slices LittleEndian NtfsRecord

/-! An attribute as NTFS lays it out. -/

/-- A non-resident value by its first cluster in the stream and its real size. -/
inductive Value where
  | resident (content : Bytes)
  | nonResident (firstVCN real : Nat)

/-- The $FILE_NAME of a record; `info` is the times, the sizes and the flags. -/
structure NameEntry where
  parent : Nat
  parentSeq : Nat
  namespace_ : UInt8
  info : Bytes
  name : Bytes

inductive Kind where
  | fileName (entry : NameEntry)
  | data (name : Bytes) (value : Value)
  | other (typ : Nat) (name : Bytes) (value : Value)

/-- An attribute and the parts of it that parseRecord passes over: its flags and id, what
stands between the fields of its value, and what stands behind the name and the content. -/
structure Attribute where
  kind : Kind
  tags : Bytes
  indexed : Bytes
  extents : Bytes
  sizes : Bytes
  gap : Bytes
  tail : Bytes

def NameEntry.bytes (e : NameEntry) : Bytes :=
  encode 8 (e.parent + 2 ^ 48 * e.parentSeq) ++
    (e.info ++ (UInt8.ofNat (e.name.length / 2) :: e.namespace_ :: e.name))

def Kind.typ : Kind → Nat
  | .fileName _ => 0x30
  | .data _ _ => 0x80
  | .other typ _ _ => typ

def Kind.name : Kind → Bytes
  | .fileName _ => []
  | .data name _ | .other _ name _ => name

def Kind.value : Kind → Value
  | .fileName entry => .resident entry.bytes
  | .data _ value | .other _ _ value => value

def Value.outside : Value → Bool
  | .resident _ => false
  | .nonResident _ _ => true

/-- What stands in the record of a value. -/
def Value.content : Value → Bytes
  | .resident content => content
  | .nonResident _ _ => []

def Attribute.nonResident (a : Attribute) : Bool := a.kind.value.outside

/-- What stands before the name behind the first 16 bytes. -/
def Attribute.fields (a : Attribute) : Bytes :=
  match a.kind.value with
  | .resident content =>
      encode 4 content.length ++
        (encode 2 (24 + a.kind.name.length + a.gap.length) ++ a.indexed)
  | .nonResident firstVCN real => encode 8 firstVCN ++ (a.extents ++ (encode 8 real ++ a.sizes))

/-- What stands behind the name: the content, or the runs of clusters. -/
def Attribute.rest (a : Attribute) : Bytes :=
  match a.kind.value with
  | .resident content => a.gap ++ (content ++ a.tail)
  | .nonResident _ _ => a.tail

def Attribute.size (a : Attribute) : Nat :=
  16 + a.fields.length + a.kind.name.length + a.rest.length

/-- The fields behind the type and the size. -/
def Attribute.marks (a : Attribute) : Bytes :=
  (if a.nonResident then 1 else 0) :: UInt8.ofNat (a.kind.name.length / 2) ::
    (encode 2 (16 + a.fields.length) ++ a.tags)

def Attribute.head (a : Attribute) : Bytes :=
  encode 4 a.kind.typ ++ (encode 4 a.size ++ a.marks)

def Attribute.bytes (a : Attribute) : Bytes :=
  a.head ++ (a.fields ++ (a.kind.name ++ a.rest))

/-- The lengths of a name: UTF-16 units, at most 255. -/
def NameFits (name : Bytes) : Prop := name.length % 2 = 0 ∧ name.length / 2 < 256

/-- The fields have their widths, and the attribute fits a record. -/
structure Attribute.Laid (a : Attribute) : Prop where
  typ : a.kind.typ < 0xFFFFFFFF
  name : NameFits a.kind.name
  tags : a.tags.length = 4
  small : a.size < 256 ^ 4
  nameOff : 16 + a.fields.length < 256 ^ 2
  resident : ∀ content, a.kind.value = .resident content → a.indexed.length = 2 ∧
    24 + a.kind.name.length + a.gap.length < 256 ^ 2
  nonResident : ∀ firstVCN real, a.kind.value = .nonResident firstVCN real →
    a.extents.length = 24 ∧ firstVCN < 256 ^ 8 ∧ real < 256 ^ 8
  entry : ∀ e, a.kind = .fileName e → e.parent < 2 ^ 48 ∧ e.parentSeq < 2 ^ 16 ∧
    e.info.length = 56 ∧ NameFits e.name
  other : ∀ typ name value, a.kind = .other typ name value → typ ≠ 0x30 ∧ typ ≠ 0x80

/-! What such an attribute says. -/

/-- A name of the file but for a DOS alias, with the folder it is in. -/
def Kind.winName : Kind → Option FileName
  | .fileName e =>
      if e.namespace_ = 2 then none else some ⟨e.parent, e.parentSeq, decodeUTF16 e.name⟩
  | _ => none

/-- A value's size, told by its first extent. -/
def Value.told : Value → Option Nat
  | .resident content => some content.length
  | .nonResident firstVCN real => if firstVCN = 0 then some real else none

def Kind.stream : Kind → Option Stream
  | .data name value => if name = [] then none else value.told.map (⟨decodeUTF16 name, ·⟩)
  | _ => none

def Kind.fileSize : Kind → Option Nat
  | .data name value => if name = [] then value.told else none
  | _ => none

/-! Its fields are read as they were written. -/

variable {a : Attribute}

theorem nameLen_toNat {name : Bytes} (fits : NameFits name) :
    (UInt8.ofNat (name.length / 2)).toNat = name.length / 2 ∧
      2 * (name.length / 2) = name.length := by
  obtain ⟨even, short⟩ := fits
  exact ⟨by simp; omega, by omega⟩

theorem head_length (laid : a.Laid) : a.head.length = 16 := by
  simp [Attribute.head, Attribute.marks, laid.tags]

theorem bytes_length (laid : a.Laid) : a.bytes.length = a.size := by
  simp only [Attribute.bytes, List.length_append, head_length laid, Attribute.size]
  omega

theorem size_fields (laid : a.Laid) : 24 ≤ a.size := by
  cases value : a.kind.value with
  | resident content =>
      obtain ⟨indexed, _⟩ := laid.resident content value
      simp only [Attribute.size, Attribute.fields, value, List.length_append, encode_length, indexed]
      omega
  | nonResident firstVCN real =>
      simp only [Attribute.size, Attribute.fields, value, List.length_append, encode_length]
      omega

theorem read_nonResident (a : Attribute) :
    (readByte a.bytes 8 : Outcome Empty UInt8) = .ok (if a.nonResident then 1 else 0) := by
  have parts : a.bytes = (encode 4 a.kind.typ ++ encode 4 a.size) ++
      ((if a.nonResident then 1 else 0) :: (UInt8.ofNat (a.kind.name.length / 2) ::
        (encode 2 (16 + a.fields.length) ++ a.tags) ++ (a.fields ++ (a.kind.name ++ a.rest)))) := by
    simp [Attribute.bytes, Attribute.head, Attribute.marks]
  rw [parts]
  exact readByte_middle _ _ _ (by simp)

theorem read_nameLen (a : Attribute) :
    (readByte a.bytes 9 : Outcome Empty UInt8) = .ok (UInt8.ofNat (a.kind.name.length / 2)) := by
  have parts : a.bytes = (encode 4 a.kind.typ ++ (encode 4 a.size ++
      [if a.nonResident then 1 else 0])) ++ (UInt8.ofNat (a.kind.name.length / 2) ::
        ((encode 2 (16 + a.fields.length) ++ a.tags) ++
          (a.fields ++ (a.kind.name ++ a.rest)))) := by
    simp [Attribute.bytes, Attribute.head, Attribute.marks]
  rw [parts]
  exact readByte_middle _ _ _ (by simp)

theorem read_nameOff (laid : a.Laid) :
    (readNumber a.bytes 10 2 : Outcome Empty Nat) = .ok (16 + a.fields.length) := by
  have parts : a.bytes = (encode 4 a.kind.typ ++ (encode 4 a.size ++
      [if a.nonResident then 1 else 0, UInt8.ofNat (a.kind.name.length / 2)])) ++
        (encode 2 (16 + a.fields.length) ++ (a.tags ++
          (a.fields ++ (a.kind.name ++ a.rest)))) := by
    simp [Attribute.bytes, Attribute.head, Attribute.marks]
  rw [parts]
  exact readNumber_middle _ _ (by simp) laid.nameOff

theorem cut_name (laid : a.Laid) :
    (cut a.bytes (16 + a.fields.length) (16 + a.fields.length + a.kind.name.length) :
      Outcome Empty Bytes) = .ok a.kind.name := by
  have parts : a.bytes = (a.head ++ a.fields) ++ (a.kind.name ++ a.rest) := by
    simp [Attribute.bytes]
  have length := head_length laid
  rw [parts]
  exact cut_middle _ _ _ (by simp [length]) (by simp [length])

/-- The content of a resident attribute; a non-resident one has none here. -/
theorem contentOf_written (laid : a.Laid) :
    contentOf a.bytes a.nonResident = .ok a.kind.value.content := by
  cases value : a.kind.value with
  | nonResident firstVCN real =>
      have is : a.nonResident = true := by rw [Attribute.nonResident, value]; rfl
      rw [is]
      rfl
  | resident content =>
      have is : a.nonResident = false := by rw [Attribute.nonResident, value]; rfl
      obtain ⟨indexed, near⟩ := laid.resident content value
      have length := head_length laid
      have whole := bytes_length laid
      have long := size_fields laid
      have small := laid.small
      have fields : a.fields.length = 8 := by
        simp [Attribute.fields, value, indexed]
      have size : a.size = 24 + a.kind.name.length + (a.gap.length + (content.length + a.tail.length)) := by
        simp only [Attribute.size, fields, Attribute.rest, value, List.length_append]
      have cl : (readNumber a.bytes 16 4 : Outcome Empty Nat) = .ok content.length := by
        have parts : a.bytes = a.head ++ (encode 4 content.length ++
            ((encode 2 (24 + a.kind.name.length + a.gap.length) ++ a.indexed) ++
              (a.kind.name ++ a.rest))) := by
          simp [Attribute.bytes, Attribute.fields, value]
        rw [parts]
        exact readNumber_middle _ _ length.symm (by omega)
      have co : (readNumber a.bytes 20 2 : Outcome Empty Nat) =
          .ok (24 + a.kind.name.length + a.gap.length) := by
        have parts : a.bytes = (a.head ++ encode 4 content.length) ++
            (encode 2 (24 + a.kind.name.length + a.gap.length) ++ (a.indexed ++
              (a.kind.name ++ a.rest))) := by
          simp [Attribute.bytes, Attribute.fields, value]
        rw [parts]
        exact readNumber_middle _ _ (by simp [length]) near
      have taken : (cut a.bytes (24 + a.kind.name.length + a.gap.length)
          (24 + a.kind.name.length + a.gap.length + content.length) : Outcome Empty Bytes) =
            .ok content := by
        have parts : a.bytes = (a.head ++ (a.fields ++ (a.kind.name ++ a.gap))) ++
            (content ++ a.tail) := by
          simp [Attribute.bytes, Attribute.rest, value]
        rw [parts]
        exact cut_middle _ _ _ (by simp [length, fields]; omega) (by simp [length, fields]; omega)
      unfold contentOf
      rw [is, if_pos (by simp; omega), cl, Outcome.ok_bind, co, Outcome.ok_bind,
        if_pos (by omega), taken]
      rfl

theorem streamSize_written (laid : a.Laid) :
    streamSize a.bytes a.nonResident a.kind.value.content = .ok a.kind.value.told := by
  cases value : a.kind.value with
  | resident c =>
      have is : a.nonResident = false := by rw [Attribute.nonResident, value]; rfl
      rw [is]
      rfl
  | nonResident firstVCN real =>
      have is : a.nonResident = true := by rw [Attribute.nonResident, value]; rfl
      obtain ⟨extents, first, large⟩ := laid.nonResident firstVCN real value
      have length := head_length laid
      have fields : a.fields.length = 40 + a.sizes.length := by
        simp [Attribute.fields, value, extents]
        omega
      have whole := bytes_length laid
      have firstRead : (readNumber a.bytes 16 8 : Outcome Empty Nat) = .ok firstVCN := by
        have parts : a.bytes = a.head ++ (encode 8 firstVCN ++
            ((a.extents ++ (encode 8 real ++ a.sizes)) ++ (a.kind.name ++ a.rest))) := by
          simp [Attribute.bytes, Attribute.fields, value]
        rw [parts]
        exact readNumber_middle _ _ length.symm first
      have realRead : (readNumber a.bytes 48 8 : Outcome Empty Nat) = .ok real := by
        have parts : a.bytes = (a.head ++ (encode 8 firstVCN ++ a.extents)) ++
            (encode 8 real ++ (a.sizes ++ (a.kind.name ++ a.rest))) := by
          simp [Attribute.bytes, Attribute.fields, value]
        rw [parts]
        exact readNumber_middle _ _ (by simp [length, extents]) large
      have long : a.bytes.length ≥ 56 := by
        rw [whole, Attribute.size, fields]
        omega
      unfold streamSize
      rw [is, if_neg (by simp), if_pos long, firstRead, Outcome.ok_bind]
      by_cases zero : firstVCN = 0
      · rw [if_pos zero, realRead]
        simp [Value.told, zero]
        rfl
      · rw [if_neg zero]
        simp [Value.told, zero]
        rfl

/-! What a record is told by attributes. -/

/-- A record that was told more names, streams and sizes of its file. -/
structure Told (r : Record) (names : List FileName) (streams : List Stream) (sizes : List Nat)
    (after : Record) : Prop where
  num : after.num = r.num
  base : after.base = r.base
  seq : after.seq = r.seq
  inUse : after.inUse = r.inUse
  isDir : after.isDir = r.isDir
  names : after.names = r.names ++ names
  streams : after.streams = r.streams ++ streams
  size : after.size = sizes.getLast?.getD r.size
  hasSize : after.hasSize = (r.hasSize || !sizes.isEmpty)

theorem Told.nothing (r : Record) : Told r [] [] [] r := by
  constructor <;> simp

theorem Told.trans {r middle after : Record} {names moreNames : List FileName}
    {streams moreStreams : List Stream} {sizes moreSizes : List Nat}
    (first : Told r names streams sizes middle)
    (second : Told middle moreNames moreStreams moreSizes after) :
    Told r (names ++ moreNames) (streams ++ moreStreams) (sizes ++ moreSizes) after where
  num := second.num.trans first.num
  base := second.base.trans first.base
  seq := second.seq.trans first.seq
  inUse := second.inUse.trans first.inUse
  isDir := second.isDir.trans first.isDir
  names := by rw [second.names, first.names, List.append_assoc]
  streams := by rw [second.streams, first.streams, List.append_assoc]
  size := by
    rw [second.size, first.size, List.getLast?_append]
    cases moreSizes.getLast? <;> rfl
  hasSize := by
    rw [second.hasSize, first.hasSize, Bool.or_assoc]
    cases sizes <;> simp

/-- $STANDARD_INFORMATION tells none of these. -/
theorem standardInformation_told (content : Bytes) (r : Record) :
    ∃ after, standardInformation content r = .ok after ∧ Told r [] [] [] after := by
  unfold standardInformation
  split
  · next long =>
      rw [readNumber_inside (by omega), Outcome.ok_bind, readNumber_inside (by omega),
        Outcome.ok_bind, readNumber_inside (by omega), Outcome.ok_bind]
      unfold securityID
      split
      · rw [readNumber_inside (by omega), Outcome.ok_bind]
        refine ⟨_, rfl, ?_⟩
        constructor <;> simp
      · refine ⟨_, rfl, ?_⟩
        constructor <;> simp
  · exact ⟨r, rfl, Told.nothing r⟩

theorem fileName_told {e : NameEntry} (parent : e.parent < 2 ^ 48) (seq : e.parentSeq < 2 ^ 16)
    (info : e.info.length = 56) (fits : NameFits e.name) (r : Record) :
    ∃ after, fileName e.bytes r = .ok after ∧
      Told r (Kind.fileName e).winName.toList [] [] after := by
  obtain ⟨count, double⟩ := nameLen_toNat fits
  have length : e.bytes.length = 66 + e.name.length := by
    simp [NameEntry.bytes, info]
    omega
  have refRead : (readNumber e.bytes 0 8 : Outcome Empty Nat) =
      .ok (e.parent + 2 ^ 48 * e.parentSeq) := readNumber_first _ (by omega)
  have countRead : (readByte e.bytes 64 : Outcome Empty UInt8) =
      .ok (UInt8.ofNat (e.name.length / 2)) := by
    have parts : e.bytes = (encode 8 (e.parent + 2 ^ 48 * e.parentSeq) ++ e.info) ++
        (UInt8.ofNat (e.name.length / 2) :: e.namespace_ :: e.name) := by
      simp [NameEntry.bytes]
    rw [parts]
    exact readByte_middle _ _ _ (by simp [info])
  have spaceRead : (readByte e.bytes 65 : Outcome Empty UInt8) = .ok e.namespace_ := by
    have parts : e.bytes = (encode 8 (e.parent + 2 ^ 48 * e.parentSeq) ++ (e.info ++
        [UInt8.ofNat (e.name.length / 2)])) ++ (e.namespace_ :: e.name) := by
      simp [NameEntry.bytes]
    rw [parts]
    exact readByte_middle _ _ _ (by simp [info])
  have nameCut : (cut e.bytes 66 (66 + e.name.length) : Outcome Empty Bytes) = .ok e.name := by
    have parts : e.bytes = (encode 8 (e.parent + 2 ^ 48 * e.parentSeq) ++ (e.info ++
        [UInt8.ofNat (e.name.length / 2), e.namespace_])) ++ (e.name ++ []) := by
      simp [NameEntry.bytes]
    rw [parts]
    exact cut_middle _ _ _ (by simp [info]) (by simp [info])
  have low : (e.parent + 2 ^ 48 * e.parentSeq) % 2 ^ 48 = e.parent := by omega
  have high : (e.parent + 2 ^ 48 * e.parentSeq) / 2 ^ 48 = e.parentSeq := by
    rw [Nat.add_mul_div_left _ _ (Nat.two_pow_pos 48), Nat.div_eq_of_lt parent, Nat.zero_add]
  unfold fileName
  rw [if_pos (by omega), countRead, Outcome.ok_bind, spaceRead, Outcome.ok_bind, count, double]
  by_cases dos : e.namespace_ = 2
  · rw [if_pos (.inl dos)]
    refine ⟨r, rfl, ?_⟩
    have none_ : (Kind.fileName e).winName = none := by simp [Kind.winName, dos]
    rw [none_]
    exact Told.nothing r
  · have inside : ¬ (e.namespace_ = 2 ∨ 66 + e.name.length > e.bytes.length) := by
      intro either
      cases either with
      | inl same => exact dos same
      | inr long => omega
    rw [if_neg inside, refRead, Outcome.ok_bind, nameCut, Outcome.ok_bind, low, high]
    refine ⟨_, rfl, ?_⟩
    constructor <;> simp [Kind.winName, dos]

theorem flag_written (a : Attribute) :
    decide ((if a.nonResident then (1 : UInt8) else 0) ≠ 0) = a.nonResident := by
  cases a.nonResident <;> rfl

/-- A $DATA with a name tells a stream, one without tells the size of the file. -/
theorem data_told (laid : a.Laid) {name : Bytes} {value : Value} (is : a.kind = .data name value)
    (r : Record) :
    ∃ after, readAttribute a.kind.typ a.bytes r = .ok after ∧
      Told r [] a.kind.stream.toList a.kind.fileSize.toList after := by
  have typ : a.kind.typ = 0x80 := by rw [is]; rfl
  have nameIs : a.kind.name = name := by rw [is]; rfl
  have valueIs : a.kind.value = value := by rw [is]; rfl
  obtain ⟨count, double⟩ := nameLen_toNat laid.name
  have flag := flag_written a
  unfold readAttribute
  rw [read_nonResident, Outcome.ok_bind, read_nameLen, Outcome.ok_bind, flag,
    contentOf_written laid, Outcome.ok_bind, typ, if_neg (by decide), if_neg (by decide),
    if_pos rfl]
  by_cases empty : name = []
  · have zero : UInt8.ofNat (a.kind.name.length / 2) = 0 := by rw [nameIs, empty]; rfl
    rw [if_neg (not_not_intro zero), unnamedStream, streamSize_written laid, Outcome.ok_bind,
      valueIs, is]
    have noStream : (Kind.data name value).stream = none := if_pos empty
    have sizeOf_ : (Kind.data name value).fileSize = value.told := if_pos empty
    rw [noStream, sizeOf_]
    cases value.told with
    | none => exact ⟨r, rfl, Told.nothing r⟩
    | some size =>
        refine ⟨_, rfl, ?_⟩
        constructor <;> simp
  · have some_ : UInt8.ofNat (a.kind.name.length / 2) ≠ 0 := by
      intro zero
      rw [zero] at count
      have even := laid.name.1
      have long := List.length_pos_iff.mpr empty
      rw [nameIs] at count even
      have none_ : (0 : UInt8).toNat = 0 := rfl
      omega
    have fits : ¬ 16 + a.fields.length + a.kind.name.length > a.bytes.length := by
      rw [bytes_length laid, Attribute.size]
      omega
    rw [if_pos some_, namedStream, read_nameOff laid, Outcome.ok_bind, count, double, if_neg fits,
      cut_name laid, Outcome.ok_bind, streamSize_written laid, Outcome.ok_bind, valueIs,
      nameIs, is]
    have stream : (Kind.data name value).stream = value.told.map (⟨decodeUTF16 name, ·⟩) :=
      if_neg empty
    have noSize : (Kind.data name value).fileSize = none := if_neg empty
    rw [stream, noSize]
    cases value.told with
    | none => exact ⟨r, rfl, Told.nothing r⟩
    | some size =>
        refine ⟨_, rfl, ?_⟩
        constructor <;> simp

theorem readAttribute_told (laid : a.Laid) (r : Record) :
    ∃ after, readAttribute a.kind.typ a.bytes r = .ok after ∧
      Told r a.kind.winName.toList a.kind.stream.toList a.kind.fileSize.toList after := by
  have flag := flag_written a
  cases is : a.kind with
  | data name value =>
      have told := data_told laid is r
      rw [is] at told
      exact told
  | fileName e =>
      obtain ⟨parent, seq, info, fits⟩ := laid.entry e is
      unfold readAttribute
      rw [read_nonResident, Outcome.ok_bind, read_nameLen, Outcome.ok_bind, flag,
        contentOf_written laid, Outcome.ok_bind, is]
      exact fileName_told parent seq info fits r
  | other typ name value =>
      obtain ⟨notName, notData⟩ := laid.other typ name value is
      unfold readAttribute
      rw [read_nonResident, Outcome.ok_bind, read_nameLen, Outcome.ok_bind, flag,
        contentOf_written laid, Outcome.ok_bind]
      have typ_ : (Kind.other typ name value).typ = typ := rfl
      rw [typ_]
      by_cases standard : typ = 0x10
      · rw [if_pos standard]
        exact standardInformation_told _ r
      · rw [if_neg standard, if_neg notName, if_neg notData]
        by_cases eas : typ = 0xE0
        · rw [if_pos eas]
          refine ⟨_, rfl, ?_⟩
          constructor <;> simp [Kind.winName, Kind.stream, Kind.fileSize]
        · rw [if_neg eas]
          exact ⟨r, rfl, Told.nothing r⟩

/-! One attribute behind another. -/

def area (as : List Attribute) : Bytes := as.flatMap (·.bytes)

def marker : Bytes := encode 4 0xFFFFFFFF

theorem filterMap_first {α β : Type} (f : α → Option β) (x : α) (rest : List α) :
    (x :: rest).filterMap f = (f x).toList ++ rest.filterMap f := by
  cases is : f x with
  | none => rw [List.filterMap_cons_none is]; rfl
  | some y => rw [List.filterMap_cons_some is]; rfl

/-- The walk reads every attribute and stops at the end marker, or where no attribute has
room before it. -/
theorem attributes_told (as : List Attribute) (laid : ∀ a ∈ as, a.Laid) (front back : Bytes)
    {used : Nat} (inside : used ≤ (front ++ (area as ++ (marker ++ back))).length)
    (holds : front.length + (area as).length ≤ used) (r : Record) :
    ∃ after, attributes (front ++ (area as ++ (marker ++ back))) used front.length r = .ok after ∧
      Told r (as.filterMap (·.kind.winName)) (as.filterMap (·.kind.stream))
        (as.filterMap (·.kind.fileSize)) after := by
  induction as generalizing front r with
  | nil =>
      rw [attributes]
      by_cases room : front.length + 16 ≤ used
      · have typ : (readNumber (front ++ (area [] ++ (marker ++ back))) front.length 4 :
            Outcome Empty Nat) = .ok 0xFFFFFFFF :=
          readNumber_middle front back rfl (by decide)
        rw [dif_pos room, typ, Outcome.ok_bind, if_pos rfl]
        exact ⟨r, rfl, Told.nothing r⟩
      · rw [dif_neg room]
        exact ⟨r, rfl, Told.nothing r⟩
  | cons a as ih =>
      have first := laid a (List.mem_cons_self ..)
      have length := bytes_length first
      have long := size_fields first
      have small := first.small
      have typSmall := first.typ
      have whole : area (a :: as) = a.bytes ++ area as := List.flatMap_cons
      rw [whole, List.length_append, length] at holds
      generalize is : front ++ (area (a :: as) ++ (marker ++ back)) = b at inside ⊢
      have typ : (readNumber b front.length 4 : Outcome Empty Nat) = .ok a.kind.typ := by
        have parts : b = front ++ (encode 4 a.kind.typ ++ (encode 4 a.size ++ a.marks ++
            (a.fields ++ (a.kind.name ++ a.rest)) ++ (area as ++ (marker ++ back)))) := by
          rw [← is, whole]
          simp [Attribute.bytes, Attribute.head]
        rw [parts]
        exact readNumber_middle _ _ rfl (by omega)
      have size : (readNumber b (front.length + 4) 4 : Outcome Empty Nat) = .ok a.size := by
        have parts : b = (front ++ encode 4 a.kind.typ) ++ (encode 4 a.size ++ (a.marks ++
            (a.fields ++ (a.kind.name ++ a.rest)) ++ (area as ++ (marker ++ back)))) := by
          rw [← is, whole]
          simp [Attribute.bytes, Attribute.head]
        rw [parts]
        exact readNumber_middle _ _ (by simp) (by omega)
      have bytes : (cut b front.length (front.length + a.size) : Outcome Empty Bytes) =
          .ok a.bytes := by
        have parts : b = front ++ (a.bytes ++ (area as ++ (marker ++ back))) := by
          rw [← is, whole, List.append_assoc]
        rw [parts]
        exact cut_middle _ _ _ rfl (by rw [length])
      obtain ⟨middle, read, told⟩ := readAttribute_told first r
      have next : b = (front ++ a.bytes) ++ (area as ++ (marker ++ back)) := by
        rw [← is, whole]
        simp only [List.append_assoc]
      have behind : (front ++ a.bytes).length = front.length + a.size := by
        rw [List.length_append, length]
      obtain ⟨after, walked, more⟩ := ih (fun x among => laid x (List.mem_cons_of_mem _ among))
        (front ++ a.bytes) (by rwa [← next]) (by omega) middle
      rw [← next, behind] at walked
      refine ⟨after, ?_, ?_⟩
      · rw [attributes, dif_pos (by omega), typ, Outcome.ok_bind, if_neg (by omega), size,
          Outcome.ok_bind, dif_neg (by omega), bytes, Outcome.ok_bind, read, Outcome.ok_bind]
        exact walked
      · have both := told.trans more
        simpa only [filterMap_first] using both

end ProxmoxBackup.NtfsAttributes
