import Mathlib.Data.List.Basic
import ProxmoxBackup.ChunkIndex
import ProxmoxBackup.LittleEndian
import ProxmoxBackup.Slices

/-! The two readers of a fixed index: parseFIDXIndex of pbscommon/fidx_reader.go and
GetKnownSha265FromFIDX of pbsapi.go. The set of known digests is a list here. -/

namespace ProxmoxBackup.FixedIndexFile

open ArchiveNames (Text hexEncode)
open ChunkIndex GoValues LittleEndian Slices

/-- A []byte: a slice of it may reach into the spare bytes behind it. -/
structure ByteSlice where
  data : Bytes
  spare : Bytes
  fits : data.length + spare.length < 2 ^ 63

def fidxMagic : Bytes := [47, 127, 65, 237, 145, 253, 15, 205]

def fidxHeaderSize : Nat := 4096

/-- FIDXHeader.Size -/
def headerSize (b : Bytes) : Nat := decode (slice b 64 8)

/-- FIDXHeader.ChunkSize -/
def headerChunkSize (b : Bytes) : Nat := decode (slice b 72 8)

inductive FIDXError where
  | shortHeader (length : Nat)
  | magic
  | chunkSizeZero
  | digests (found count : Nat)
  | eof
  | shortRead

/-- hex.EncodeToString(digests[i*32 : i*32+32]) -/
def digestAt (digests : Bytes) (i : Nat) : Option Text :=
  let low := uint64 (i * 32)
  let high := uint64 (i * 32 + 32)
  if low ≤ high ∧ high ≤ digests.length then some (hexEncode (slice digests low 32)) else none

/-- The loop over the chunks, for those left from i on. -/
def parseFrom (digests : Bytes) (size chunkSize : Nat) : Nat → Nat → Option (List Nat × List Text)
  | 0, _ => some ([], [])
  | left + 1, i =>
      let stop := uint64 ((i + 1) * chunkSize)
      match digestAt digests i, parseFrom digests size chunkSize left (i + 1) with
      | some digest, some (offsets, texts) =>
          some ((if stop > size then size else stop) :: offsets, digest :: texts)
      | _, _ => none

def parseFIDXIndex (b : ByteSlice) : Outcome FIDXError didxIndex :=
  if b.data.length < fidxHeaderSize then .error (.shortHeader b.data.length)
  else if !fidxMagic.isPrefixOf b.data then .error .magic
  else
    let size := headerSize b.data
    let chunkSize := headerChunkSize b.data
    if chunkSize = 0 then .error .chunkSizeZero
    else
      let count := uint64 (size + chunkSize - 1) / chunkSize
      let digests := b.data.drop fidxHeaderSize
      if digests.length < uint64 (count * 32) then .error (.digests (digests.length / 32) count)
      else match parseFrom (digests ++ b.spare) size chunkSize count 0 with
        | none => .panicked
        | some (offsets, texts) => .ok ⟨offsets, texts, size⟩

/-- The loop of GetKnownSha265FromFIDX over what is left to read. -/
def knownFrom : Nat → Bytes → Outcome FIDXError (List Text)
  | 0, _ => .ok []
  | left + 1, rdr =>
      if rdr.length = 0 then .error .eof
      else if rdr.length < 32 then .error .shortRead
      else match knownFrom left (rdr.drop 32) with
        | .ok ret => .ok (hexEncode (rdr.take 32) :: ret)
        | .error err => .error err
        | .panicked => .panicked

def GetKnownSha265FromFIDX (data : Bytes) : Outcome FIDXError (List Text) :=
  if data.length < fidxHeaderSize then .error (.shortHeader data.length)
  else if data.take 8 ≠ fidxMagic then .error .magic
  else if headerChunkSize data = 0 then .panicked
  else knownFrom (headerSize data / headerChunkSize data) (data.drop fidxHeaderSize)

/-! What a file is. -/

/-- The chunks of the image, counted without a limit. -/
def chunks (b : Bytes) : Nat := (headerSize b + headerChunkSize b - 1) / headerChunkSize b

/-- A header of the right length that begins with the magic. -/
def Headed (b : Bytes) : Prop := fidxHeaderSize ≤ b.length ∧ fidxMagic.isPrefixOf b = true

structure Validated (b : Bytes) (idx : didxIndex) : Prop where
  ascending : (0 :: idx.offsets).Pairwise (· < ·)
  digests : idx.digests.length = chunks b
  total : idx.total = headerSize b
  reads : ∀ ChunkMatchesDigest cancel got len off fuel,
    idx.ReadAt ChunkMatchesDigest cancel got len off fuel ≠ some .panicked

def ValidatedBeforeUse (b : ByteSlice) : Prop :=
  match parseFIDXIndex b with
  | .ok idx => Validated b.data idx
  | .error _ => True
  | .panicked => False

/-- Every chunk of the image has its digest. -/
def WellFormed (b : Bytes) : Prop :=
  Headed b ∧ 0 < headerChunkSize b ∧ fidxHeaderSize + chunks b * 32 ≤ b.length

structure ReadersAgree (b : ByteSlice) : Prop where
  safe : GetKnownSha265FromFIDX b.data ≠ .panicked
  same : WellFormed b.data → ∃ idx known, parseFIDXIndex b = .ok idx ∧
    GetKnownSha265FromFIDX b.data = .ok known ∧ ∀ digest, digest ∈ known ↔ digest ∈ idx.digests

/-! The fields. -/

theorem decode_lt (bytes : List UInt8) : decode bytes < 256 ^ bytes.length := by
  induction bytes with
  | nil => exact Nat.one_pos
  | cons byte rest ih =>
      have low := byte.toNat_lt
      rw [decode, List.length_cons, Nat.pow_succ]
      omega

theorem field_lt (b : Bytes) (offset : Nat) : decode (slice b offset 8) < 2 ^ 64 := by
  have width : (slice b offset 8).length ≤ 8 := List.length_take_le _ _
  calc decode (slice b offset 8) < 256 ^ (slice b offset 8).length := decode_lt _
    _ ≤ 256 ^ 8 := Nat.pow_le_pow_right (by decide) width
    _ = 2 ^ 64 := by decide

theorem headerSize_lt (b : Bytes) : headerSize b < 2 ^ 64 := field_lt b 64

theorem headerChunkSize_lt (b : Bytes) : headerChunkSize b < 2 ^ 64 := field_lt b 72

/-! The loop of parseFIDXIndex. -/

/-- A digest by its place in the file. -/
def digestText (digests : Bytes) (i : Nat) : Text := hexEncode (slice digests (i * 32) 32)

theorem digestAt_inside (digests : Bytes) (i : Nat) (inside : i * 32 + 32 ≤ digests.length)
    (bound : digests.length < 2 ^ 63) : digestAt digests i = some (digestText digests i) := by
  have low : uint64 (i * 32) = i * 32 := uint64_same _ (by omega)
  have high : uint64 (i * 32 + 32) = i * 32 + 32 := uint64_same _ (by omega)
  unfold digestAt
  rw [low, high]
  exact if_pos ⟨by omega, inside⟩

/-- With a digest for every chunk left the loop goes through. -/
theorem parseFrom_some (digests : Bytes) (size chunkSize left i : Nat)
    (inside : (i + left) * 32 ≤ digests.length) (bound : digests.length < 2 ^ 63)
    (small : (i + left) * chunkSize < 2 ^ 64) :
    parseFrom digests size chunkSize left i =
      some ((List.range' i left).map fun k => min ((k + 1) * chunkSize) size,
        (List.range' i left).map (digestText digests)) := by
  induction left generalizing i with
  | zero => rfl
  | succ left ih =>
      have stops : (i + 1) * chunkSize ≤ (i + (left + 1)) * chunkSize :=
        Nat.mul_le_mul_right chunkSize (by omega)
      have stop : uint64 ((i + 1) * chunkSize) = (i + 1) * chunkSize :=
        uint64_same _ (Nat.lt_of_le_of_lt stops small)
      have cut : (if (i + 1) * chunkSize > size then size else (i + 1) * chunkSize) =
          min ((i + 1) * chunkSize) size := by
        split <;> omega
      rw [parseFrom, digestAt_inside digests i (by omega) bound, stop,
        ih (i + 1) (by omega) (by rw [show i + 1 + left = i + (left + 1) by omega]; exact small)]
      dsimp only
      rw [cut]
      rfl

/-- With fewer it indexes out of range. -/
theorem parseFrom_none (digests : Bytes) (size chunkSize left i : Nat)
    (bound : digests.length < 2 ^ 63) (begun : i * 32 ≤ digests.length)
    (lacking : digests.length < (i + left) * 32) :
    parseFrom digests size chunkSize left i = none := by
  induction left generalizing i with
  | zero => omega
  | succ left ih =>
      rw [parseFrom]
      by_cases inside : i * 32 + 32 ≤ digests.length
      · rw [digestAt_inside digests i inside bound, ih (i + 1) (by omega) (by omega)]
      · have low : uint64 (i * 32) = i * 32 := uint64_same _ (by omega)
        have high : uint64 (i * 32 + 32) = i * 32 + 32 := uint64_same _ (by omega)
        have out : digestAt digests i = none := by
          unfold digestAt
          rw [low, high]
          exact if_neg (by omega)
        rw [out]

/-! What parseFIDXIndex comes to. -/

theorem chunks_mul (b : Bytes) (proper : 0 < headerChunkSize b) :
    headerSize b ≤ chunks b * headerChunkSize b ∧
      chunks b * headerChunkSize b ≤ headerSize b + headerChunkSize b - 1 := by
  refine ⟨?_, Nat.div_mul_le_self _ _⟩
  have next := Nat.lt_div_mul_add proper (a := headerSize b + headerChunkSize b - 1)
  unfold chunks
  omega

/-- The ends of the chunks of a counted image rise from 0 to its size. -/
theorem ends_ascend (b : Bytes) (proper : 0 < headerChunkSize b) :
    (0 :: (List.range' 0 (chunks b)).map fun k =>
      min ((k + 1) * headerChunkSize b) (headerSize b)).Pairwise (· < ·) := by
  obtain ⟨reach, least⟩ := chunks_mul b proper
  have before : ∀ k < chunks b, k * headerChunkSize b < headerSize b := by
    intro k low
    have next : (k + 1) * headerChunkSize b ≤ chunks b * headerChunkSize b :=
      Nat.mul_le_mul_right _ low
    rw [Nat.add_mul, Nat.one_mul] at next
    omega
  refine List.pairwise_cons.mpr ⟨fun stop member => ?_, ?_⟩
  · obtain ⟨k, listed, rfl⟩ := List.mem_map.mp member
    have inside := before k (by simpa using List.mem_range'_1.mp listed)
    rw [Nat.add_mul, Nat.one_mul]
    omega
  · rw [List.pairwise_map]
    refine (@List.pairwise_lt_range' 0 (chunks b) 1 (by decide)).imp_of_mem fun {k l} _ listed order => ?_
    have inside := before l (by simpa using List.mem_range'_1.mp listed)
    have next : (k + 1) * headerChunkSize b ≤ l * headerChunkSize b := Nat.mul_le_mul_right _ order
    rw [Nat.add_mul l, Nat.one_mul]
    omega

/-- Behind the checks of the header. -/
theorem parse_headed (b : ByteSlice) (headed : Headed b.data) (proper : 0 < headerChunkSize b.data) :
    parseFIDXIndex b =
      let count := uint64 (headerSize b.data + headerChunkSize b.data - 1) / headerChunkSize b.data
      let digests := b.data.drop fidxHeaderSize
      if digests.length < uint64 (count * 32) then .error (.digests (digests.length / 32) count)
      else match parseFrom (digests ++ b.spare) (headerSize b.data) (headerChunkSize b.data) count 0 with
        | none => .panicked
        | some (offsets, texts) => .ok ⟨offsets, texts, headerSize b.data⟩ := by
  obtain ⟨long, magic⟩ := headed
  unfold parseFIDXIndex
  rw [if_neg (by omega), magic]
  dsimp only [Bool.not_true]
  rw [if_neg (by decide), if_neg (by omega)]

/-- With a digest for every chunk, and no sum that wraps around, the index is the file's. -/
theorem parse_some (b : ByteSlice) (formed : WellFormed b.data)
    (counted : headerSize b.data + headerChunkSize b.data - 1 < 2 ^ 64) :
    parseFIDXIndex b = .ok
      ⟨(List.range' 0 (chunks b.data)).map fun k =>
          min ((k + 1) * headerChunkSize b.data) (headerSize b.data),
        (List.range' 0 (chunks b.data)).map (digestText (b.data.drop fidxHeaderSize ++ b.spare)),
        headerSize b.data⟩ := by
  obtain ⟨headed, proper, listed⟩ := formed
  have fits := b.fits
  have long := headed.1
  obtain ⟨-, least⟩ := chunks_mul b.data proper
  have product : uint64 (chunks b.data * 32) = chunks b.data * 32 := uint64_same _ (by omega)
  rw [parse_headed b headed proper, uint64_same _ counted]
  dsimp only
  rw [show (headerSize b.data + headerChunkSize b.data - 1) / headerChunkSize b.data =
    chunks b.data from rfl, product, if_neg (by rw [List.length_drop]; omega)]
  rw [parseFrom_some _ _ _ _ _ (by rw [List.length_append, List.length_drop]; omega)
    (by rw [List.length_append, List.length_drop]; omega) (by rw [Nat.zero_add]; omega)]

theorem parse_some_valid (b : ByteSlice) (formed : WellFormed b.data) :
    (didxIndex.mk ((List.range' 0 (chunks b.data)).map fun k =>
          min ((k + 1) * headerChunkSize b.data) (headerSize b.data))
        ((List.range' 0 (chunks b.data)).map (digestText (b.data.drop fidxHeaderSize ++ b.spare)))
        (headerSize b.data)).Valid := by
  obtain ⟨-, proper, -⟩ := formed
  obtain ⟨reach, -⟩ := chunks_mul b.data proper
  refine ⟨ends_ascend b.data proper, by simp, ?_, headerSize_lt b.data⟩
  dsimp only
  rw [List.length_map, List.length_range']
  rcases Nat.eq_zero_or_pos (chunks b.data) with none_ | some_
  · rw [none_] at reach ⊢
    have zero : headerSize b.data ≤ 0 := by simpa using reach
    exact Nat.le_zero.mp zero
  · rw [List.getD_eq_getElem _ _ (by simp; omega), List.getElem_map, List.getElem_range']
    rw [show 0 + 1 * (chunks b.data - 1) + 1 = chunks b.data by omega]
    omega

theorem parse_not_headed (b : ByteSlice) (refused : ¬(Headed b.data ∧ 0 < headerChunkSize b.data)) :
    ∃ err, parseFIDXIndex b = .error err := by
  unfold parseFIDXIndex
  by_cases long : b.data.length < fidxHeaderSize
  · rw [if_pos long]
    exact ⟨_, rfl⟩
  · rw [if_neg long]
    by_cases magic : fidxMagic.isPrefixOf b.data = true
    · rw [magic, if_neg (by decide)]
      have zero : headerChunkSize b.data = 0 := by
        by_contra some_
        exact refused ⟨⟨by omega, magic⟩, by omega⟩
      dsimp only
      rw [if_pos zero]
      exact ⟨_, rfl⟩
    · rw [Bool.not_eq_true] at magic
      rw [magic]
      exact ⟨_, rfl⟩

/-- A sum that wraps around counts no chunks. -/
theorem wrapped_counts_none (b : Bytes)
    (wrapped : ¬headerSize b + headerChunkSize b - 1 < 2 ^ 64) :
    uint64 (headerSize b + headerChunkSize b - 1) / headerChunkSize b = 0 := by
  have size := headerSize_lt b
  have chunk := headerChunkSize_lt b
  apply Nat.div_eq_of_lt
  unfold uint64
  omega

theorem parse_wrapped (b : ByteSlice) (headed : Headed b.data) (proper : 0 < headerChunkSize b.data)
    (wrapped : ¬headerSize b.data + headerChunkSize b.data - 1 < 2 ^ 64) :
    parseFIDXIndex b = .ok ⟨[], [], headerSize b.data⟩ := by
  rw [parse_headed b headed proper, wrapped_counts_none b.data wrapped]
  dsimp only
  rw [if_neg (by simp [uint64])]
  rfl

/-- Then the index has no digests, though the image is not empty. -/
theorem wrapped_not_validated (b : ByteSlice) (headed : Headed b.data)
    (proper : 0 < headerChunkSize b.data)
    (wrapped : ¬headerSize b.data + headerChunkSize b.data - 1 < 2 ^ 64) : ¬ValidatedBeforeUse b := by
  intro validated
  unfold ValidatedBeforeUse at validated
  rw [parse_wrapped b headed proper wrapped] at validated
  have none_ : 0 = chunks b.data := validated.digests
  obtain ⟨reach, -⟩ := chunks_mul b.data proper
  have chunk := headerChunkSize_lt b.data
  rw [← none_, Nat.zero_mul] at reach
  omega

/-- The index is the file's, or the file is refused, unless the sum or the product of
the check wraps around and a file with too few digests passes it. -/
theorem validatedBeforeUse_iff (b : ByteSlice) : ValidatedBeforeUse b ↔
    ¬(Headed b.data ∧ 0 < headerChunkSize b.data) ∨
      headerSize b.data + headerChunkSize b.data - 1 < 2 ^ 64 ∧
        (chunks b.data * 32 < 2 ^ 64 ∨
          b.data.length - fidxHeaderSize < chunks b.data * 32 % 2 ^ 64) := by
  have fits := b.fits
  by_cases headed : Headed b.data ∧ 0 < headerChunkSize b.data
  · rw [or_iff_right (not_not.mpr headed)]
    obtain ⟨headed, proper⟩ := headed
    by_cases counted : headerSize b.data + headerChunkSize b.data - 1 < 2 ^ 64
    · rw [and_iff_right counted]
      by_cases formed : WellFormed b.data
      · have valid := parse_some_valid b formed
        unfold ValidatedBeforeUse
        rw [parse_some b formed counted]
        refine ⟨fun _ => Or.inl ?_, fun _ => ⟨valid.ascending, by simp, rfl, ?_⟩⟩
        · have listed := formed.2.2
          omega
        · intro ChunkMatchesDigest cancel got len off fuel
          exact valid.readAt_no_panic ChunkMatchesDigest cancel got len off fuel
      · -- a digest is missing: the check sees it, or the loop runs into the end
        have lacking : b.data.length - fidxHeaderSize < chunks b.data * 32 := by
          by_contra enough
          exact formed ⟨headed, proper, by have long := headed.1; omega⟩
        unfold ValidatedBeforeUse
        rw [parse_headed b headed proper, uint64_same _ counted]
        dsimp only
        rw [show (headerSize b.data + headerChunkSize b.data - 1) / headerChunkSize b.data =
          chunks b.data from rfl, List.length_drop]
        by_cases seen : b.data.length - fidxHeaderSize < uint64 (chunks b.data * 32)
        · rw [if_pos seen]
          exact ⟨fun _ => Or.inr seen, fun _ => trivial⟩
        · have large : 2 ^ 64 ≤ chunks b.data * 32 := by
            by_contra small
            rw [uint64_same _ (by omega)] at seen
            exact seen lacking
          rw [if_neg seen, parseFrom_none _ _ _ _ _
            (by rw [List.length_append, List.length_drop]; omega) (by omega)
            (by rw [List.length_append, List.length_drop]; omega)]
          refine ⟨fun wrong => wrong.elim, fun either => ?_⟩
          rcases either with small | seen'
          · omega
          · exact absurd seen' seen
    · have wrong := wrapped_not_validated b headed proper counted
      exact ⟨fun validated => absurd validated wrong, fun either => absurd either.1 counted⟩
  · obtain ⟨err, refused⟩ := parse_not_headed b headed
    unfold ValidatedBeforeUse
    rw [refused]
    exact ⟨fun _ => Or.inl headed, fun _ => trivial⟩

/-! What GetKnownSha265FromFIDX comes to. -/

theorem known_headed (data : Bytes) (headed : Headed data) : GetKnownSha265FromFIDX data =
    if headerChunkSize data = 0 then .panicked
    else knownFrom (headerSize data / headerChunkSize data) (data.drop fidxHeaderSize) := by
  obtain ⟨long, magic⟩ := headed
  have begins : fidxMagic = data.take 8 :=
    List.prefix_iff_eq_take.mp (List.isPrefixOf_iff_prefix.mp magic)
  unfold GetKnownSha265FromFIDX
  rw [if_neg (by omega), if_neg (not_not.mpr begins.symm)]

theorem known_not_headed (data : Bytes) (refused : ¬Headed data) :
    GetKnownSha265FromFIDX data ≠ .panicked := by
  unfold GetKnownSha265FromFIDX
  split
  · exact fun wrong => by cases wrong
  · split
    · exact fun wrong => by cases wrong
    · next long magic =>
        have magic : data.take 8 = fidxMagic := not_not.mp magic
        refine absurd ⟨by omega, List.isPrefixOf_iff_prefix.mpr ?_⟩ refused
        exact List.prefix_iff_eq_take.mpr magic.symm

theorem knownFrom_no_panic (left : Nat) (rdr : Bytes) : knownFrom left rdr ≠ .panicked := by
  induction left generalizing rdr with
  | zero => exact fun wrong => by cases wrong
  | succ left ih =>
      have rest := ih (rdr.drop 32)
      unfold knownFrom
      split
      · exact fun wrong => by cases wrong
      · split
        · exact fun wrong => by cases wrong
        · split
          · exact fun wrong => by cases wrong
          · exact fun wrong => by cases wrong
          · next panicked => exact absurd panicked rest

theorem knownFrom_ok (digests : Bytes) (left i : Nat) (inside : (i + left) * 32 ≤ digests.length) :
    knownFrom left (digests.drop (i * 32)) = .ok ((List.range' i left).map (digestText digests)) := by
  induction left generalizing i with
  | zero => rfl
  | succ left ih =>
      have rest : (digests.drop (i * 32)).drop 32 = digests.drop ((i + 1) * 32) := by
        rw [List.drop_drop]
        congr 1
        omega
      rw [knownFrom, if_neg (by rw [List.length_drop]; omega),
        if_neg (by rw [List.length_drop]; omega), rest, ih (i + 1) (by omega)]
      rfl

theorem chunks_eq (b : Bytes) (proper : 0 < headerChunkSize b) :
    chunks b = headerSize b / headerChunkSize b +
      if headerSize b % headerChunkSize b = 0 then 0 else 1 := by
  have whole := Nat.div_add_mod (headerSize b) (headerChunkSize b)
  have part := Nat.mod_lt (headerSize b) proper
  have split_ : headerSize b + headerChunkSize b - 1 =
      headerChunkSize b * (headerSize b / headerChunkSize b) +
        (headerSize b % headerChunkSize b + headerChunkSize b - 1) := by
    omega
  unfold chunks
  rw [split_, Nat.mul_add_div proper]
  congr 1
  split
  · exact Nat.div_eq_of_lt (by omega)
  · rw [Nat.div_eq_iff proper]
    omega

/-- The digest of the last chunk, when that is partial. -/
def lastDigest (b : Bytes) : Text :=
  digestText (b.drop fidxHeaderSize) (headerSize b / headerChunkSize b)

/-- Those of the chunks before it. -/
def wholeDigests (b : Bytes) : List Text :=
  (List.range' 0 (headerSize b / headerChunkSize b)).map (digestText (b.drop fidxHeaderSize))

theorem known_some (data : Bytes) (formed : WellFormed data) :
    GetKnownSha265FromFIDX data = .ok (wholeDigests data) := by
  obtain ⟨headed, proper, listed⟩ := formed
  have count := chunks_eq data proper
  have long := headed.1
  rw [known_headed data headed, if_neg (by omega)]
  exact knownFrom_ok _ _ 0 (by rw [List.length_drop]; split at count <;> omega)

/-- parseFIDXIndex has the digests of all the chunks. -/
theorem parsed_digests (b : ByteSlice) (formed : WellFormed b.data) :
    (List.range' 0 (chunks b.data)).map (digestText (b.data.drop fidxHeaderSize ++ b.spare)) =
      wholeDigests b.data ++
        if headerSize b.data % headerChunkSize b.data = 0 then [] else [lastDigest b.data] := by
  obtain ⟨-, proper, listed⟩ := formed
  have inside : ∀ i ∈ List.range' 0 (chunks b.data),
      digestText (b.data.drop fidxHeaderSize ++ b.spare) i = digestText (b.data.drop fidxHeaderSize) i := by
    intro i member
    have bound := List.mem_range'_1.mp member
    unfold digestText
    rw [slice_append_left _ _ _ _ (by rw [List.length_drop]; omega)]
  rw [List.map_congr_left inside, chunks_eq b.data proper]
  split
  · rw [List.append_nil]
    rfl
  · rw [List.range'_concat, List.map_append]
    simp [wholeDigests, lastDigest]

theorem same_digests_iff {b : ByteSlice} {idx : didxIndex} {known : List Text}
    (parsed : parseFIDXIndex b = .ok idx) (collected : GetKnownSha265FromFIDX b.data = .ok known) :
    (∃ idx known, parseFIDXIndex b = .ok idx ∧ GetKnownSha265FromFIDX b.data = .ok known ∧
      ∀ digest, digest ∈ known ↔ digest ∈ idx.digests) ↔
      ∀ digest, digest ∈ known ↔ digest ∈ idx.digests := by
  constructor
  · rintro ⟨idx', known', parsed', collected', same⟩
    rw [parsed] at parsed'
    rw [collected] at collected'
    cases parsed'
    cases collected'
    exact same
  · exact fun same => ⟨idx, known, parsed, collected, same⟩

/-- The two readers agree on what has a digest for every chunk, unless a partial last
chunk has a digest that no other one has, or the sum of parseFIDXIndex wraps around
for an image of a whole chunk; and a chunk size of zero is divided by. -/
theorem readersAgree_iff (b : ByteSlice) : ReadersAgree b ↔
    ¬(Headed b.data ∧ headerChunkSize b.data = 0) ∧
      (WellFormed b.data → if headerSize b.data + headerChunkSize b.data - 1 < 2 ^ 64
        then headerSize b.data % headerChunkSize b.data = 0 ∨
          lastDigest b.data ∈ wholeDigests b.data
        else headerSize b.data < headerChunkSize b.data) := by
  have safe : GetKnownSha265FromFIDX b.data ≠ .panicked ↔
      ¬(Headed b.data ∧ headerChunkSize b.data = 0) := by
    by_cases headed : Headed b.data
    · rw [known_headed b.data headed]
      by_cases zero : headerChunkSize b.data = 0
      · rw [if_pos zero]
        exact ⟨fun wrong => absurd rfl wrong, fun wrong => absurd ⟨headed, zero⟩ wrong⟩
      · rw [if_neg zero]
        exact ⟨fun _ both => zero both.2, fun _ => knownFrom_no_panic _ _⟩
    · exact ⟨fun _ both => headed both.1, fun _ => known_not_headed b.data headed⟩
  have same : WellFormed b.data → ((∃ idx known, parseFIDXIndex b = .ok idx ∧
      GetKnownSha265FromFIDX b.data = .ok known ∧ ∀ digest, digest ∈ known ↔ digest ∈ idx.digests) ↔
      if headerSize b.data + headerChunkSize b.data - 1 < 2 ^ 64
        then headerSize b.data % headerChunkSize b.data = 0 ∨
          lastDigest b.data ∈ wholeDigests b.data
        else headerSize b.data < headerChunkSize b.data) := by
    intro formed
    have known := known_some b.data formed
    by_cases counted : headerSize b.data + headerChunkSize b.data - 1 < 2 ^ 64
    · rw [if_pos counted]
      have parsed := parse_some b formed counted
      rw [parsed_digests b formed] at parsed
      rw [same_digests_iff parsed known]
      dsimp only
      by_cases whole : headerSize b.data % headerChunkSize b.data = 0
      · rw [if_pos whole, List.append_nil]
        exact ⟨fun _ => Or.inl whole, fun _ _ => Iff.rfl⟩
      · rw [if_neg whole, or_iff_right whole]
        constructor
        · intro same
          exact (same (lastDigest b.data)).mpr (by simp)
        · intro again digest
          refine ⟨List.mem_append_left _, fun member => ?_⟩
          rcases List.mem_append.mp member with listed | last
          · exact listed
          · rw [List.mem_singleton.mp last]
            exact again
    · rw [if_neg counted]
      have parsed := parse_wrapped b formed.1 formed.2.1 counted
      rw [same_digests_iff parsed known]
      have none_ : (∀ digest, digest ∈ wholeDigests b.data ↔ digest ∈ ([] : List Text)) ↔
          wholeDigests b.data = [] := by
        rw [List.eq_nil_iff_forall_not_mem]
        simp
      rw [none_, wholeDigests, List.map_eq_nil_iff, List.range'_eq_nil_iff]
      exact Nat.div_eq_zero_iff_lt formed.2.1
  exact ⟨fun agree => ⟨safe.mp agree.safe, fun formed => (same formed).mp (agree.same formed)⟩,
    fun either => ⟨safe.mpr either.1, fun formed => (same formed).mpr (either.2 formed)⟩⟩

/-! Files with a given header. -/

def padding (n : Nat) : Bytes := List.replicate n 0

@[simp] theorem padding_length (n : Nat) : (padding n).length = n := List.length_replicate

def indexFile (size chunkSize : Nat) (digests : Bytes) : Bytes :=
  (fidxMagic ++ padding 56) ++ (encode 8 size ++ (encode 8 chunkSize ++ (padding 4016 ++ digests)))

theorem indexFile_length (size chunkSize : Nat) (digests : Bytes) :
    (indexFile size chunkSize digests).length = 4096 + digests.length := by
  simp [indexFile, fidxMagic]
  omega

theorem indexFile_headed (size chunkSize : Nat) (digests : Bytes) :
    Headed (indexFile size chunkSize digests) := by
  refine ⟨?_, rfl⟩
  rw [indexFile_length]
  exact Nat.le_add_right 4096 _

theorem headerSize_indexFile (size chunkSize : Nat) (digests : Bytes) (fits : size < 2 ^ 64) :
    headerSize (indexFile size chunkSize digests) = size := by
  have place : (fidxMagic ++ padding 56).length + 0 = 64 := by simp [fidxMagic]
  have whole := slice_whole (encode 8 size)
  rw [encode_length] at whole
  unfold headerSize indexFile
  rw [← place, slice_append_right, slice_append_left _ _ _ _ (by simp), whole,
    decode_encode _ _ (by simpa using fits)]

theorem headerChunkSize_indexFile (size chunkSize : Nat) (digests : Bytes)
    (fits : chunkSize < 2 ^ 64) : headerChunkSize (indexFile size chunkSize digests) = chunkSize := by
  have place : (fidxMagic ++ padding 56).length + ((encode 8 size).length + 0) = 72 := by
    simp [fidxMagic]
  have whole := slice_whole (encode 8 chunkSize)
  rw [encode_length] at whole
  unfold headerChunkSize indexFile
  rw [← place, slice_append_right, slice_append_right, slice_append_left _ _ _ _ (by simp), whole,
    decode_encode _ _ (by simpa using fits)]

theorem indexFile_digests (size chunkSize : Nat) (digests : Bytes) :
    (indexFile size chunkSize digests).drop fidxHeaderSize = digests := by
  unfold indexFile
  rw [← List.append_assoc, ← List.append_assoc, ← List.append_assoc]
  exact List.drop_left' (by simp [fidxMagic, fidxHeaderSize])

/-- Ten bytes in chunks of 2^64 - 5, and not one digest. -/
def wrappingIndex : ByteSlice where
  data := indexFile 10 (2 ^ 64 - 5) []
  spare := []
  fits := by
    rw [indexFile_length]
    decide

theorem wrappingIndex_accepted : ¬ValidatedBeforeUse wrappingIndex ∧
    ∃ idx, parseFIDXIndex wrappingIndex = .ok idx ∧
      idx.ReadAt (fun _ _ => true) (fun _ => false) (fun _ => none) 1 0 1 = some .panicked := by
  have size : headerSize wrappingIndex.data = 10 := headerSize_indexFile _ _ _ (by decide)
  have chunk : headerChunkSize wrappingIndex.data = 2 ^ 64 - 5 :=
    headerChunkSize_indexFile _ _ _ (by decide)
  have headed : Headed wrappingIndex.data := indexFile_headed _ _ _
  have proper : 0 < headerChunkSize wrappingIndex.data := by
    rw [chunk]
    decide
  have wrapped : ¬headerSize wrappingIndex.data + headerChunkSize wrappingIndex.data - 1 < 2 ^ 64 := by
    rw [size, chunk]
    decide
  refine ⟨wrapped_not_validated wrappingIndex headed proper wrapped, ⟨[], [], 10⟩, ?_, rfl⟩
  rw [parse_wrapped wrappingIndex headed proper wrapped, size]

/-- Five bytes in chunks of four, with two digests. -/
def partialIndex : ByteSlice where
  data := indexFile 5 4 (List.replicate 32 1 ++ List.replicate 32 2)
  spare := []
  fits := by
    rw [indexFile_length]
    decide

/-- The header says chunks of no bytes. -/
def zeroChunkIndex : ByteSlice where
  data := indexFile 5 0 []
  spare := []
  fits := by
    rw [indexFile_length]
    decide

theorem partialIndex_disagrees : ¬ReadersAgree partialIndex ∧
    GetKnownSha265FromFIDX zeroChunkIndex.data = .panicked := by
  have size : headerSize partialIndex.data = 5 := headerSize_indexFile _ _ _ (by decide)
  have chunk : headerChunkSize partialIndex.data = 4 := headerChunkSize_indexFile _ _ _ (by decide)
  have digests : partialIndex.data.drop fidxHeaderSize = List.replicate 32 1 ++ List.replicate 32 2 :=
    indexFile_digests _ _ _
  have length : partialIndex.data.length = 4096 + 64 := indexFile_length _ _ _
  have formed : WellFormed partialIndex.data := by
    refine ⟨indexFile_headed _ _ _, by rw [chunk]; decide, ?_⟩
    unfold chunks
    rw [size, chunk, length]
    decide
  constructor
  · intro agree
    obtain ⟨idx, known, parsed, collected, same⟩ := agree.same formed
    rw [parse_some partialIndex formed (by rw [size, chunk]; decide), parsed_digests _ formed] at parsed
    rw [known_some _ formed] at collected
    cases parsed
    cases collected
    have missing := (same (lastDigest partialIndex.data)).mpr
    rw [size, chunk] at missing
    have listed := missing (by simp)
    unfold lastDigest wholeDigests at listed
    rw [size, chunk, digests] at listed
    revert listed
    decide
  · have zero : headerChunkSize zeroChunkIndex.data = 0 := headerChunkSize_indexFile _ _ _ (by decide)
    rw [known_headed zeroChunkIndex.data (indexFile_headed _ _ _), if_pos zero]

end ProxmoxBackup.FixedIndexFile
