import ProxmoxBackup.LittleEndian

/-! The blob a chunk travels in: one of four magics, a CRC32, for an encrypted
chunk the IV and the tag, then the payload. The writer picks the format by key
and by size, the reader by the magic. Zstandard, AES-GCM, CRC32 and SHA-256 are
parameters. -/
namespace ProxmoxBackup.ChunkBlob

abbrev Bytes := List UInt8

inductive EncoderLevel where
  | fastest | default | better | best
  deriving DecidableEq, Repr

/-- What the code calls outside the repository. `gcmSeal` and `gcmOpen` are the AEAD's
own functions: the tag stands at the end of what is sealed. -/
structure Libraries where
  compress : EncoderLevel → Bytes → Bytes
  decompress : Bytes → Option Bytes
  checksum : Bytes → UInt32
  gcmSeal : Bytes → Bytes → Bytes → Bytes
  gcmOpen : Bytes → Bytes → Bytes → Option Bytes
  sha256 : Bytes → Bytes

def gcmTagSize : Nat := 16

/-- The documented behaviour the round trip relies on. The tag is a function of
key, IV and ciphertext, so one ciphertext opens with one tag only. -/
structure Libraries.Lawful (lib : Libraries) : Prop where
  inflates : ∀ level data, lib.decompress (lib.compress level data) = some data
  opens : ∀ key iv data, lib.gcmOpen key iv (lib.gcmSeal key iv data) = some data
  overhead : ∀ key iv data, (lib.gcmSeal key iv data).length = data.length + gcmTagSize
  authentic : ∀ key iv ciphertext tag tag' data data', tag.length = gcmTagSize →
    tag'.length = gcmTagSize → lib.gcmOpen key iv (ciphertext ++ tag) = some data →
    lib.gcmOpen key iv (ciphertext ++ tag') = some data' → tag' = tag

def blobCompressedMagic : Bytes := [49, 185, 88, 66, 111, 182, 163, 127]
def blobUncompressedMagic : Bytes := [66, 171, 56, 7, 190, 131, 112, 161]
def blobEncryptedMagic : Bytes := [123, 103, 133, 190, 34, 45, 76, 240]
def blobEncryptedComprMagic : Bytes := [230, 89, 27, 191, 11, 191, 216, 11]

def blobEncryptionKeySize : Nat := 32
def dataBlobHeaderSize : Nat := 12
def encryptedDataBlobHeaderSize : Nat := 44
def gcmIVSize : Nat := 16

inductive BlobError where
  | keySize (length : Nat)
  | noRandom
  | sealedTooShort
  | shortResponse (length : Nat)
  | blobTooSmall (length : Nat)
  | encryptedBlobTooSmall (length : Nat)
  | crcMismatch (stored computed : Nat)
  | invalidIV (length : Nat)
  | invalidTag (length : Nat)
  | unableToDecrypt
  | unableToInflate
  | digestMismatch (expected got : Bytes)
  | missingKey
  | noKeyForChunk
  | encryptedCompressed
  | unknownMagic (magic : Bytes)
  deriving DecidableEq, Repr

/-- A key as `NewCryptConfig` lets one be made. -/
structure CryptConfig where
  encKey : Bytes
  idKey : Bytes
  sized : encKey.length = blobEncryptionKeySize

/-- An IV as the random source fills it. -/
structure IV where
  bytes : Bytes
  sized : bytes.length = gcmIVSize

/-- AES takes keys of 16, 24 or 32 bytes. -/
def CryptConfig.aead (crypt : CryptConfig) : Except BlobError Bytes :=
  if crypt.encKey.length = 16 ∨ crypt.encKey.length = 24 ∨ crypt.encKey.length = 32 then
    .ok crypt.encKey
  else .error (.keySize crypt.encKey.length)

def CryptConfig.computeDigest (lib : Libraries) (crypt : CryptConfig) (data : Bytes) : Bytes :=
  lib.sha256 (data ++ crypt.idKey)

/-- The IV, the ciphertext and the tag; `random` is what the random source gives. -/
def CryptConfig.sealData (lib : Libraries) (crypt : CryptConfig) (random : Option IV)
    (plaintext : Bytes) : Except BlobError (IV × Bytes × Bytes) := do
  let key ← crypt.aead
  match random with
  | none => .error .noRandom
  | some iv =>
      let sealed := lib.gcmSeal key iv.bytes plaintext
      if sealed.length < gcmTagSize then .error .sealedTooShort
      else
        let split := sealed.length - gcmTagSize
        .ok (iv, sealed.take split, sealed.drop split)

def CryptConfig.openData (lib : Libraries) (crypt : CryptConfig) (iv ciphertext tag : Bytes) :
    Except BlobError Bytes := do
  let key ← crypt.aead
  if iv.length ≠ gcmIVSize then .error (.invalidIV iv.length)
  else if tag.length ≠ gcmTagSize then .error (.invalidTag tag.length)
  else
    match lib.gcmOpen key iv (ciphertext ++ tag) with
    | none => .error .unableToDecrypt
    | some plaintext => .ok plaintext

/-- The checksum covers the ciphertext only and is filled in afterwards. -/
def CryptConfig.encodeEncrypted (lib : Libraries) (crypt : CryptConfig) (random : Option IV)
    (data : Bytes) : Except BlobError Bytes := do
  let (iv, ciphertext, tag) ← crypt.sealData lib random data
  let out := blobEncryptedMagic ++ [0, 0, 0, 0] ++ iv.bytes ++ tag ++ ciphertext
  let crc := (lib.checksum (out.drop encryptedDataBlobHeaderSize)).toNat
  .ok ((((out.set 8 (.ofNat crc)).set 9 (.ofNat (crc / 256))).set 10
    (.ofNat (crc / 256 / 256))).set 11 (.ofNat (crc / 256 / 256 / 256)))

def encoderLevel : String → EncoderLevel
  | "fastest" => .fastest
  | "better" => .better
  | "best" => .best
  | _ => .default

/-- Magic, checksum of the payload, payload. -/
def framed (lib : Libraries) (magic payload : Bytes) : Bytes :=
  magic ++ LittleEndian.encode 4 (lib.checksum payload).toNat ++ payload

/-- The buffer `UploadChunk` posts. -/
def uploadChunk (lib : Libraries) (crypt : Option CryptConfig) (random : Option IV)
    (compressionLevel : String) (chunkdata : Bytes) (compressed : Bool) :
    Except BlobError Bytes :=
  match crypt with
  | some crypt => crypt.encodeEncrypted lib random chunkdata
  | none =>
      if compressed then
        let compressedData := lib.compress (encoderLevel compressionLevel) chunkdata
        if compressedData.length > chunkdata.length then
          -- the call again with `compressed` false
          .ok (framed lib blobUncompressedMagic chunkdata)
        else .ok (framed lib blobCompressedMagic compressedData)
      else .ok (framed lib blobUncompressedMagic chunkdata)

def isEncryptedBlob (raw : Bytes) : Bool :=
  if raw.length < 8 then false
  else raw.take 8 = blobEncryptedMagic || raw.take 8 = blobEncryptedComprMagic

def storedCRC (raw : Bytes) : Nat :=
  LittleEndian.decode ((raw.drop 8).take 4)

def verifyBlobCRC (lib : Libraries) (raw : Bytes) (headerSize : Nat) : Except BlobError Unit :=
  if raw.length < headerSize then .error (.blobTooSmall raw.length)
  else
    let got := (lib.checksum (raw.drop headerSize)).toNat
    if got ≠ storedCRC raw then .error (.crcMismatch (storedCRC raw) got) else .ok ()

def verifyPlaintextDigest (lib : Libraries) (plaintext : Bytes) (crypt : Option CryptConfig)
    (digest : Bytes) : Except BlobError Unit :=
  if digest.length = 0 then .ok ()
  else
    let sum := match crypt with
      | some crypt => crypt.computeDigest lib plaintext
      | none => lib.sha256 plaintext
    if sum ≠ digest then .error (.digestMismatch digest sum) else .ok ()

def verifyUnencryptedDigest (lib : Libraries) (plaintext : Bytes) (crypt : Option CryptConfig)
    (digest : Bytes) : Except BlobError Unit :=
  if crypt.isSome ∧ digest.length > 0 ∧ lib.sha256 plaintext = digest then .ok ()
  else verifyPlaintextDigest lib plaintext crypt digest

def zstdDecodeAll (lib : Libraries) (data : Bytes) : Except BlobError Bytes :=
  match lib.decompress data with
  | none => .error .unableToInflate
  | some plaintext => .ok plaintext

def decodeEncryptedBlob (lib : Libraries) (raw : Bytes) (crypt : Option CryptConfig)
    (digest : Bytes) : Except BlobError Bytes :=
  if raw.length < dataBlobHeaderSize then .error (.blobTooSmall raw.length)
  else if raw.take 8 = blobUncompressedMagic then do
    verifyBlobCRC lib raw dataBlobHeaderSize
    verifyUnencryptedDigest lib (raw.drop dataBlobHeaderSize) crypt digest
    return raw.drop dataBlobHeaderSize
  else if raw.take 8 = blobCompressedMagic then do
    verifyBlobCRC lib raw dataBlobHeaderSize
    let plaintext ← zstdDecodeAll lib (raw.drop dataBlobHeaderSize)
    verifyUnencryptedDigest lib plaintext crypt digest
    return plaintext
  else if raw.take 8 = blobEncryptedMagic then
    match crypt with
    | none => .error .missingKey
    | some key =>
        if raw.length < encryptedDataBlobHeaderSize then
          .error (.encryptedBlobTooSmall raw.length)
        else do
          verifyBlobCRC lib raw encryptedDataBlobHeaderSize
          let plaintext ← key.openData lib ((raw.drop 12).take 16)
            (raw.drop encryptedDataBlobHeaderSize) ((raw.drop 28).take 16)
          verifyPlaintextDigest lib plaintext crypt digest
          return plaintext
  else if raw.take 8 = blobEncryptedComprMagic then .error .encryptedCompressed
  else .error (.unknownMagic (raw.take 8))

/-- What `GetChunkData` makes of a response body: neither of the unencrypted
formats has its checksum compared here. -/
def getChunkData (lib : Libraries) (ret : Bytes) (crypt : Option CryptConfig) :
    Except BlobError Bytes :=
  if ret.length < 12 then .error (.shortResponse ret.length)
  else if ret.take 8 = blobUncompressedMagic then .ok (ret.drop 12)
  else if ret.take 8 = blobCompressedMagic then zstdDecodeAll lib (ret.drop 12)
  else if isEncryptedBlob ret ∧ crypt.isNone then .error .noKeyForChunk
  else decodeEncryptedBlob lib ret crypt []

/-! What the writer makes. -/

theorem aead_ok (crypt : CryptConfig) : crypt.aead = .ok crypt.encKey := by
  have sized : crypt.encKey.length = 32 := crypt.sized
  simp [CryptConfig.aead, sized]

/-- An encrypted blob in its parts. -/
def sealedBlob (lib : Libraries) (iv : IV) (ciphertext tag : Bytes) : Bytes :=
  blobEncryptedMagic ++ LittleEndian.encode 4 (lib.checksum ciphertext).toNat ++
    (iv.bytes ++ (tag ++ ciphertext))

theorem sealData_parts {lib : Libraries} (lawful : lib.Lawful) (crypt : CryptConfig) (iv : IV)
    (data : Bytes) : ∃ ciphertext tag, crypt.sealData lib (some iv) data = .ok (iv, ciphertext, tag) ∧
      ciphertext ++ tag = lib.gcmSeal crypt.encKey iv.bytes data ∧ tag.length = gcmTagSize := by
  have overhead := lawful.overhead crypt.encKey iv.bytes data
  refine ⟨_, _, ?_, List.take_append_drop
    ((lib.gcmSeal crypt.encKey iv.bytes data).length - gcmTagSize) _, ?_⟩
  · have long : ¬ (lib.gcmSeal crypt.encKey iv.bytes data).length < gcmTagSize := by omega
    simp [CryptConfig.sealData, aead_ok, bind, Except.bind, long]
  · rw [List.length_drop]
    omega

theorem encodeEncrypted_parts {lib : Libraries} (lawful : lib.Lawful) (crypt : CryptConfig)
    (iv : IV) (data : Bytes) : ∃ ciphertext tag,
      crypt.encodeEncrypted lib (some iv) data = .ok (sealedBlob lib iv ciphertext tag) ∧
      ciphertext ++ tag = lib.gcmSeal crypt.encKey iv.bytes data ∧ tag.length = gcmTagSize := by
  obtain ⟨ciphertext, tag, parts, whole, sized⟩ := sealData_parts lawful crypt iv data
  refine ⟨ciphertext, tag, ?_, whole, sized⟩
  have ivSized : iv.bytes.length = 16 := iv.sized
  have tagSized : tag.length = 16 := sized
  have payload : (blobEncryptedMagic ++ [0, 0, 0, 0] ++ iv.bytes ++ tag ++ ciphertext).drop
      encryptedDataBlobHeaderSize = ciphertext := by
    apply List.drop_left'
    simp [blobEncryptedMagic, encryptedDataBlobHeaderSize, ivSized, tagSized]
  simp only [CryptConfig.encodeEncrypted, parts, bind, Except.bind, payload]
  simp [sealedBlob, blobEncryptedMagic, LittleEndian.encode]

theorem encodeEncrypted_made {lib : Libraries} (lawful : lib.Lawful) {crypt : CryptConfig}
    {random : Option IV} {data blob : Bytes}
    (made : crypt.encodeEncrypted lib random data = .ok blob) :
    ∃ iv ciphertext tag, blob = sealedBlob lib iv ciphertext tag ∧
      ciphertext ++ tag = lib.gcmSeal crypt.encKey iv.bytes data ∧ tag.length = gcmTagSize := by
  cases random with
  | none => simp [CryptConfig.encodeEncrypted, CryptConfig.sealData, aead_ok, bind, Except.bind] at made
  | some iv =>
      obtain ⟨ciphertext, tag, parts, whole, sized⟩ := encodeEncrypted_parts lawful crypt iv data
      exact ⟨iv, ciphertext, tag, Except.ok.inj (made.symm.trans parts), whole, sized⟩

/-- Without a key the blob is a plain one, or a compressed one. -/
theorem uploadChunk_plain {lib : Libraries} {random : Option IV} {level : String}
    {data blob : Bytes} {compressed : Bool}
    (made : uploadChunk lib none random level data compressed = .ok blob) :
    blob = framed lib blobUncompressedMagic data ∨
      blob = framed lib blobCompressedMagic (lib.compress (encoderLevel level) data) := by
  simp only [uploadChunk] at made
  split at made
  · split at made
    · exact .inl (Except.ok.inj made).symm
    · exact .inr (Except.ok.inj made).symm
  · exact .inl (Except.ok.inj made).symm

theorem uploadChunk_total {lib : Libraries} (lawful : lib.Lawful) (crypt : Option CryptConfig)
    (iv : IV) (level : String) (data : Bytes) (compressed : Bool) :
    ∃ blob, uploadChunk lib crypt (some iv) level data compressed = .ok blob := by
  cases crypt with
  | some crypt =>
      obtain ⟨ciphertext, tag, parts, -, -⟩ := encodeEncrypted_parts lawful crypt iv data
      exact ⟨_, parts⟩
  | none =>
      simp only [uploadChunk]
      split
      · split <;> exact ⟨_, rfl⟩
      · exact ⟨_, rfl⟩

/-! What the readers see of a blob in its parts. -/

theorem head_magic {magic : Bytes} (crc rest : Bytes) (eight : magic.length = 8) :
    (magic ++ crc ++ rest).take 8 = magic := by
  rw [List.append_assoc, List.take_left' eight]

theorem head_rest {magic crc : Bytes} (rest : Bytes) (eight : magic.length = 8)
    (four : crc.length = 4) : (magic ++ crc ++ rest).drop 12 = rest :=
  List.drop_left' (by simp [eight, four])

theorem head_crc {magic crc : Bytes} (rest : Bytes) (eight : magic.length = 8)
    (four : crc.length = 4) : storedCRC (magic ++ crc ++ rest) = LittleEndian.decode crc := by
  rw [storedCRC, List.append_assoc, List.drop_left' eight, List.take_left' four]

theorem head_long {magic crc : Bytes} (rest : Bytes) (eight : magic.length = 8)
    (four : crc.length = 4) : ¬ (magic ++ crc ++ rest).length < 12 := by
  simp [eight, four]
  omega

theorem checksum_read (lib : Libraries) (payload : Bytes) :
    LittleEndian.decode (LittleEndian.encode 4 (lib.checksum payload).toNat) =
      (lib.checksum payload).toNat :=
  LittleEndian.decode_encode 4 _ (by have := (lib.checksum payload).toNat_lt; omega)

theorem verify_framed (lib : Libraries) {magic : Bytes} (payload : Bytes)
    (eight : magic.length = 8) :
    verifyBlobCRC lib (framed lib magic payload) dataBlobHeaderSize = .ok () := by
  have four := LittleEndian.encode_length 4 (lib.checksum payload).toNat
  have long := head_long payload eight four
  have rest := head_rest payload eight four
  have crc := head_crc payload eight four
  rw [checksum_read] at crc
  rw [verifyBlobCRC, dataBlobHeaderSize, framed, if_neg long, rest, crc]
  simp

theorem decode_plain (lib : Libraries) (payload : Bytes) (crypt : Option CryptConfig) :
    decodeEncryptedBlob lib (framed lib blobUncompressedMagic payload) crypt [] = .ok payload := by
  have four := LittleEndian.encode_length 4 (lib.checksum payload).toNat
  have long := head_long payload (by rfl : blobUncompressedMagic.length = 8) four
  have magic := head_magic (LittleEndian.encode 4 (lib.checksum payload).toNat) payload
    (by rfl : blobUncompressedMagic.length = 8)
  have rest := head_rest payload (by rfl : blobUncompressedMagic.length = 8) four
  have verified := verify_framed lib payload (by rfl : blobUncompressedMagic.length = 8)
  simp only [dataBlobHeaderSize, framed] at verified ⊢
  simp only [decodeEncryptedBlob, dataBlobHeaderSize, verified, if_neg long, magic, rest]
  simp [verifyUnencryptedDigest, verifyPlaintextDigest, bind, Except.bind, pure, Except.pure]

theorem decode_compressed (lib : Libraries) (payload data : Bytes) (crypt : Option CryptConfig)
    (inflates : lib.decompress payload = some data) :
    decodeEncryptedBlob lib (framed lib blobCompressedMagic payload) crypt [] = .ok data := by
  have four := LittleEndian.encode_length 4 (lib.checksum payload).toNat
  have long := head_long payload (by rfl : blobCompressedMagic.length = 8) four
  have magic := head_magic (LittleEndian.encode 4 (lib.checksum payload).toNat) payload
    (by rfl : blobCompressedMagic.length = 8)
  have rest := head_rest payload (by rfl : blobCompressedMagic.length = 8) four
  have verified := verify_framed lib payload (by rfl : blobCompressedMagic.length = 8)
  have other : ¬ blobCompressedMagic = blobUncompressedMagic := by decide
  simp only [dataBlobHeaderSize, framed] at verified ⊢
  simp only [decodeEncryptedBlob, dataBlobHeaderSize, verified, if_neg long, magic, rest,
    if_neg other]
  simp [zstdDecodeAll, inflates, verifyUnencryptedDigest, verifyPlaintextDigest, bind, Except.bind,
    pure, Except.pure]

/-- A blob with the encrypted magic under a key: the checksum over the ciphertext,
then the tag. -/
theorem decode_sealed {lib : Libraries} (crypt : CryptConfig) (iv : IV)
    {crc tag : Bytes} (ciphertext : Bytes) (four : crc.length = 4)
    (sized : tag.length = gcmTagSize) :
    decodeEncryptedBlob lib (blobEncryptedMagic ++ crc ++ (iv.bytes ++ (tag ++ ciphertext)))
        (some crypt) [] =
      if (lib.checksum ciphertext).toNat = LittleEndian.decode crc then
        match lib.gcmOpen crypt.encKey iv.bytes (ciphertext ++ tag) with
        | none => .error .unableToDecrypt
        | some plaintext => .ok plaintext
      else .error (.crcMismatch (LittleEndian.decode crc) (lib.checksum ciphertext).toNat) := by
  have eight : blobEncryptedMagic.length = 8 := rfl
  have ivSized : iv.bytes.length = 16 := iv.sized
  have tagSized : tag.length = 16 := sized
  have long := head_long (iv.bytes ++ (tag ++ ciphertext)) eight four
  have magic := head_magic crc (iv.bytes ++ (tag ++ ciphertext)) eight
  have rest := head_rest (iv.bytes ++ (tag ++ ciphertext)) eight four
  have stored := head_crc (iv.bytes ++ (tag ++ ciphertext)) eight four
  generalize raw_eq : blobEncryptedMagic ++ crc ++ (iv.bytes ++ (tag ++ ciphertext)) = raw at *
  have whole : raw.length = 44 + ciphertext.length := by
    rw [← raw_eq]
    simp [eight, four, ivSized, tagSized]
    omega
  have ciphered : raw.drop 44 = ciphertext := by
    rw [show (44 : Nat) = 12 + 32 from rfl, ← List.drop_drop, rest, ← List.append_assoc]
    exact List.drop_left' (by simp [ivSized, tagSized])
  have tagged : (raw.drop 28).take 16 = tag := by
    rw [show (28 : Nat) = 12 + 16 from rfl, ← List.drop_drop, rest, List.drop_left' ivSized,
      List.take_left' tagSized]
  have vector : (raw.drop 12).take 16 = iv.bytes := by rw [rest, List.take_left' ivSized]
  have notPlain : ¬ blobEncryptedMagic = blobUncompressedMagic := by decide
  have notCompressed : ¬ blobEncryptedMagic = blobCompressedMagic := by decide
  have enough : ¬ raw.length < 44 := by omega
  rw [decodeEncryptedBlob, dataBlobHeaderSize, encryptedDataBlobHeaderSize, if_neg long, magic,
    if_neg notPlain, if_neg notCompressed, if_pos rfl]
  simp only [if_neg enough, verifyBlobCRC, ciphered, tagged, vector, stored]
  by_cases same : (lib.checksum ciphertext).toNat = LittleEndian.decode crc
  · have ivFits : ¬ iv.bytes.length ≠ gcmIVSize := fun off => off iv.sized
    have tagFits : ¬ tag.length ≠ gcmTagSize := fun off => off sized
    rw [if_neg (not_not.mpr same), if_pos same]
    simp only [bind, Except.bind, CryptConfig.openData, aead_ok, if_neg ivFits, if_neg tagFits]
    cases lib.gcmOpen crypt.encKey iv.bytes (ciphertext ++ tag) <;>
      simp [verifyPlaintextDigest, pure, Except.pure]
  · rw [if_pos same, if_neg same]
    rfl

theorem get_sealed (lib : Libraries) (crypt : CryptConfig) {raw : Bytes} (long : ¬ raw.length < 12)
    (magic : raw.take 8 = blobEncryptedMagic) :
    getChunkData lib raw (some crypt) = decodeEncryptedBlob lib raw (some crypt) [] := by
  have notPlain : ¬ blobEncryptedMagic = blobUncompressedMagic := by decide
  have notCompressed : ¬ blobEncryptedMagic = blobCompressedMagic := by decide
  simp [getChunkData, long, magic, notPlain, notCompressed]

theorem get_plain (lib : Libraries) (payload : Bytes) {crypt : Option CryptConfig} :
    getChunkData lib (framed lib blobUncompressedMagic payload) crypt = .ok payload := by
  have eight : blobUncompressedMagic.length = 8 := rfl
  have four := LittleEndian.encode_length 4 (lib.checksum payload).toNat
  rw [getChunkData, framed, if_neg (head_long payload eight four), head_magic _ payload eight,
    if_pos rfl, head_rest payload eight four]

theorem get_compressed (lib : Libraries) {payload data : Bytes} {crypt : Option CryptConfig}
    (inflates : lib.decompress payload = some data) :
    getChunkData lib (framed lib blobCompressedMagic payload) crypt = .ok data := by
  have eight : blobCompressedMagic.length = 8 := rfl
  have other : ¬ blobCompressedMagic = blobUncompressedMagic := by decide
  have four := LittleEndian.encode_length 4 (lib.checksum payload).toNat
  rw [getChunkData, framed, if_neg (head_long payload eight four), head_magic _ payload eight,
    if_neg other, if_pos rfl, head_rest payload eight four, zstdDecodeAll, inflates]

/-! A header changed on the way. -/

def Refused (result : Except BlobError Bytes) : Prop :=
  ∃ error, result = .error error

/-- Another magic, checksum or tag in the places where `blob` has its own; an
unencrypted blob has no tag. -/
def reheaded (blob magic crc tag : Bytes) : Bytes :=
  if isEncryptedBlob blob then
    magic ++ crc ++ ((blob.drop 12).take 16 ++ (tag ++ blob.drop encryptedDataBlobHeaderSize))
  else magic ++ crc ++ blob.drop dataBlobHeaderSize

structure Tampered (blob changed : Bytes) : Prop where
  header : ∃ magic crc tag, magic.length = 8 ∧ crc.length = 4 ∧ tag.length = gcmTagSize ∧
    changed = reheaded blob magic crc tag
  differs : changed ≠ blob

/-- The magic asks for no check at all: the plain one, or the compressed one in
front of bytes that inflate. -/
def Unchecked (lib : Libraries) (raw : Bytes) : Prop :=
  raw.take 8 = blobUncompressedMagic ∨
    raw.take 8 = blobCompressedMagic ∧ (lib.decompress (raw.drop 12)).isSome

theorem refused_error (error : BlobError) : Refused (.error error) := ⟨error, rfl⟩

theorem not_refused_ok (data : Bytes) : ¬ Refused (.ok data) := by
  rintro ⟨error, made⟩
  cases made

theorem refused_inflate (lib : Libraries) (payload : Bytes) :
    Refused (zstdDecodeAll lib payload) ↔ ¬ (lib.decompress payload).isSome := by
  rw [zstdDecodeAll]
  cases lib.decompress payload with
  | none => simp [refused_error]
  | some data => simp [not_refused_ok]

theorem encrypted_other (lib : Libraries) {raw : Bytes} (magic : raw.take 8 = blobEncryptedMagic) :
    ¬ Unchecked lib raw := by
  rintro (plain | ⟨compressed, -⟩)
  · exact absurd (magic.symm.trans plain) (by decide)
  · exact absurd (magic.symm.trans compressed) (by decide)

/-- `DecodeEncryptedBlob` on any bytes long enough for a header: it compares the
checksum of all that follows before it takes one of the unencrypted formats. -/
theorem refused_decode (lib : Libraries) {raw : Bytes} {crypt : Option CryptConfig}
    (long : ¬ raw.length < 12)
    (guarded : raw.take 8 = blobEncryptedMagic → Refused (decodeEncryptedBlob lib raw crypt [])) :
    Refused (decodeEncryptedBlob lib raw crypt []) ↔
      ¬ (Unchecked lib raw ∧ (lib.checksum (raw.drop 12)).toNat = storedCRC raw) := by
  by_cases encrypted : raw.take 8 = blobEncryptedMagic
  · simp [guarded encrypted, encrypted_other lib encrypted]
  by_cases plain : raw.take 8 = blobUncompressedMagic
  · by_cases same : (lib.checksum (raw.drop 12)).toNat = storedCRC raw <;>
      simp [decodeEncryptedBlob, dataBlobHeaderSize, verifyBlobCRC, long, plain, same, bind,
        Except.bind, verifyUnencryptedDigest, verifyPlaintextDigest, pure, Except.pure,
        refused_error, not_refused_ok, Unchecked]
  by_cases compressed : raw.take 8 = blobCompressedMagic
  · have other : ¬ blobCompressedMagic = blobUncompressedMagic := by decide
    by_cases same : (lib.checksum (raw.drop 12)).toNat = storedCRC raw
    · cases inflated : lib.decompress (raw.drop 12) <;>
        simp [decodeEncryptedBlob, dataBlobHeaderSize, verifyBlobCRC, long, compressed, other,
          same, zstdDecodeAll, inflated, bind, Except.bind, verifyUnencryptedDigest,
          verifyPlaintextDigest, pure, Except.pure, refused_error, not_refused_ok, Unchecked]
    · simp [decodeEncryptedBlob, dataBlobHeaderSize, verifyBlobCRC, long, compressed, other,
        same, bind, Except.bind, refused_error]
  · have refused : Refused (decodeEncryptedBlob lib raw crypt []) := by
      simp only [decodeEncryptedBlob, dataBlobHeaderSize, if_neg long, if_neg plain,
        if_neg compressed, if_neg encrypted]
      split <;> exact refused_error _
    simp [refused, Unchecked, plain, compressed]

/-- `GetChunkData` compares no checksum before it does. -/
theorem refused_get (lib : Libraries) {raw : Bytes} {crypt : Option CryptConfig}
    (long : ¬ raw.length < 12)
    (guarded : raw.take 8 = blobEncryptedMagic → Refused (decodeEncryptedBlob lib raw crypt [])) :
    Refused (getChunkData lib raw crypt) ↔ ¬ Unchecked lib raw := by
  by_cases plain : raw.take 8 = blobUncompressedMagic
  · simp [getChunkData, long, plain, not_refused_ok, Unchecked]
  by_cases compressed : raw.take 8 = blobCompressedMagic
  · have other : ¬ blobCompressedMagic = blobUncompressedMagic := by decide
    simp [getChunkData, long, compressed, other, refused_inflate, Unchecked]
  · have open_check : ¬ Unchecked lib raw := by simp [Unchecked, plain, compressed]
    have decoded := (refused_decode lib long guarded).mpr (fun both => open_check both.1)
    have refused : Refused (getChunkData lib raw crypt) := by
      simp only [getChunkData, if_neg long, if_neg plain, if_neg compressed]
      split
      · exact refused_error _
      · exact decoded
    simp [refused, open_check]

theorem decode_keyless (lib : Libraries) {raw : Bytes} (long : ¬ raw.length < 12)
    (magic : raw.take 8 = blobEncryptedMagic) :
    Refused (decodeEncryptedBlob lib raw none []) := by
  have notPlain : ¬ blobEncryptedMagic = blobUncompressedMagic := by decide
  have notCompressed : ¬ blobEncryptedMagic = blobCompressedMagic := by decide
  simp [decodeEncryptedBlob, dataBlobHeaderSize, long, magic, notPlain, notCompressed,
    refused_error]

theorem sealed_round {lib : Libraries} (lawful : lib.Lawful) (crypt : CryptConfig) {iv : IV}
    {ciphertext tag data : Bytes} (whole : ciphertext ++ tag = lib.gcmSeal crypt.encKey iv.bytes data)
    (sized : tag.length = gcmTagSize) :
    decodeEncryptedBlob lib (sealedBlob lib iv ciphertext tag) (some crypt) [] = .ok data := by
  have opened : lib.gcmOpen crypt.encKey iv.bytes (ciphertext ++ tag) = some data := by
    rw [whole]
    exact lawful.opens _ _ _
  rw [sealedBlob, decode_sealed crypt iv ciphertext (LittleEndian.encode_length 4 _) sized,
    if_pos (checksum_read lib ciphertext).symm, opened]

theorem sealed_encrypted (lib : Libraries) (iv : IV) (ciphertext tag : Bytes) :
    isEncryptedBlob (sealedBlob lib iv ciphertext tag) = true := by
  simp [isEncryptedBlob, sealedBlob, blobEncryptedMagic]

theorem sealed_parts (lib : Libraries) (iv : IV) (ciphertext : Bytes) {tag : Bytes}
    (sized : tag.length = gcmTagSize) :
    ((sealedBlob lib iv ciphertext tag).drop 12).take 16 = iv.bytes ∧
      (sealedBlob lib iv ciphertext tag).drop encryptedDataBlobHeaderSize = ciphertext := by
  have tagSized : tag.length = 16 := sized
  have ivSized : iv.bytes.length = 16 := iv.sized
  have rest := head_rest (iv.bytes ++ (tag ++ ciphertext))
    (by rfl : blobEncryptedMagic.length = 8)
    (LittleEndian.encode_length 4 (lib.checksum ciphertext).toNat)
  constructor
  · rw [sealedBlob, rest, List.take_left' ivSized]
  · rw [sealedBlob, encryptedDataBlobHeaderSize, show (44 : Nat) = 12 + 32 from rfl,
      ← List.drop_drop, rest, ← List.append_assoc]
    exact List.drop_left' (by simp [ivSized, tagSized])

/-- One ciphertext has one checksum and one tag, so a blob that still says it is
encrypted is refused as soon as either differs. -/
theorem tampered_sealed {lib : Libraries} (lawful : lib.Lawful) (crypt : CryptConfig) {iv : IV}
    {ciphertext tag data changed : Bytes}
    (whole : ciphertext ++ tag = lib.gcmSeal crypt.encKey iv.bytes data)
    (sized : tag.length = gcmTagSize)
    (tampered : Tampered (sealedBlob lib iv ciphertext tag) changed)
    (encrypted : changed.take 8 = blobEncryptedMagic) :
    Refused (decodeEncryptedBlob lib changed (some crypt) []) := by
  obtain ⟨⟨magic, crc, tag', eight, four, sized', made⟩, differs⟩ := tampered
  have parts := sealed_parts lib iv ciphertext sized
  rw [reheaded, if_pos (sealed_encrypted lib iv ciphertext tag), parts.1, parts.2] at made
  have named : magic = blobEncryptedMagic := by
    rw [made, head_magic _ _ eight] at encrypted
    exact encrypted
  subst named
  rw [made, decode_sealed crypt iv ciphertext four sized']
  by_cases same : (lib.checksum ciphertext).toNat = LittleEndian.decode crc
  · rw [if_pos same]
    cases opened : lib.gcmOpen crypt.encKey iv.bytes (ciphertext ++ tag') with
    | none => exact refused_error _
    | some plaintext =>
        have genuine : lib.gcmOpen crypt.encKey iv.bytes (ciphertext ++ tag) = some data := by
          rw [whole]
          exact lawful.opens _ _ _
        have tagSame := lawful.authentic _ _ _ _ _ _ _ sized sized' genuine opened
        have crcSame : crc = LittleEndian.encode 4 (lib.checksum ciphertext).toNat := by
          rw [same, ← four, LittleEndian.encode_decode]
        rw [tagSame, crcSame] at made
        exact absurd made differs
  · rw [if_neg same]
    exact refused_error _

theorem tampered_long {blob changed : Bytes} (tampered : Tampered blob changed) :
    ¬ changed.length < 12 := by
  obtain ⟨magic, crc, tag, eight, four, -, made⟩ := tampered.header
  rw [made, reheaded]
  split <;> exact head_long _ eight four

/-- Every blob the writer makes is read back as the data by either reader. A blob with
another magic, checksum or tag is refused by `GetChunkData` unless its magic asks for
no check, and by `DecodeEncryptedBlob` unless, on top of that, the checksum it carries
is that of all that follows it. -/
theorem chunk_framing_exact {lib : Libraries} (lawful : lib.Lawful) (crypt : Option CryptConfig)
    (level : String) (data : Bytes) (compressed : Bool) :
    (∀ iv, ∃ blob, uploadChunk lib crypt (some iv) level data compressed = .ok blob) ∧
    ∀ random blob, uploadChunk lib crypt random level data compressed = .ok blob →
      getChunkData lib blob crypt = .ok data ∧
      decodeEncryptedBlob lib blob crypt [] = .ok data ∧
      ∀ changed, Tampered blob changed →
        (Refused (getChunkData lib changed crypt) ↔ ¬ Unchecked lib changed) ∧
        (Refused (decodeEncryptedBlob lib changed crypt []) ↔
          ¬ (Unchecked lib changed ∧
            (lib.checksum (changed.drop 12)).toNat = storedCRC changed)) := by
  refine ⟨fun iv => uploadChunk_total lawful crypt iv level data compressed, ?_⟩
  intro random blob made
  cases crypt with
  | some crypt =>
      obtain ⟨iv, ciphertext, tag, form, whole, sized⟩ := encodeEncrypted_made lawful made
      have four := LittleEndian.encode_length 4 (lib.checksum ciphertext).toNat
      have decoded := sealed_round lawful crypt whole sized
      have got := get_sealed lib crypt
        (head_long (iv.bytes ++ (tag ++ ciphertext)) (by rfl : blobEncryptedMagic.length = 8) four)
        (head_magic _ (iv.bytes ++ (tag ++ ciphertext)) (by rfl : blobEncryptedMagic.length = 8))
      subst form
      refine ⟨got.trans decoded, decoded, fun changed tampered => ?_⟩
      have guarded := tampered_sealed lawful crypt whole sized tampered
      exact ⟨refused_get lib (tampered_long tampered) guarded,
        refused_decode lib (tampered_long tampered) guarded⟩
  | none =>
      have guarded : ∀ changed, Tampered blob changed → changed.take 8 = blobEncryptedMagic →
          Refused (decodeEncryptedBlob lib changed none []) :=
        fun changed tampered magic => decode_keyless lib (tampered_long tampered) magic
      refine ⟨?_, ?_, fun changed tampered => ⟨refused_get lib (tampered_long tampered)
        (guarded changed tampered), refused_decode lib (tampered_long tampered)
        (guarded changed tampered)⟩⟩
      · obtain rfl | rfl := uploadChunk_plain made
        · exact get_plain lib data
        · exact get_compressed lib (lawful.inflates _ _)
      · obtain rfl | rfl := uploadChunk_plain made
        · exact decode_plain lib data none
        · exact decode_compressed lib _ data none (lawful.inflates _ _)

/-! Libraries to try the format with: the IEEE checksum bit by bit, frames that store
their data, and a tag of the key, the IV and the data. -/

def crcBit (crc : UInt32) : UInt32 :=
  if crc &&& 1 = 1 then (crc >>> 1) ^^^ 0xEDB88320 else crc >>> 1

def crc32 (data : Bytes) : UInt32 :=
  data.foldl (fun crc byte => crcBit^[8] (crc ^^^ byte.toUInt32)) 0xFFFFFFFF ^^^ 0xFFFFFFFF

def frameMagic : Bytes := [40, 181, 47, 253]

def storedTag (key iv data : Bytes) : Bytes :=
  LittleEndian.encode gcmTagSize (crc32 (key ++ iv ++ data)).toNat

def storing : Libraries where
  compress _ data := frameMagic ++ data
  decompress payload := if payload.take 4 = frameMagic then some (payload.drop 4) else none
  checksum := crc32
  gcmSeal key iv data := data ++ storedTag key iv data
  gcmOpen key iv sealed :=
    let data := sealed.take (sealed.length - gcmTagSize)
    if sealed.drop (sealed.length - gcmTagSize) = storedTag key iv data then some data else none
  sha256 := id

theorem storing_open (key iv data tag : Bytes) (sized : tag.length = gcmTagSize) :
    storing.gcmOpen key iv (data ++ tag) =
      if tag = storedTag key iv data then some data else none := by
  have split : (data ++ tag).length - gcmTagSize = data.length := by
    rw [List.length_append, sized]
    omega
  simp only [storing, split, List.take_left, List.drop_left]

theorem storing_lawful : storing.Lawful where
  inflates level data := by
    simp [storing, frameMagic]
  opens key iv data := by
    have sealed : storing.gcmSeal key iv data = data ++ storedTag key iv data := rfl
    have sized : (storedTag key iv data).length = gcmTagSize := LittleEndian.encode_length _ _
    rw [sealed, storing_open _ _ _ _ sized, if_pos rfl]
  overhead key iv data := by
    simp [storing, storedTag]
  authentic key iv ciphertext tag tag' data data' sized sized' first second := by
    rw [storing_open _ _ _ _ sized] at first
    rw [storing_open _ _ _ _ sized'] at second
    split at first
    · rename_i genuine
      split at second
      · rename_i same
        exact same.trans genuine.symm
      · cases second
    · cases first

/-- The two bytes "hi" in a plain blob. -/
def hiBlob : Bytes := blobUncompressedMagic ++ [172, 42, 147, 216] ++ [104, 105]

theorem hi_read_back :
    uploadChunk storing none none "fastest" [104, 105] false = .ok hiBlob ∧
      getChunkData storing hiBlob none = .ok [104, 105] := by
  have made : uploadChunk storing none none "fastest" [104, 105] false = .ok hiBlob := by
    decide +kernel
  exact ⟨made, ((chunk_framing_exact storing_lawful none "fastest" [104, 105] false).2 none hiBlob
    made).1⟩

/-- The same blob with its checksum zeroed is taken as it is by `GetChunkData`, and
refused by `DecodeEncryptedBlob`. -/
theorem zeroed_checksum_read : ∃ lib, lib.Lawful ∧ ∃ blob changed,
    uploadChunk lib none none "fastest" [104, 105] false = .ok blob ∧ Tampered blob changed ∧
      storedCRC changed ≠ storedCRC blob ∧
      ¬ Refused (getChunkData lib changed none) ∧
      Refused (decodeEncryptedBlob lib changed none []) := by
  refine ⟨storing, storing_lawful, hiBlob,
    blobUncompressedMagic ++ [0, 0, 0, 0] ++ [104, 105], by decide +kernel, ⟨?_, by decide⟩,
    by decide +kernel, ?_, ?_⟩
  · exact ⟨blobUncompressedMagic, [0, 0, 0, 0], List.replicate 16 0, rfl, rfl, rfl, by decide⟩
  · have got : getChunkData storing (blobUncompressedMagic ++ [0, 0, 0, 0] ++ [104, 105]) none =
        .ok [104, 105] := by decide +kernel
    rw [got]
    exact not_refused_ok _
  · have refused : decodeEncryptedBlob storing
        (blobUncompressedMagic ++ [0, 0, 0, 0] ++ [104, 105]) none [] =
        .error (.crcMismatch 0 3633523372) := by decide +kernel
    rw [refused]
    exact refused_error _

end ProxmoxBackup.ChunkBlob
