import Mathlib.Data.List.Nodup
import ProxmoxBackup.FixedIndexFile
import ProxmoxBackup.TransitionSystem

/-! FIDXServer of nbd/fidxserver.go: the image behind a block device, read through a
cache of chunks. The tries to fetch a chunk, with the reconnects between them, are one
outcome. ReadAt holds the lock, so one call follows another. -/

namespace ProxmoxBackup.NbdServer

open ArchiveNames (Text)
open ChunkIndex (Bytes)
open FixedIndexFile GoValues TransitionSystem

def LRU_CACHE_LIFE : Int := 16

structure CachedChunk where
  Data : Bytes
  Index : Int
  Life : Int
  deriving DecidableEq

structure FIDXServer where
  Size : Nat
  ChunkSize : Nat
  chunks : List Text
  cached : List CachedChunk
  deriving DecidableEq

/-- The loop of NewFIDXServer reads digests as GetKnownSha265FromFIDX does. -/
def NewFIDXServer (data : Bytes) : Outcome FIDXError FIDXServer :=
  if data.length < fidxHeaderSize then .error (.shortHeader data.length)
  else if data.take 8 ≠ fidxMagic then .error .magic
  else if headerChunkSize data = 0 then .error .chunkSizeZero
  else
    let count := headerSize data / headerChunkSize data +
      min 1 (headerSize data % headerChunkSize data)
    match knownFrom count (data.drop fidxHeaderSize) with
    | .ok chunks => .ok ⟨headerSize data, headerChunkSize data, chunks, []⟩
    | .error err => .error err
    | .panicked => .panicked

inductive ReadError where
  | negativeOffset (off : Int)
  | eof
  | outOfRange (index : Int) (chunks : Nat)
  | fetch (index : Int)
  | chunkLength (index : Int) (length : Nat) (need : Int)
  | shortRead (got want : Int)
  deriving DecidableEq

structure ChunkIndex where
  Index : Int
  SliceStart : Int
  SliceEnd : Int
  deriving DecidableEq

/-- The loop of getChunksIndexes from i on, for the turns left. -/
def indexesFrom (cs offset size : Int) : Nat → Int → List ChunkIndex
  | 0, _ => []
  | left + 1, i =>
      let ss := max 0 (int64 (offset - int64 (i * cs)))
      let se := min cs (int64 (int64 (offset + size) - int64 (i * cs)))
      if int64 (se - ss) = 0 then indexesFrom cs offset size left (i + 1)
      else ⟨i, ss, se⟩ :: indexesFrom cs offset size left (i + 1)

namespace FIDXServer

variable (f : FIDXServer)

def getChunksIndexes (offset size : Int) : List ChunkIndex :=
  let cs := int64 f.ChunkSize
  let first := int64 (offset.tdiv cs)
  let stop := int64 (int64 ((int64 (offset + size)).tdiv cs) + 1)
  indexesFrom cs offset size (stop - first).toNat first

end FIDXServer

def find (cached : List CachedChunk) (index : Int) : Option CachedChunk :=
  cached.find? fun ch => ch.Index = index

/-- The life of a chunk that was read. -/
def touch (cached : List CachedChunk) (index : Int) : List CachedChunk :=
  cached.map fun ch => if ch.Index = index then { ch with Life := LRU_CACHE_LIFE } else ch

/-- A chunk that was fetched goes in, and the others age. -/
def store (cached : List CachedChunk) (index : Int) (data : Bytes) : List CachedChunk :=
  ⟨data, index, LRU_CACHE_LIFE⟩ :: cached.map fun ch => { ch with Life := ch.Life - 1 }

/-- A chunk's data and the cache behind it; the call may end here. -/
inductive Access where
  | data (bytes : Bytes) (cached : List CachedChunk)
  | failed (err : ReadError) (cached : List CachedChunk)

/-- copy(p[pos:], data) where it fits. -/
def overwrite (p : Bytes) (pos : Nat) (data : Bytes) : Bytes :=
  p.take pos ++ data ++ p.drop (pos + data.length)

/-- How ReadAt ends: what it returns, the buffer and the cache. -/
inductive Returned where
  | returned (n : Int) (err : Option ReadError) (p : Bytes) (cached : List CachedChunk)
  | panicked
  deriving DecidableEq

section

variable (f : FIDXServer) (fetch : Int → Option Bytes)

/-- The body of ReadAt's loop, to the check of the chunk's length. -/
def access (cached : List CachedChunk) (idx : ChunkIndex) : Access :=
  if idx.Index < 0 ∨ idx.Index ≥ f.chunks.length then
    .failed (.outOfRange idx.Index f.chunks.length) cached
  else match find cached idx.Index with
    | some ch =>
        if idx.SliceEnd > ch.Data.length then
          .failed (.chunkLength idx.Index ch.Data.length idx.SliceEnd) cached
        else .data ch.Data (touch cached idx.Index)
    | none => match fetch idx.Index with
        | none => .failed (.fetch idx.Index) cached
        | some data =>
            if idx.SliceEnd > data.length then
              .failed (.chunkLength idx.Index data.length idx.SliceEnd) (store cached idx.Index data)
            else .data data (store cached idx.Index data)

/-- p[pos:pos+(SliceEnd-SliceStart)] and data[SliceStart:SliceEnd] are in range. -/
def SlicesFit (idx : ChunkIndex) (pos : Int) (p data : Bytes) : Prop :=
  0 ≤ pos ∧ pos ≤ int64 (pos + int64 (idx.SliceEnd - idx.SliceStart)) ∧
    int64 (pos + int64 (idx.SliceEnd - idx.SliceStart)) ≤ p.length ∧
    0 ≤ idx.SliceStart ∧ idx.SliceStart ≤ idx.SliceEnd ∧ idx.SliceEnd ≤ data.length

instance (idx : ChunkIndex) (pos : Int) (p data : Bytes) : Decidable (SlicesFit idx pos p data) := by
  unfold SlicesFit
  infer_instance

/-- ReadAt's loop, and what follows it. -/
def readIndexes (want : Int) (eof : Bool) :
    List ChunkIndex → List CachedChunk → Bytes → Int → Returned
  | [], cached, p, pos =>
      let cached := cached.filter fun ch => 0 < ch.Life
      if pos ≠ want then .returned 0 (some (.shortRead pos want)) p cached
      else .returned pos (if eof then some .eof else none) p cached
  | idx :: rest, cached, p, pos =>
      match access f fetch cached idx with
      | .failed err cached => .returned 0 (some err) p cached
      | .data data cached =>
          if SlicesFit idx pos p data then
            readIndexes want eof rest cached
              (overwrite p pos.toNat
                ((data.drop idx.SliceStart.toNat).take (idx.SliceEnd - idx.SliceStart).toNat))
              (int64 (pos + int64 (idx.SliceEnd - idx.SliceStart)))
          else .panicked

def ReadAt (p : Bytes) (off : Int) : Returned :=
  if off < 0 then .returned 0 (some (.negativeOffset off)) p f.cached
  else if off ≥ int64 f.Size then .returned 0 (some .eof) p f.cached
  else
    let want : Int := p.length
    let beyond := int64 (off + want) > int64 f.Size
    let want := if beyond then int64 (int64 f.Size - off) else want
    readIndexes f fetch want beyond (f.getChunksIndexes off want) f.cached p 0

end

/-! The calls of one server. -/

/-- A ReadAt call: Go's int64 offset and a buffer whose length is an int. -/
structure Call where
  p : Bytes
  off : Int
  sized : p.length < 2 ^ 63
  low : -2 ^ 63 ≤ off
  high : off < 2 ^ 63

/-- A call and what the fetches of chunks in it come to. -/
structure Turn where
  call : Call
  fetch : Int → Option Bytes

def step (f : FIDXServer) (turn : Turn) : Option FIDXServer :=
  match ReadAt f turn.fetch turn.call.p turn.call.off with
  | .returned _ _ _ cached => some { f with cached }
  | .panicked => none

/-- A server on a file, and one call after another; a panic ends it. -/
def serverSystem (file : FixedIndexFile.ByteSlice) : System FIDXServer Turn where
  start f := NewFIDXServer file.data = .ok f
  step f turn next := step f turn = some next

/-! The image. -/

section

variable (image : Nat → UInt8)

def imageBytes (start n : Nat) : Bytes := (List.range' start n).map image

def chunkData (f : FIDXServer) (k : Nat) : Bytes :=
  imageBytes image (k * f.ChunkSize) (min f.ChunkSize (f.Size - k * f.ChunkSize))

/-- A fetch that comes to something comes to the chunk. -/
def Honest (f : FIDXServer) (fetch : Int → Option Bytes) : Prop :=
  ∀ k data, fetch k = some data → data = chunkData image f k.toNat

def Delivers (f : FIDXServer) (fetch : Int → Option Bytes) : Prop :=
  ∀ k < f.chunks.length, fetch k = some (chunkData image f k)

/-- Up to where a call reads. -/
def Call.stop (c : Call) (f : FIDXServer) : Nat := min (c.off.toNat + c.p.length) f.Size

/-- No fetch makes the call panic, and where the chunks can be had it returns the
image's bytes from its offset to its end or the image's. -/
structure Serves (f : FIDXServer) (c : Call) : Prop where
  safe : ∀ fetch, ReadAt f fetch c.p c.off ≠ .panicked
  exact_ : ∀ fetch, Delivers image f fetch → 0 ≤ c.off →
    ∃ err cached, ReadAt f fetch c.p c.off = .returned ((c.stop f - c.off.toNat : Nat) : Int) err
        (imageBytes image c.off.toNat (c.stop f - c.off.toNat) ++
          c.p.drop (c.stop f - c.off.toNat)) cached ∧
      (err = none ∨ err = some .eof)
  negative : ∀ fetch, c.off < 0 → ∃ err, ReadAt f fetch c.p c.off = .returned 0 (some err) c.p f.cached

end

/-! A server that was accepted. -/

/-- What NewFIDXServer makes sure of, and no call changes. -/
structure Accepted (f : FIDXServer) : Prop where
  size : f.Size < 2 ^ 64
  chunk : f.ChunkSize < 2 ^ 64
  proper : 0 < f.ChunkSize
  count : f.chunks.length = f.Size / f.ChunkSize + min 1 (f.Size % f.ChunkSize)
  few : f.chunks.length < 2 ^ 58

theorem knownFrom_length (left : Nat) (rdr : Bytes) (digests : List Text)
    (read : knownFrom left rdr = .ok digests) :
    digests.length = left ∧ left * 32 ≤ rdr.length := by
  induction left generalizing rdr digests with
  | zero =>
      cases read
      exact ⟨rfl, by omega⟩
  | succ left ih =>
      unfold knownFrom at read
      split at read
      · cases read
      · split at read
        · cases read
        · split at read
          · next rest tail =>
              cases read
              obtain ⟨length, inside⟩ := ih _ _ tail
              rw [List.length_drop] at inside
              rw [List.length_cons, length]
              omega
          · cases read
          · cases read

theorem accepted_new {file : FixedIndexFile.ByteSlice} {f : FIDXServer} (made : NewFIDXServer file.data = .ok f) :
    Accepted f ∧ f.cached = [] := by
  have fits := file.fits
  unfold NewFIDXServer at made
  split at made
  · cases made
  · split at made
    · cases made
    · split at made
      · cases made
      · next proper =>
          dsimp only at made
          split at made
          · next chunks read =>
              cases made
              obtain ⟨count, inside⟩ := knownFrom_length _ _ _ read
              rw [List.length_drop] at inside
              refine ⟨⟨headerSize_lt _, headerChunkSize_lt _, Nat.pos_of_ne_zero proper, count, ?_⟩, rfl⟩
              dsimp only
              omega
          · cases made
          · cases made

theorem Accepted.index_lt {f : FIDXServer} (accepted : Accepted f) {k : Nat}
    (begins : k * f.ChunkSize < f.Size) : k < f.chunks.length := by
  have whole := Nat.div_add_mod f.Size f.ChunkSize
  have quotient : k ≤ f.Size / f.ChunkSize :=
    (Nat.le_div_iff_mul_le accepted.proper).mpr (Nat.le_of_lt begins)
  rw [accepted.count]
  by_cases last : k = f.Size / f.ChunkSize
  · rw [last, Nat.mul_comm] at begins
    omega
  · omega

/-! The chunks of a call that reaches neither the image's end nor an int64's. -/

/-- The parts of a read from off to stop, by the chunks that have them. -/
def pieces (C off stop : Nat) : Nat → Nat → List ChunkIndex
  | 0, _ => []
  | left + 1, i =>
      let first := max off (i * C)
      let last := min stop ((i + 1) * C)
      if first = last then pieces C off stop left (i + 1)
      else ⟨i, (first : Int) - (i * C : Nat), (last : Int) - (i * C : Nat)⟩ ::
        pieces C off stop left (i + 1)

theorem indexesFrom_pieces (C off want left i : Nat) (chunk : C < 2 ^ 63)
    (bound : off + want < 2 ^ 63) (proper : 0 < C) (reached : off < (i + 1) * C)
    (rest : i + left = (off + want) / C + 1) :
    indexesFrom C off want left i = pieces C off (off + want) left i := by
  induction left generalizing i with
  | zero => rfl
  | succ left ih =>
      have begun : i * C ≤ off + want :=
        (Nat.le_div_iff_mul_le proper).mp (by omega)
      have next : (i + 1) * C = i * C + C := by rw [Nat.add_mul, Nat.one_mul]
      have later := ih (i + 1) (by rw [Nat.add_mul (i + 1), Nat.one_mul]; omega) (by omega)
      have cast : ((i : Int) + 1) = ((i + 1 : Nat) : Int) := rfl
      have product : (i : Int) * (C : Int) = ((i * C : Nat) : Int) := (Int.natCast_mul i C).symm
      unfold indexesFrom pieces
      rw [product, cast, later, next] at *
      generalize i * C = x at *
      rw [int64_same (x : Int) (by omega) (by omega)]
      rw [int64_same ((off : Int) - x) (by omega) (by omega), int64_same ((off : Int) + want) (by omega) (by omega),
        int64_same ((off : Int) + want - x) (by omega) (by omega)]
      dsimp only
      have low : max 0 ((off : Int) - x) = (max off x : Nat) - x := by omega
      have high : min (C : Int) ((off : Int) + want - x) = (min (off + want) (x + C) : Nat) - x := by omega
      rw [low, high, int64_same _ (by omega) (by omega)]
      have same : ((min (off + want) (x + C) : Nat) - (x : Int) - ((max off x : Nat) - x) = 0) ↔
          max off x = min (off + want) (x + C) := by omega
      rw [if_congr same rfl rfl]

/-! What a call's loop does. -/

theorem int64_nat (n : Nat) (fits : n < 2 ^ 63) : int64 (n : Int) = n :=
  int64_same _ (by omega) (by omega)

/-- The end of what has been read before chunk i. -/
def readTo (C off stop i : Nat) : Nat := min stop (max off (i * C))

theorem readTo_begun {C off stop i : Nat} (order : off ≤ stop) (begun : i * C ≤ stop) :
    readTo C off stop i = max off (i * C) :=
  Nat.min_eq_right (Nat.max_le.mpr ⟨order, begun⟩)

theorem readTo_next {C off stop i : Nat} (reached : off < (i + 1) * C) :
    readTo C off stop (i + 1) = min stop ((i + 1) * C) := by
  unfold readTo
  rw [Nat.max_eq_right (Nat.le_of_lt reached)]

/-- Where a piece begins and ends. -/
theorem readTo_bounds {C off stop i : Nat} (order : off ≤ stop) (begun : i * C ≤ stop) :
    off ≤ readTo C off stop i ∧ i * C ≤ readTo C off stop i ∧
      readTo C off stop i ≤ readTo C off stop (i + 1) ∧ readTo C off stop (i + 1) ≤ stop := by
  have next : i * C ≤ (i + 1) * C := Nat.mul_le_mul_right C (Nat.le_succ i)
  rw [readTo_begun order begun]
  exact ⟨Nat.le_max_left _ _, Nat.le_max_right _ _,
    Nat.le_min.mpr ⟨Nat.max_le.mpr ⟨order, begun⟩, max_le_max_left off next⟩, Nat.min_le_left _ _⟩

/-- A piece fits into the buffer behind what has been read, and into its chunk. -/
theorem piece_fits {C off stop i : Nat} {p data : Bytes} (bound : stop < 2 ^ 63)
    (order : off ≤ stop) (room : stop - off ≤ p.length) (begun : i * C ≤ stop)
    (reached : off < (i + 1) * C) (long : (min stop ((i + 1) * C) : Nat) - ((i * C : Nat) : Int) ≤ data.length) :
    SlicesFit ⟨i, (max off (i * C) : Nat) - ((i * C : Nat) : Int),
      (min stop ((i + 1) * C) : Nat) - ((i * C : Nat) : Int)⟩ ((readTo C off stop i - off : Nat) : Int) p data ∧
    int64 (((readTo C off stop i - off : Nat) : Int) +
      int64 (((min stop ((i + 1) * C) : Nat) - ((i * C : Nat) : Int)) -
        ((max off (i * C) : Nat) - ((i * C : Nat) : Int)))) =
      ((readTo C off stop (i + 1) - off : Nat) : Int) := by
  obtain ⟨least, begins, forward, inside⟩ := readTo_bounds order begun
  rw [← readTo_next reached] at long ⊢
  rw [← readTo_begun order begun]
  unfold SlicesFit
  dsimp only
  generalize readTo C off stop i = first at *
  generalize readTo C off stop (i + 1) = last at *
  clear reached order
  generalize i * C = x at *
  have width : ((last : Int) - (x : Int)) - (first - (x : Int)) = ((last - first : Nat) : Int) := by omega
  have sum : (((first - off : Nat) : Int) + ((last - first : Nat) : Int)) = ((last - off : Nat) : Int) := by
    omega
  rw [width, int64_nat _ (by omega), sum, int64_nat _ (by omega)]
  omega

/-- What an access can come to, and from what. -/
inductive Accessed (f : FIDXServer) (fetch : Int → Option Bytes) (cached : List CachedChunk)
    (idx : ChunkIndex) : Access → Prop where
  | outside : Accessed f fetch cached idx (.failed (.outOfRange idx.Index f.chunks.length) cached)
  | shortHit {ch : CachedChunk} (found : find cached idx.Index = some ch) :
      Accessed f fetch cached idx
        (.failed (.chunkLength idx.Index ch.Data.length idx.SliceEnd) cached)
  | hit {ch : CachedChunk} (found : find cached idx.Index = some ch)
      (long : idx.SliceEnd ≤ ch.Data.length) :
      Accessed f fetch cached idx (.data ch.Data (touch cached idx.Index))
  | lost : Accessed f fetch cached idx (.failed (.fetch idx.Index) cached)
  | shortFetch {data : Bytes} (missing : find cached idx.Index = none)
      (inside : 0 ≤ idx.Index ∧ idx.Index < f.chunks.length) (sent : fetch idx.Index = some data) :
      Accessed f fetch cached idx
        (.failed (.chunkLength idx.Index data.length idx.SliceEnd) (store cached idx.Index data))
  | fetched {data : Bytes} (missing : find cached idx.Index = none)
      (inside : 0 ≤ idx.Index ∧ idx.Index < f.chunks.length) (sent : fetch idx.Index = some data)
      (long : idx.SliceEnd ≤ data.length) :
      Accessed f fetch cached idx (.data data (store cached idx.Index data))

theorem accessed (f : FIDXServer) (fetch : Int → Option Bytes) (cached : List CachedChunk)
    (idx : ChunkIndex) : Accessed f fetch cached idx (access f fetch cached idx) := by
  unfold access
  split
  · exact .outside
  · rename_i range
    have inside : 0 ≤ idx.Index ∧ idx.Index < f.chunks.length := by omega
    split
    · rename_i ch found
      split
      · exact .shortHit found
      · exact .hit found (by omega)
    · rename_i missing
      split
      · exact .lost
      · rename_i data sent
        split
        · exact .shortFetch missing inside sent
        · exact .fetched missing inside sent (by omega)

/-- What an access keeps of the cache: a hit and a fetch are all that changes it. -/
theorem access_keeps {f : FIDXServer} {fetch : Int → Option Bytes} {cached : List CachedChunk}
    (idx : ChunkIndex) (holds : List CachedChunk → Prop) (same : holds cached)
    (hit : ∀ ch, find cached idx.Index = some ch → holds (touch cached idx.Index))
    (fetched : ∀ data, find cached idx.Index = none →
      0 ≤ idx.Index ∧ idx.Index < f.chunks.length → fetch idx.Index = some data →
        holds (store cached idx.Index data)) :
    match access f fetch cached idx with
    | .data _ cached' => holds cached'
    | .failed _ cached' => holds cached' := by
  have came := accessed f fetch cached idx
  generalize access f fetch cached idx = result at came ⊢
  cases came with
  | outside => exact same
  | shortHit found => exact same
  | hit found long => exact hit _ found
  | lost => exact same
  | shortFetch missing inside sent => exact fetched _ missing inside sent
  | fetched missing inside sent long => exact fetched _ missing inside sent

theorem access_data_long {f : FIDXServer} {fetch : Int → Option Bytes} {cached cached' : List CachedChunk}
    {idx : ChunkIndex} {data : Bytes} (served : access f fetch cached idx = .data data cached') :
    idx.SliceEnd ≤ data.length := by
  have came := accessed f fetch cached idx
  rw [served] at came
  cases came with
  | hit found long => exact long
  | fetched missing inside sent long => exact long

theorem overwrite_length (p data : Bytes) (pos : Nat) (fits : pos + data.length ≤ p.length) :
    (overwrite p pos data).length = p.length := by
  unfold overwrite
  simp
  omega

theorem piece_width (x first last : Nat) :
    ((last : Int) - x - (first - x)).toNat = last - first := by
  omega

theorem part_fits {off first last stop x : Nat} {p : Bytes} (data : Bytes) (start : Nat)
    (least : off ≤ first) (forward : first ≤ last) (ends : last ≤ stop)
    (room : stop - off ≤ p.length) :
    first - off + ((data.drop start).take ((last : Int) - x - (first - x)).toNat).length ≤
      p.length := by
  have short := List.length_take_le (last - first) (data.drop start)
  rw [piece_width]
  omega

/-- Where a call's loop goes on, whatever it is sent: at the next chunk, the buffer as
long as before, or the call ends without a panic. -/
theorem read_pieces_safe (f : FIDXServer) (fetch : Int → Option Bytes) (C off stop : Nat) (want : Int)
    (eof : Bool) (left i : Nat) (cached : List CachedChunk) (p : Bytes) (bound : stop < 2 ^ 63)
    (order : off ≤ stop) (room : stop - off ≤ p.length) (proper : 0 < C) (reached : off < (i + 1) * C)
    (rest : i + left = stop / C + 1) :
    readIndexes f fetch want eof (pieces C off stop left i) cached p
      ((readTo C off stop i - off : Nat) : Int) ≠ .panicked := by
  induction left generalizing i cached p with
  | zero =>
      unfold pieces readIndexes
      dsimp only
      split <;> exact fun wrong => by cases wrong
  | succ left ih =>
      have begun : i * C ≤ stop := (Nat.le_div_iff_mul_le proper).mp (by omega)
      have next : (i + 1) * C = i * C + C := by rw [Nat.add_mul, Nat.one_mul]
      have reached' : off < (i + 1 + 1) * C := by
        rw [Nat.add_mul (i + 1), Nat.one_mul]
        omega
      unfold pieces
      dsimp only
      split
      · next empty =>
          have same : readTo C off stop i = readTo C off stop (i + 1) := by
            unfold readTo
            omega
          rw [same]
          exact ih (i + 1) cached p room reached' (by omega)
      · unfold readIndexes
        split
        · exact fun wrong => by cases wrong
        · next data cached' served =>
            have long := access_data_long served
            obtain ⟨fits, advanced⟩ := piece_fits bound order room begun reached long
            rw [if_pos fits, advanced]
            apply ih (i + 1) cached' _ _ reached' (by omega)
            rw [overwrite_length]
            · exact room
            · obtain ⟨least, -, forward, ends⟩ := readTo_bounds (C := C) order begun
              rw [← readTo_begun order begun, ← readTo_next reached, Int.toNat_natCast]
              exact part_fits data _ least forward ends room

/-! The bytes. -/

theorem find_some {cached : List CachedChunk} {index : Int} {ch : CachedChunk}
    (found : find cached index = some ch) : ch ∈ cached ∧ ch.Index = index := by
  refine ⟨List.mem_of_find?_eq_some found, ?_⟩
  simpa using List.find?_some found

section

variable (image : Nat → UInt8)

/-- Every chunk in the cache is the image's. -/
def Right (f : FIDXServer) (cached : List CachedChunk) : Prop :=
  ∀ ch ∈ cached, ch.Data = chunkData image f ch.Index.toNat

variable {image}

theorem right_touch {f : FIDXServer} {cached : List CachedChunk} (right : Right image f cached)
    (index : Int) : Right image f (touch cached index) := by
  intro ch member
  obtain ⟨old, listed, rfl⟩ := List.mem_map.mp member
  have same := right old listed
  split <;> exact same

theorem right_store {f : FIDXServer} {cached : List CachedChunk} (right : Right image f cached)
    (index : Int) (data : Bytes) (sent : data = chunkData image f index.toNat) :
    Right image f (store cached index data) := by
  intro ch member
  rcases List.mem_cons.mp member with rfl | member
  · exact sent
  · obtain ⟨old, listed, rfl⟩ := List.mem_map.mp member
    exact right old listed

/-- What a call's access leaves in the cache is the image's if what it is sent is. -/
theorem right_access {f : FIDXServer} {fetch : Int → Option Bytes} {cached : List CachedChunk}
    (right : Right image f cached) (honest : Honest image f fetch) (idx : ChunkIndex) :
    match access f fetch cached idx with
    | .data _ cached' => Right image f cached'
    | .failed _ cached' => Right image f cached' :=
  access_keeps idx (Right image f) right (fun _ _ => right_touch right idx.Index)
    fun data _ _ sent => right_store right idx.Index data (honest _ _ sent)

theorem access_right {f : FIDXServer} {fetch : Int → Option Bytes} {cached : List CachedChunk}
    (idx : ChunkIndex) {i : Nat} (right : Right image f cached) (delivers : Delivers image f fetch)
    (index : idx.Index = i) (range : i < f.chunks.length)
    (long : idx.SliceEnd ≤ (chunkData image f i).length) :
    ∃ cached', access f fetch cached idx = .data (chunkData image f i) cached' ∧
      Right image f cached' := by
  unfold access
  rw [index, if_neg (by omega)]
  cases found : find cached (i : Int) with
  | some ch =>
      obtain ⟨listed, named⟩ := find_some found
      have data : ch.Data = chunkData image f i := by
        rw [right ch listed, named, Int.toNat_natCast]
      dsimp only
      rw [data, if_neg (by omega)]
      exact ⟨_, rfl, right_touch right i⟩
  | none =>
      dsimp only
      rw [delivers i range]
      dsimp only
      rw [if_neg (by omega)]
      exact ⟨_, rfl, right_store right i _ (by rw [Int.toNat_natCast])⟩

theorem imageBytes_length (start n : Nat) : (imageBytes image start n).length = n := by
  simp [imageBytes]

theorem imageBytes_append (start n m : Nat) :
    imageBytes image start n ++ imageBytes image (start + n) m = imageBytes image start (n + m) := by
  unfold imageBytes
  rw [← List.map_append, List.range'_append_1]

/-- A slice of a chunk is a part of the image. -/
theorem chunkData_slice (f : FIDXServer) (k from_ n : Nat)
    (inside : from_ + n ≤ min f.ChunkSize (f.Size - k * f.ChunkSize)) :
    ((chunkData image f k).drop from_).take n = imageBytes image (k * f.ChunkSize + from_) n := by
  unfold chunkData imageBytes
  rw [← List.map_drop, ← List.map_take, List.drop_range', List.take_range'_of_length_ge (by omega),
    Nat.mul_one]

theorem overwrite_done (done tail data : Bytes) :
    overwrite (done ++ tail) done.length data = done ++ data ++ tail.drop data.length := by
  unfold overwrite
  rw [List.take_left, ← List.drop_drop, List.drop_left]

/-- The part of a chunk between two places of the image. -/
theorem chunkData_between (f : FIDXServer) (k : Nat) {first last : Nat}
    (begins : k * f.ChunkSize ≤ first) (forward : first ≤ last)
    (short : last - k * f.ChunkSize ≤ min f.ChunkSize (f.Size - k * f.ChunkSize)) :
    ((chunkData image f k).drop ((first : Int) - ((k * f.ChunkSize : Nat) : Int)).toNat).take
      ((last : Int) - ((k * f.ChunkSize : Nat) : Int) -
        ((first : Int) - ((k * f.ChunkSize : Nat) : Int))).toNat =
      imageBytes image first (last - first) := by
  have skipped : ((first : Int) - ((k * f.ChunkSize : Nat) : Int)).toNat = first - k * f.ChunkSize :=
    Int.toNat_sub first (k * f.ChunkSize)
  rw [skipped, piece_width, chunkData_slice f k, Nat.add_sub_cancel' begins]
  rw [← Nat.sub_add_comm begins, Nat.add_sub_cancel' forward]
  exact short

/-- Behind what has been read goes what starts where it ends. -/
theorem overwrite_image {off first last : Nat} (tail : Bytes) (least : off ≤ first)
    (forward : first ≤ last) :
    overwrite (imageBytes image off (first - off) ++ tail) (first - off)
      (imageBytes image first (last - first)) =
        imageBytes image off (last - off) ++ tail.drop (last - first) := by
  have written := overwrite_done (imageBytes image off (first - off)) tail
    (imageBytes image first (last - first))
  have joined := @imageBytes_append image off (first - off) (last - first)
  rw [imageBytes_length, imageBytes_length] at written
  rw [Nat.add_sub_cancel' least, Nat.add_comm, Nat.sub_add_sub_cancel forward least] at joined
  rw [written, joined]

theorem room_left {off first last stop room : Nat} (least : off ≤ first) (forward : first ≤ last)
    (ends : last ≤ stop) (enough : stop - off ≤ first - off + room) :
    stop - off ≤ last - off + (room - (last - first)) := by
  omega

/-- With every chunk to be had, the loop fills the buffer with the image. -/
theorem read_pieces_exact (f : FIDXServer) (fetch : Int → Option Bytes) (off stop : Nat) (eof : Bool)
    (left i : Nat) (cached : List CachedChunk) (tail : Bytes) (accepted : Accepted f)
    (delivers : Delivers image f fetch) (right : Right image f cached) (bound : stop < 2 ^ 63)
    (order : off ≤ stop) (inside : stop ≤ f.Size)
    (room : stop - off ≤ (readTo f.ChunkSize off stop i - off) + tail.length)
    (reached : off < (i + 1) * f.ChunkSize) (rest : i + left = stop / f.ChunkSize + 1) :
    ∃ cached', readIndexes f fetch ((stop - off : Nat) : Int) eof (pieces f.ChunkSize off stop left i)
      cached (imageBytes image off (readTo f.ChunkSize off stop i - off) ++ tail)
        ((readTo f.ChunkSize off stop i - off : Nat) : Int) =
      .returned ((stop - off : Nat) : Int) (if eof then some .eof else none)
        (imageBytes image off (stop - off) ++
          tail.drop (stop - readTo f.ChunkSize off stop i)) cached' := by
  have proper := accepted.proper
  induction left generalizing i cached tail with
  | zero =>
      have done : stop < i * f.ChunkSize := (Nat.div_lt_iff_lt_mul proper).mp (by omega)
      have all : readTo f.ChunkSize off stop i = stop := by
        unfold readTo
        omega
      rw [all, Nat.sub_self, List.drop_zero]
      unfold pieces readIndexes
      rw [if_neg (not_not.mpr rfl)]
      exact ⟨_, rfl⟩
  | succ left ih =>
      have begun : i * f.ChunkSize ≤ stop := (Nat.le_div_iff_mul_le proper).mp (by omega)
      have next : (i + 1) * f.ChunkSize = i * f.ChunkSize + f.ChunkSize := by
        rw [Nat.add_mul, Nat.one_mul]
      have reached' : off < (i + 1 + 1) * f.ChunkSize := by
        rw [Nat.add_mul (i + 1), Nat.one_mul]
        omega
      unfold pieces
      dsimp only
      split
      · next empty =>
          have same : readTo f.ChunkSize off stop i = readTo f.ChunkSize off stop (i + 1) := by
            unfold readTo
            omega
          rw [same] at room ⊢
          exact ih (i + 1) cached tail right room reached' (by omega)
      · next some_ =>
          obtain ⟨least, begins, forward, ends⟩ := readTo_bounds (C := f.ChunkSize) order begun
          rw [← readTo_begun order begun, ← readTo_next reached] at some_ ⊢
          have starts : i * f.ChunkSize < f.Size := Nat.lt_of_le_of_lt begins
            (Nat.lt_of_lt_of_le (Nat.lt_of_le_of_ne forward some_) (ends.trans inside))
          have short : readTo f.ChunkSize off stop (i + 1) - i * f.ChunkSize ≤
              min f.ChunkSize (f.Size - i * f.ChunkSize) := by
            refine Nat.le_min.mpr ⟨Nat.sub_le_iff_le_add'.mpr ?_, Nat.sub_le_sub_right (ends.trans inside) _⟩
            rw [readTo_next reached, ← next]
            exact Nat.min_le_right _ _
          have long : (readTo f.ChunkSize off stop (i + 1) : Int) - ((i * f.ChunkSize : Nat) : Int) ≤
              (chunkData image f i).length := by
            rw [chunkData, imageBytes_length]
            generalize min f.ChunkSize (f.Size - i * f.ChunkSize) = width at short ⊢
            omega
          obtain ⟨cached', served, right'⟩ := access_right
            ⟨i, readTo f.ChunkSize off stop i - ((i * f.ChunkSize : Nat) : Int),
              readTo f.ChunkSize off stop (i + 1) - ((i * f.ChunkSize : Nat) : Int)⟩
            right delivers rfl (accepted.index_lt starts) long
          have fits := piece_fits
            (p := imageBytes image off (readTo f.ChunkSize off stop i - off) ++ tail) bound order
            (by rw [List.length_append, imageBytes_length]; exact room) begun reached
            (by rw [← readTo_next reached]; exact long)
          rw [← readTo_begun order begun, ← readTo_next reached] at fits
          unfold readIndexes
          rw [served]
          dsimp only
          rw [if_pos fits.1, fits.2, chunkData_between f i begins forward short, Int.toNat_natCast,
            overwrite_image tail least forward]
          obtain ⟨cached'', read⟩ := ih (i + 1) cached'
            (tail.drop (readTo f.ChunkSize off stop (i + 1) - readTo f.ChunkSize off stop i)) right'
            (by rw [List.length_drop]; exact room_left least forward ends room) reached' (by omega)
          rw [List.drop_drop, Nat.add_comm (_ - _), Nat.sub_add_sub_cancel ends forward] at read
          exact ⟨cached'', read⟩

end

/-! A call. -/

theorem getChunksIndexes_pieces (f : FIDXServer) (accepted : Accepted f) (off want : Nat)
    (chunk : f.ChunkSize < 2 ^ 63) (inside : off + want ≤ f.Size) (bound : off + want < 2 ^ 63) :
    f.getChunksIndexes off want = pieces f.ChunkSize off (off + want)
      ((off + want) / f.ChunkSize + 1 - off / f.ChunkSize) (off / f.ChunkSize) := by
  have few := accepted.few
  have last : (off + want) / f.ChunkSize ≤ f.Size / f.ChunkSize := Nat.div_le_div_right inside
  have first : off / f.ChunkSize ≤ (off + want) / f.ChunkSize :=
    Nat.div_le_div_right (Nat.le_add_right off want)
  rw [accepted.count] at few
  have sum : int64 ((off : Int) + want) = ((off + want : Nat) : Int) :=
    int64_same _ (by omega) (by omega)
  have begins : (off : Int).tdiv (f.ChunkSize : Int) = ((off / f.ChunkSize : Nat) : Int) := rfl
  have ends : (((off + want : Nat) : Int)).tdiv (f.ChunkSize : Int) =
      (((off + want) / f.ChunkSize : Nat) : Int) := rfl
  have positive := Int.natCast_nonneg ((off + want) / f.ChunkSize)
  unfold FIDXServer.getChunksIndexes
  dsimp only
  rw [sum, int64_nat _ chunk, begins, ends, int64_nat _ (by omega), int64_nat _ (by omega),
    int64_same _ (by omega) (by omega),
    show (((off + want) / f.ChunkSize : Nat) + 1 - ((off / f.ChunkSize : Nat) : Int)).toNat =
      (off + want) / f.ChunkSize + 1 - off / f.ChunkSize by omega]
  apply indexesFrom_pieces f.ChunkSize off want _ _ chunk bound accepted.proper
  · rw [Nat.add_mul, Nat.one_mul]
    exact Nat.lt_div_mul_add accepted.proper
  · omega

/-- A call that stays in the range of an int64. -/
theorem readAt_inside (f : FIDXServer) (accepted : Accepted f) (fetch : Int → Option Bytes) (p : Bytes)
    (off : Nat) (size : f.Size < 2 ^ 63) (chunk : f.ChunkSize < 2 ^ 63) (begun : off < f.Size)
    (bound : off + p.length < 2 ^ 63) :
    ReadAt f fetch p off = readIndexes f fetch ((min (off + p.length) f.Size - off : Nat) : Int)
      (decide (off + p.length > f.Size))
      (pieces f.ChunkSize off (min (off + p.length) f.Size)
        (min (off + p.length) f.Size / f.ChunkSize + 1 - off / f.ChunkSize) (off / f.ChunkSize))
      f.cached p ((readTo f.ChunkSize off (min (off + p.length) f.Size) (off / f.ChunkSize) - off : Nat) : Int) := by
  have aligned : off / f.ChunkSize * f.ChunkSize ≤ off := Nat.div_mul_le_self _ _
  have start : readTo f.ChunkSize off (min (off + p.length) f.Size) (off / f.ChunkSize) - off = 0 := by
    unfold readTo
    omega
  have known := getChunksIndexes_pieces f accepted off (min (off + p.length) f.Size - off) chunk
    (by omega) (by omega)
  rw [show off + (min (off + p.length) f.Size - off) = min (off + p.length) f.Size by omega] at known
  rw [start, ← known]
  have sum : int64 ((off : Int) + (p.length : Int)) = ((off + p.length : Nat) : Int) :=
    int64_same _ (by omega) (by omega)
  have rest : int64 ((f.Size : Int) - off) = ((f.Size - off : Nat) : Int) := by
    rw [int64_same _ (by omega) (by omega)]
    omega
  unfold ReadAt
  rw [if_neg (by omega), int64_nat _ size, if_neg (by omega)]
  dsimp only
  rw [sum, rest]
  have said : decide (((off + p.length : Nat) : Int) > f.Size) = decide (off + p.length > f.Size) :=
    decide_eq_decide.mpr (by omega)
  rw [said]
  by_cases beyond : off + p.length > f.Size
  · rw [if_pos (by omega), show min (off + p.length) f.Size - off = f.Size - off by omega]
    rfl
  · rw [if_neg (by omega), show min (off + p.length) f.Size - off = p.length by omega]
    rfl

/-! What goes wrong beyond that range. -/

/-- A first part that ends before it starts is an error or a panic. -/
theorem read_negative (f : FIDXServer) (fetch : Int → Option Bytes) (want : Int) (eof : Bool)
    (idx : ChunkIndex) (rest : List ChunkIndex) (cached : List CachedChunk) (p : Bytes)
    (start : 0 ≤ idx.SliceStart) (stop : idx.SliceEnd < 0) :
    readIndexes f fetch want eof (idx :: rest) cached p 0 = .panicked ∨
      ∃ err cached', readIndexes f fetch want eof (idx :: rest) cached p 0 = .returned 0 (some err) p cached' ∧
        err ≠ .eof := by
  unfold readIndexes
  cases served : access f fetch cached idx with
  | failed err cached' =>
      have came := accessed f fetch cached idx
      rw [served] at came
      refine Or.inr ⟨err, cached', rfl, ?_⟩
      cases came with
      | outside => exact nofun
      | shortHit found => exact nofun
      | lost => exact nofun
      | shortFetch missing inside sent => exact nofun
  | data data cached' =>
      dsimp only
      rw [if_neg]
      · exact Or.inl rfl
      · rintro ⟨-, -, -, -, order, -⟩
        omega

/-- The loop of getChunksIndexes starts with such a part. -/
theorem indexesFrom_negative (cs offset size : Int) (left : Nat) (i : Int)
    (se : min cs (int64 (int64 (offset + size) - int64 (i * cs))) < 0) (low : -2 ^ 63 ≤ cs) :
    ∃ idx rest, indexesFrom cs offset size (left + 1) i = idx :: rest ∧
      0 ≤ idx.SliceStart ∧ idx.SliceEnd < 0 := by
  have ends := int64_range (int64 (offset + size) - int64 (i * cs))
  have starts := int64_range (offset - int64 (i * cs))
  unfold indexesFrom
  dsimp only
  rw [if_neg]
  · exact ⟨_, _, rfl, le_max_left _ _, se⟩
  · generalize int64 (offset - int64 (i * cs)) = a at *
    generalize int64 (int64 (offset + size) - int64 (i * cs)) = b at *
    unfold int64
    omega

/-- It ends in an error of its own, or in a panic. -/
def Fails (p : Bytes) (r : Returned) : Prop :=
  r = .panicked ∨ ∃ err cached, r = .returned 0 (some err) p cached ∧ err ≠ .eof

theorem fails_of_indexes (f : FIDXServer) (fetch : Int → Option Bytes) (cs offset size want : Int)
    (eof : Bool) (left : Nat) (i : Int) (cached : List CachedChunk) (p : Bytes) (low : -2 ^ 63 ≤ cs)
    (se : 0 < left → min cs (int64 (int64 (offset + size) - int64 (i * cs))) < 0)
    (some_ : left = 0 → want ≠ 0) :
    Fails p (readIndexes f fetch want eof (indexesFrom cs offset size left i) cached p 0) := by
  cases left with
  | zero =>
      have ended : readIndexes f fetch want eof (indexesFrom cs offset size 0 i) cached p 0 =
          .returned 0 (some (.shortRead 0 want)) p (cached.filter fun ch => 0 < ch.Life) := by
        unfold indexesFrom readIndexes
        exact if_pos (Ne.symm (some_ rfl))
      exact Or.inr ⟨_, _, ended, fun wrong => by cases wrong⟩
  | succ left =>
      obtain ⟨idx, rest, known, start, stop⟩ :=
        indexesFrom_negative cs offset size left i (se (Nat.succ_pos left)) low
      rw [known]
      exact read_negative f fetch want eof idx rest cached p start stop

theorem readAt_fails (f : FIDXServer) (accepted : Accepted f) (fetch : Int → Option Bytes) (p : Bytes)
    (off : Nat) (sized : p.length < 2 ^ 63) (size : f.Size < 2 ^ 63) (begun : off < f.Size)
    (beyond : ¬(f.ChunkSize < 2 ^ 63 ∧ off + p.length < 2 ^ 63)) : Fails p (ReadAt f fetch p off) := by
  have fits := accepted.chunk
  have proper := accepted.proper
  unfold ReadAt
  rw [if_neg (by omega), int64_nat _ size, if_neg (by omega)]
  dsimp only
  unfold FIDXServer.getChunksIndexes
  dsimp only
  by_cases chunk : f.ChunkSize < 2 ^ 63
  · -- the end of the call wraps around to below zero
    have passed : 2 ^ 63 ≤ off + p.length := by
      by_contra under
      exact beyond ⟨chunk, by omega⟩
    obtain ⟨m, wraps⟩ : ∃ m : Nat, int64 ((off : Int) + p.length) = -(m : Int) ∧ 0 < m ∧ m ≤ 2 ^ 63 := by
      refine ⟨2 ^ 64 - (off + p.length), ?_⟩
      unfold int64
      omega
    obtain ⟨sum, positive, small⟩ := wraps
    rw [sum, if_neg (by omega), sum]
    have quotient : (-(m : Int)).tdiv (int64 f.ChunkSize) = -((m / f.ChunkSize : Nat) : Int) := by
      rw [int64_nat _ chunk, Int.neg_tdiv]
      rfl
    have least : m / f.ChunkSize ≤ m := Nat.div_le_self _ _
    have first : (off : Int).tdiv (int64 f.ChunkSize) = ((off / f.ChunkSize : Nat) : Int) := by
      rw [int64_nat _ chunk]
      rfl
    have within : off / f.ChunkSize ≤ off := Nat.div_le_self _ _
    rw [quotient, first, int64_nat _ chunk]
    generalize m / f.ChunkSize = bottom at *
    generalize off / f.ChunkSize = top at *
    rw [int64_nat top (by omega)]
    apply fails_of_indexes _ _ _ _ _ _ _ _ _ _ _ (by omega)
    · intro turns
      rw [int64_same (-(bottom : Int)) (by omega) (by omega),
        int64_same (-(bottom : Int) + 1) (by omega) (by omega)] at turns
      have zero : top = 0 := by omega
      rw [sum, zero, Nat.cast_zero, Int.zero_mul, int64_same 0 (by omega) (by omega), Int.sub_zero,
        int64_same _ (by omega) (by omega)]
      omega
    · intro _
      omega
  · -- the chunk size is below zero
    obtain ⟨m, wraps⟩ : ∃ m : Nat, int64 (f.ChunkSize : Int) = -(m : Int) ∧ 0 < m ∧ m ≤ 2 ^ 63 := by
      refine ⟨2 ^ 64 - f.ChunkSize, ?_⟩
      unfold int64
      omega
    obtain ⟨negative, positive, small⟩ := wraps
    rw [negative]
    apply fails_of_indexes _ _ _ _ _ _ _ _ _ _ _ (by omega)
    · intro _
      omega
    · intro none_
      by_cases empty : p.length = 0
      · -- nothing is asked for, and one turn is taken
        exfalso
        have least : off / m ≤ off := Nat.div_le_self _ _
        have quotient : (off : Int).tdiv (-(m : Int)) = -((off / m : Nat) : Int) := by
          rw [Int.tdiv_neg]
          rfl
        have sum : int64 ((off : Int) + (p.length : Int)) = (off : Int) := by
          rw [empty]
          exact int64_same _ (by omega) (by omega)
        rw [sum, if_neg (by omega), sum, quotient] at none_
        generalize off / m = top at *
        rw [int64_same (-(top : Int)) (by omega) (by omega),
          int64_same (-(top : Int) + 1) (by omega) (by omega)] at none_
        omega
      · split
        · rw [int64_same _ (by omega) (by omega)]
          omega
        · omega

/-! Runs. -/

/-- What every access keeps of the cache, and what is left out at the end of a call,
a call keeps. -/
theorem readIndexes_keeps {f : FIDXServer} {fetch : Int → Option Bytes} (holds : List CachedChunk → Prop)
    (kept : ∀ cached idx, holds cached → match access f fetch cached idx with
      | .data _ cached' => holds cached'
      | .failed _ cached' => holds cached')
    (cleaned : ∀ cached, holds cached → holds (cached.filter fun ch => 0 < ch.Life))
    {want : Int} {eof : Bool} {idxs : List ChunkIndex} {cached cached' : List CachedChunk} {p p' : Bytes}
    {pos n : Int} {err : Option ReadError} (initial : holds cached)
    (read : readIndexes f fetch want eof idxs cached p pos = .returned n err p' cached') : holds cached' := by
  induction idxs generalizing cached p pos with
  | nil =>
      have last := cleaned cached initial
      unfold readIndexes at read
      dsimp only at read
      split at read
      · cases read
        exact last
      · cases read
        exact last
  | cons idx rest ih =>
      have next := kept cached idx initial
      unfold readIndexes at read
      cases served : access f fetch cached idx with
      | failed err cached' =>
          rw [served] at next read
          cases read
          exact next
      | data data cached' =>
          rw [served] at next read
          dsimp only at read
          split at read
          · exact ih next read
          · cases read

theorem readAt_keeps {f : FIDXServer} {fetch : Int → Option Bytes} (holds : List CachedChunk → Prop)
    (kept : ∀ cached idx, holds cached → match access f fetch cached idx with
      | .data _ cached' => holds cached'
      | .failed _ cached' => holds cached')
    (cleaned : ∀ cached, holds cached → holds (cached.filter fun ch => 0 < ch.Life))
    {cached' : List CachedChunk} {p p' : Bytes} {off n : Int} {err : Option ReadError}
    (initial : holds f.cached) (read : ReadAt f fetch p off = .returned n err p' cached') :
    holds cached' := by
  unfold ReadAt at read
  split at read
  · cases read
    exact initial
  · split at read
    · cases read
      exact initial
    · exact readIndexes_keeps holds kept cleaned initial read

theorem step_cases {f next : FIDXServer} {turn : Turn} (taken : step f turn = some next) :
    ∃ n err p cached, ReadAt f turn.fetch turn.call.p turn.call.off = .returned n err p cached ∧
      next = { f with cached } := by
  unfold step at taken
  split at taken
  · next n err p cached read =>
      cases taken
      exact ⟨n, err, p, cached, read, rfl⟩
  · cases taken

/-- The system in which every fetch fails or brings the chunk. -/
def honestSystem (image : Nat → UInt8) (file : FixedIndexFile.ByteSlice) : System FIDXServer Turn :=
  (serverSystem file).restrict fun f turn => Honest image f turn.fetch

theorem reachable_right {image : Nat → UInt8} {file : FixedIndexFile.ByteSlice} {f : FIDXServer}
    (reached : Reachable (honestSystem image file) f) : Accepted f ∧ Right image f f.cached := by
  have invariant : Invariant (honestSystem image file) fun f => Accepted f ∧ Right image f f.cached := by
    constructor
    · intro f made
      obtain ⟨accepted, empty⟩ := accepted_new made
      refine ⟨accepted, ?_⟩
      rw [empty]
      exact fun ch member => absurd member List.not_mem_nil
    · rintro f turn next ⟨accepted, right⟩ ⟨taken, honest⟩
      obtain ⟨n, err, p, cached, read, rfl⟩ := step_cases taken
      refine ⟨⟨accepted.size, accepted.chunk, accepted.proper, accepted.count, accepted.few⟩, ?_⟩
      exact readAt_keeps (Right image f) (fun cached idx right => right_access right honest idx)
        (fun cached right ch member => right ch (List.mem_filter.mp member).1) right read
  exact invariant.reachable reached

/-- The call's numbers, and the header's, are int64 ones where they are needed. -/
def InRange (f : FIDXServer) (c : Call) : Prop :=
  c.off < 0 ∨
    f.Size < 2 ^ 63 ∧ (f.Size ≤ c.off.toNat ∨
      f.ChunkSize < 2 ^ 63 ∧ c.off.toNat + c.p.length < 2 ^ 63) ∨
    2 ^ 63 ≤ f.Size ∧ c.p.length = 0

theorem readAt_end (f : FIDXServer) (fetch : Int → Option Bytes) (p : Bytes) (off : Int)
    (positive : 0 ≤ off) (beyond : off ≥ int64 f.Size) :
    ReadAt f fetch p off = .returned 0 (some .eof) p f.cached := by
  unfold ReadAt
  rw [if_neg (by omega), if_pos beyond]

theorem serves_inside {image : Nat → UInt8} {f : FIDXServer} (accepted : Accepted f)
    (right : Right image f f.cached) (c : Call) (off : Nat) (starts : c.off = off)
    (size : f.Size < 2 ^ 63) (chunk : f.ChunkSize < 2 ^ 63) (begun : off < f.Size)
    (bound : off + c.p.length < 2 ^ 63) : Serves image f c := by
  have aligned : off / f.ChunkSize * f.ChunkSize ≤ off := Nat.div_mul_le_self _ _
  have reached : off < (off / f.ChunkSize + 1) * f.ChunkSize := by
    rw [Nat.add_mul, Nat.one_mul]
    exact Nat.lt_div_mul_add accepted.proper
  have order : off ≤ min (off + c.p.length) f.Size := by omega
  have turns : off / f.ChunkSize +
      (min (off + c.p.length) f.Size / f.ChunkSize + 1 - off / f.ChunkSize) =
        min (off + c.p.length) f.Size / f.ChunkSize + 1 := by
    have later : off / f.ChunkSize ≤ min (off + c.p.length) f.Size / f.ChunkSize :=
      Nat.div_le_div_right order
    omega
  have first : readTo f.ChunkSize off (min (off + c.p.length) f.Size) (off / f.ChunkSize) = off := by
    unfold readTo
    omega
  refine ⟨fun fetch => ?_, fun fetch delivers _ => ?_, fun fetch wrong => by omega⟩
  · rw [starts, readAt_inside f accepted fetch c.p off size chunk begun bound]
    exact read_pieces_safe f fetch f.ChunkSize off _ _ _ _ _ f.cached c.p (by omega) order (by omega)
      accepted.proper reached turns
  · obtain ⟨cached, read⟩ := read_pieces_exact f fetch off (min (off + c.p.length) f.Size)
      (decide (off + c.p.length > f.Size)) _ (off / f.ChunkSize) f.cached c.p accepted delivers right
      (by omega) order (by omega) (by omega) reached turns
    have known := readAt_inside f accepted fetch c.p off size chunk begun bound
    rw [first, Nat.sub_self] at read known
    have empty : imageBytes image off 0 = [] := rfl
    rw [empty, List.nil_append] at read
    rw [read] at known
    unfold Call.stop
    rw [starts, Int.toNat_natCast, known]
    refine ⟨_, _, rfl, ?_⟩
    split
    · exact Or.inr rfl
    · exact Or.inl rfl

theorem fails_not_serves {image : Nat → UInt8} {f : FIDXServer} {c : Call} (positive : 0 ≤ c.off)
    (fails : ∀ fetch, Fails c.p (ReadAt f fetch c.p c.off)) : ¬Serves image f c := by
  intro serves
  have delivers : Delivers image f fun k => some (chunkData image f k.toNat) := fun k _ => rfl
  obtain ⟨err, cached, read, fine⟩ := serves.exact_ _ delivers positive
  rcases fails fun k => some (chunkData image f k.toNat) with panicked | ⟨err', cached', failed, other⟩
  · rw [panicked] at read
    cases read
  · rw [failed] at read
    have same : some err' = err := (Returned.returned.inj read).2.1
    rw [← same] at fine
    rcases fine with wrong | wrong
    · cases wrong
    · exact other (Option.some.inj wrong)

/-- Where the call ends at once with the end of the file. -/
theorem serves_end {image : Nat → UInt8} {f : FIDXServer} {c : Call} (positive : 0 ≤ c.off)
    (beyond : c.off ≥ int64 f.Size) : Serves image f c ↔ c.stop f ≤ c.off.toNat := by
  have ended := fun fetch => readAt_end f fetch c.p c.off positive beyond
  constructor
  · intro serves
    have delivers : Delivers image f fun k => some (chunkData image f k.toNat) := fun k _ => rfl
    obtain ⟨err, cached, read, -⟩ := serves.exact_ _ delivers positive
    rw [ended] at read
    have count := (Returned.returned.inj read).1
    omega
  · intro none_
    refine ⟨fun fetch => ?_, fun fetch _ _ => ?_, fun fetch wrong => by omega⟩
    · rw [ended]
      exact fun wrong => by cases wrong
    · have zero : c.stop f - c.off.toNat = 0 := by omega
      rw [ended, zero]
      exact ⟨_, _, rfl, Or.inr rfl⟩

theorem serves_negative {image : Nat → UInt8} {f : FIDXServer} {c : Call} (negative : c.off < 0) :
    Serves image f c := by
  have refused : ∀ fetch, ReadAt f fetch c.p c.off =
      .returned 0 (some (.negativeOffset c.off)) c.p f.cached := by
    intro fetch
    unfold ReadAt
    exact if_pos negative
  refine ⟨fun fetch => ?_, fun fetch _ positive => by omega, fun fetch _ => ⟨_, refused fetch⟩⟩
  rw [refused]
  exact fun wrong => by cases wrong

def wideFile : FixedIndexFile.ByteSlice where
  data := indexFile 1 (2 ^ 63) (padding 32)
  spare := []
  fits := by
    rw [indexFile_length]
    decide

/-- Headers as NewFIDXServer reads them. -/
theorem new_indexFile (size chunkSize : Nat) (digests : Bytes) (fits : size < 2 ^ 64)
    (proper : 0 < chunkSize) (fits' : chunkSize < 2 ^ 64)
    (listed : (size / chunkSize + min 1 (size % chunkSize)) * 32 ≤ digests.length) :
    NewFIDXServer (indexFile size chunkSize digests) = .ok ⟨size, chunkSize,
      (List.range' 0 (size / chunkSize + min 1 (size % chunkSize))).map (digestText digests), []⟩ := by
  have long : fidxHeaderSize ≤ (indexFile size chunkSize digests).length := by
    rw [indexFile_length]
    exact Nat.le_add_right 4096 _
  have read := knownFrom_ok digests (size / chunkSize + min 1 (size % chunkSize)) 0 (by omega)
  rw [Nat.zero_mul, List.drop_zero] at read
  have magic : (indexFile size chunkSize digests).take 8 = fidxMagic := rfl
  unfold NewFIDXServer
  rw [if_neg (Nat.not_lt.mpr long), if_neg (not_not.mpr magic), headerSize_indexFile _ _ _ fits,
    headerChunkSize_indexFile _ _ _ fits', if_neg (by omega), indexFile_digests]
  dsimp only
  rw [read]

def wideServer : FIDXServer := ⟨1, 2 ^ 63, [digestText (padding 32) 0], []⟩

def wideCall : Call where
  p := [0]
  off := 0
  sized := by decide
  low := by decide
  high := by decide

theorem wide_reached : Reachable (honestSystem (fun _ => 7) wideFile) wideServer :=
  reachable_start (new_indexFile 1 (2 ^ 63) (padding 32) (by decide) (by decide) (by decide)
    (by rw [padding_length]; decide))

end ProxmoxBackup.NbdServer
