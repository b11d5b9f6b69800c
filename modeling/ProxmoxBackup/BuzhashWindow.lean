import ProxmoxBackup.DynamicChunks

/-! What the chunker's hash is a hash of. `Chunker.push` is one byte of Scan in
either phase; every fact about positions inside a chunk is one about bytes
pushed one at a time, and `scan_eq` and `handleData_eq` carry them to the
slices the code passes. -/

namespace ProxmoxBackup.BuzhashWindow

open Buzhash DynamicChunks

def rotateLeft (x : UInt32) (k : Nat) : UInt32 := ⟨x.toBitVec.rotateLeft k⟩

theorem rotateLeft_bit (x : BitVec 32) (k i : Nat) (inside : i < 32) :
    (x.rotateLeft k).getLsbD i = x.getLsbD ((i + (32 - k % 32)) % 32) := by
  rw [BitVec.getLsbD_rotateLeft]
  by_cases low : i < k % 32
  · simp only [low, decide_true, cond_true]
    congr 1
    omega
  · simp only [low, decide_false, cond_false, inside, decide_true, Bool.true_and]
    congr 1
    omega

theorem rotateLeft1_eq (x : UInt32) : rotateLeft1 x = rotateLeft x 1 := by
  apply UInt32.toBitVec_inj.mp
  simp only [rotateLeft1, rotateLeft, BitVec.rotateLeft_def]
  rfl

theorem rotateLeft_xor (a b : UInt32) (k : Nat) :
    rotateLeft (a ^^^ b) k = rotateLeft a k ^^^ rotateLeft b k := by
  apply UInt32.toBitVec_inj.mp
  apply BitVec.eq_of_getLsbD_eq
  intro i inside
  simp only [rotateLeft, UInt32.toBitVec_xor, BitVec.getLsbD_xor, rotateLeft_bit _ _ _ inside]

theorem rotateLeft_rotateLeft (x : UInt32) (k n : Nat) :
    rotateLeft (rotateLeft x k) n = rotateLeft x (k + n) := by
  apply UInt32.toBitVec_inj.mp
  apply BitVec.eq_of_getLsbD_eq
  intro i inside
  simp only [rotateLeft, rotateLeft_bit _ _ _ inside]
  rw [rotateLeft_bit _ _ _ (Nat.mod_lt _ (by decide))]
  congr 1
  omega

/-- The window's length is a multiple of the word's: its oldest byte comes
round to where it started. -/
theorem rotateLeft_whole (x : UInt32) : rotateLeft x 64 = x := by
  apply UInt32.toBitVec_inj.mp
  apply BitVec.eq_of_getLsbD_eq
  intro i inside
  simp only [rotateLeft, rotateLeft_bit _ _ _ inside]
  congr 1
  omega

theorem rotateLeft_none (x : UInt32) : rotateLeft x 0 = x := by
  apply UInt32.toBitVec_inj.mp
  apply BitVec.eq_of_getLsbD_eq
  intro i inside
  simp only [rotateLeft, rotateLeft_bit _ _ _ inside]
  congr 1
  omega

theorem rotateLeft_zero (k : Nat) : rotateLeft 0 k = 0 := by
  apply UInt32.toBitVec_inj.mp
  apply BitVec.eq_of_getLsbD_eq
  intro i inside
  simp [rotateLeft, rotateLeft_bit _ _ _ inside]

/-- Every byte's table entry, rotated by the byte's distance from the end. -/
def windowHash : List UInt8 → UInt32
  | [] => 0
  | b :: rest => rotateLeft (buzhash b) rest.length ^^^ windowHash rest

theorem windowHash_append (bytes : List UInt8) (b : UInt8) :
    windowHash (bytes ++ [b]) = rotateLeft1 (windowHash bytes) ^^^ buzhash b := by
  rw [rotateLeft1_eq]
  induction bytes with
  | nil => simp [windowHash, rotateLeft_zero, rotateLeft_none]
  | cons first rest ih =>
      rw [List.cons_append, windowHash, windowHash, ih, rotateLeft_xor, rotateLeft_rotateLeft,
        List.length_append, List.length_singleton, UInt32.xor_assoc]

/-- A full window moves on by one byte. -/
theorem windowHash_slide (leave enter : UInt8) (rest : List UInt8) (full : rest.length = 63) :
    windowHash (rest ++ [enter]) =
      rotateLeft1 (windowHash (leave :: rest)) ^^^ buzhash leave ^^^ buzhash enter := by
  have turned : rotateLeft1 (windowHash (leave :: rest)) =
      buzhash leave ^^^ rotateLeft1 (windowHash rest) := by
    simp only [rotateLeft1_eq, windowHash, rotateLeft_xor, rotateLeft_rotateLeft, full,
      Nat.reduceAdd, rotateLeft_whole]
  rw [windowHash_append, turned, UInt32.xor_comm (buzhash leave) (rotateLeft1 _),
    UInt32.xor_assoc (rotateLeft1 _), UInt32.xor_self, UInt32.xor_zero]

/-- A byte of the filling phase with its share of `copyLen`. -/
def fillOne (c : Chunker) (b : UInt8) : Chunker := { c.fill b with chunkSize := c.chunkSize + 1 }

/-- One byte of Scan, and whether a chunk ends behind it. -/
def push (c : Chunker) (b : UInt8) : Bool × Chunker :=
  if c.windowSize < c.window.length then (false, fillOne c b)
  else
    let next := c.roll b
    if next.shallBreak then (true, next.reset) else (false, next)

/-- Bytes pushed until the first cut: the position behind it, 0 without one. -/
def pushUntil (c : Chunker) : List UInt8 → Nat → Nat × Chunker
  | [], _ => (0, c)
  | b :: rest, pos =>
      let pushed := push c b
      if pushed.1 then (pos + 1, pushed.2) else pushUntil pushed.2 rest (pos + 1)

theorem scanFull_eq (c : Chunker) (data : List UInt8) (pos : Nat)
    (full : ¬c.windowSize < c.window.length) : c.scanFull data pos = pushUntil c data pos := by
  induction data generalizing c pos with
  | nil => rfl
  | cons enter rest ih =>
      rw [Chunker.scanFull, pushUntil]
      simp only [push, full, if_false]
      by_cases cut : (c.roll enter).shallBreak = true
      · simp [cut]
      · simp only [cut, Bool.false_eq_true, if_false]
        exact ih _ _ (by simpa [Chunker.roll] using full)

theorem fillOne_windowSize (c : Chunker) (b : UInt8) :
    (fillOne c b).windowSize = c.windowSize + 1 := rfl

theorem fillOne_ring (c : Chunker) (b : UInt8) :
    (fillOne c b).window.length = c.window.length := by
  simp [fillOne, Chunker.fill]

theorem fillWindow_cons (c : Chunker) (b : UInt8) (rest : List UInt8) (n : Nat) :
    c.fillWindow (b :: rest) (n + 1) = (fillOne c b).fillWindow rest n := by
  have shifted (bytes : List UInt8) (start : Chunker) (k : Nat) :
      bytes.foldl Chunker.fill { start with chunkSize := start.chunkSize + k } =
        { bytes.foldl Chunker.fill start with
          chunkSize := (bytes.foldl Chunker.fill start).chunkSize + k } := by
    induction bytes generalizing start with
    | nil => rfl
    | cons first more ih => exact ih (start.fill first)
  simp only [Chunker.fillWindow, List.take_succ_cons, List.foldl_cons]
  rw [show fillOne c b = { c.fill b with chunkSize := (c.fill b).chunkSize + 1 } from rfl,
    shifted (rest.take n) (c.fill b) 1]
  simp [Nat.add_assoc, Nat.add_comm 1 n]

theorem fillWindow_none (c : Chunker) (data : List UInt8) : c.fillWindow data 0 = c := rfl

/-- What the filling phase of Scan does to `data`, and what follows it. -/
theorem pushUntil_filling (c : Chunker) (data : List UInt8) (pos : Nat)
    (filling : c.windowSize < c.window.length) :
    pushUntil c data pos =
      (let copyLen := min (c.window.length - c.windowSize) data.length
       let filled := c.fillWindow data copyLen
       if filled.windowSize < c.window.length then (0, filled)
       else filled.scanFull (data.drop copyLen) (pos + copyLen)) := by
  induction data generalizing c pos with
  | nil => simp [pushUntil, Chunker.fillWindow, filling]
  | cons b rest ih =>
      rw [pushUntil]
      simp only [push, filling, if_true, Bool.false_eq_true, if_false, List.length_cons]
      obtain ⟨room, left⟩ : ∃ room, c.window.length - c.windowSize = room + 1 :=
        ⟨c.window.length - c.windowSize - 1, by omega⟩
      rw [left, Nat.add_min_add_right, fillWindow_cons, List.drop_succ_cons,
        show pos + (min room rest.length + 1) = pos + 1 + min room rest.length by omega]
      by_cases more : c.windowSize + 1 < c.window.length
      · rw [ih (fillOne c b) (pos + 1) (by rwa [fillOne_windowSize, fillOne_ring])]
        rw [fillOne_windowSize, fillOne_ring,
          show c.window.length - (c.windowSize + 1) = room by omega]
      · obtain rfl : room = 0 := by omega
        rw [Nat.zero_min, fillWindow_none, fillOne_windowSize, List.drop_zero, Nat.add_zero,
          if_neg more]
        exact (scanFull_eq _ _ _ (by rwa [fillOne_windowSize, fillOne_ring])).symm

/-- Scan is its bytes pushed one after the other up to the first cut. -/
theorem scan_eq (c : Chunker) (data : List UInt8) : c.scan data = pushUntil c data 0 := by
  by_cases filling : c.windowSize < c.window.length
  · rw [pushUntil_filling c data 0 filling]
    simp only [Chunker.scan, filling, if_true, Nat.zero_add]
  · rw [← scanFull_eq c data 0 filling]
    simp [Chunker.scan, filling]

/-- The chunker after each byte or Reset, and the bytes of the chunk it is in. -/
inductive Feed
  | byte (b : UInt8)
  | reset

structure Place where
  chunker : Chunker
  chunk : List UInt8

def Place.next (here : Place) : Feed → Place
  | .reset => ⟨here.chunker.reset, []⟩
  | .byte b =>
      let pushed := push here.chunker b
      ⟨pushed.2, if pushed.1 then [] else here.chunk ++ [b]⟩

def place (chunkSizeAvg : Nat) (feeds : List Feed) : Place :=
  feeds.foldl Place.next ⟨Chunker.new chunkSizeAvg, []⟩

/-- The last 64 bytes. -/
def lastWindow (bytes : List UInt8) : List UInt8 := bytes.drop (bytes.length - 64)

/-- The chunker's fields in terms of its chunk: byte `p` of the chunk is in
slot `p % 64` of the ring until byte `p + 64` takes its place. -/
structure Tracks (chunkSizeAvg : Nat) (c : Chunker) (chunk : List UInt8) : Prop where
  ring : c.window.length = 64
  filled : c.windowSize = min 64 chunk.length
  size : c.chunkSize = chunk.length
  slots : ∀ p, p < chunk.length → chunk.length - p ≤ 64 →
    c.window.getD (p % 64) 0 = chunk.getD p 0
  hash : c.h = windowHash (lastWindow chunk)
  least : c.chunkSizeMin = chunkSizeAvg >>> 2
  most : c.chunkSizeMax = chunkSizeAvg <<< 2
  mask : c.breakTestMask = UInt32.ofNat (chunkSizeAvg * 2 - 1)
  minimum : c.breakTestMinimum = UInt32.ofNat (chunkSizeAvg * 2 - 1) - 2

theorem new_tracks (chunkSizeAvg : Nat) : Tracks chunkSizeAvg (Chunker.new chunkSizeAvg) [] := by
  refine ⟨by simp [Chunker.new], rfl, rfl, ?_, rfl, rfl, rfl, rfl, rfl⟩
  intro p inside
  exact absurd inside (Nat.not_lt_zero p)

theorem reset_tracks {avg : Nat} {c : Chunker} {chunk : List UInt8} (tracks : Tracks avg c chunk) :
    Tracks avg c.reset [] := by
  refine ⟨tracks.ring, rfl, rfl, ?_, rfl, tracks.least, tracks.most, tracks.mask, tracks.minimum⟩
  intro p inside
  exact absurd inside (Nat.not_lt_zero p)

theorem slot_eq (n : Nat) : n &&& 0x3f = n % 64 := Nat.and_two_pow_sub_one_eq_mod n 6

theorem slots_set (window chunk : List UInt8) (b : UInt8) (ring : window.length = 64)
    (slots : ∀ p, p < chunk.length → chunk.length - p ≤ 64 →
      window.getD (p % 64) 0 = chunk.getD p 0) :
    ∀ p, p < (chunk ++ [b]).length → (chunk ++ [b]).length - p ≤ 64 →
      (window.set (chunk.length % 64) b).getD (p % 64) 0 = (chunk ++ [b]).getD p 0 := by
  intro p inside recent
  rw [List.length_append, List.length_singleton] at inside recent
  have slot : chunk.length % 64 < window.length := by
    rw [ring]
    exact Nat.mod_lt _ (by decide)
  rcases Nat.lt_succ_iff_lt_or_eq.mp inside with older | rfl
  · have other : chunk.length % 64 ≠ p % 64 := by omega
    have kept := slots p older (by omega)
    simp only [List.getD_eq_getElem?_getD] at kept ⊢
    rw [List.getElem?_set_ne other, List.getElem?_append_left older, kept]
  · simp only [List.getD_eq_getElem?_getD]
    rw [List.getElem?_set_self slot, List.getElem?_concat_length]

/-- The ring's next slot holds the oldest of the last 64 bytes. -/
theorem oldest_leaves {avg : Nat} {c : Chunker} {chunk : List UInt8} (tracks : Tracks avg c chunk)
    (full : 64 ≤ chunk.length) :
    c.window.getD (c.chunkSize &&& 0x3f) 0 = chunk.getD (chunk.length - 64) 0 := by
  rw [slot_eq, tracks.size, ← tracks.slots (chunk.length - 64) (by omega) (by omega),
    show (chunk.length - 64) % 64 = chunk.length % 64 by omega]

theorem lastWindow_short (bytes : List UInt8) (short : bytes.length ≤ 64) :
    lastWindow bytes = bytes := by
  rw [lastWindow, Nat.sub_eq_zero_of_le short, List.drop_zero]

/-- A full window and the next byte: the oldest byte makes room. -/
theorem lastWindow_slide (bytes : List UInt8) (full : 64 ≤ bytes.length) :
    ∃ rest, lastWindow bytes = bytes.getD (bytes.length - 64) 0 :: rest ∧ rest.length = 63 ∧
      ∀ b, lastWindow (bytes ++ [b]) = rest ++ [b] := by
  have inside : bytes.length - 64 < bytes.length := by omega
  refine ⟨bytes.drop (bytes.length - 63), ?_, ?_, ?_⟩
  · rw [lastWindow, List.drop_eq_getElem_cons inside, List.getD_eq_getElem?_getD,
      List.getElem?_eq_getElem inside, Option.getD_some,
      show bytes.length - 64 + 1 = bytes.length - 63 by omega]
  · rw [List.length_drop]
    omega
  · intro b
    rw [lastWindow, List.length_append, List.length_singleton,
      show bytes.length + 1 - 64 = bytes.length - 63 by omega,
      List.drop_append_of_le_length (by omega)]

theorem fillOne_tracks {avg : Nat} {c : Chunker} {chunk : List UInt8} (tracks : Tracks avg c chunk)
    (filling : chunk.length < 64) (b : UInt8) : Tracks avg (fillOne c b) (chunk ++ [b]) := by
  have next : c.windowSize = chunk.length % 64 := by
    rw [tracks.filled]
    omega
  refine ⟨?_, ?_, ?_, ?_, ?_, tracks.least, tracks.most, tracks.mask, tracks.minimum⟩
  · rw [fillOne_ring, tracks.ring]
  · rw [fillOne_windowSize, tracks.filled, List.length_append, List.length_singleton]
    omega
  · simp [fillOne, tracks.size]
  · have set := slots_set c.window chunk b tracks.ring tracks.slots
    rwa [← next] at set
  · have size : (chunk ++ [b]).length ≤ 64 := by
      rw [List.length_append, List.length_singleton]
      exact filling
    rw [lastWindow_short _ size, windowHash_append,
      ← lastWindow_short chunk (by omega), ← tracks.hash]
    rfl

theorem roll_tracks {avg : Nat} {c : Chunker} {chunk : List UInt8} (tracks : Tracks avg c chunk)
    (full : 64 ≤ chunk.length) (b : UInt8) : Tracks avg (c.roll b) (chunk ++ [b]) := by
  refine ⟨?_, ?_, ?_, ?_, ?_, tracks.least, tracks.most, tracks.mask, tracks.minimum⟩
  · simp [Chunker.roll, tracks.ring]
  · rw [List.length_append, List.length_singleton, Chunker.roll, tracks.filled]
    omega
  · simp [Chunker.roll, tracks.size]
  · have set := slots_set c.window chunk b tracks.ring tracks.slots
    rwa [← tracks.size, ← slot_eq] at set
  · obtain ⟨rest, before, sized, after⟩ := lastWindow_slide chunk full
    rw [after, windowHash_slide _ b rest sized, ← before, ← tracks.hash, ← oldest_leaves tracks full]
    rfl

/-- Whether a byte that makes `window` the last 64 bytes of a chunk of
`chunkSize` bytes ends it. -/
def breaks (chunkSizeAvg : Nat) (window : List UInt8) (chunkSize : Nat) : Bool :=
  64 < chunkSize &&
    ({ Chunker.new chunkSizeAvg with h := windowHash window, chunkSize := chunkSize } :
      Chunker).shallBreak

theorem Tracks.shallBreak_eq {avg : Nat} {c : Chunker} {chunk : List UInt8}
    (tracks : Tracks avg c chunk) (full : 64 < chunk.length) :
    c.shallBreak = breaks avg (lastWindow chunk) chunk.length := by
  simp [breaks, full, Chunker.shallBreak, Chunker.new, tracks.size, tracks.least, tracks.most,
    tracks.hash, tracks.mask, tracks.minimum]

/-- One byte of a chunk: it ends the chunk as `breaks` says, and the chunker
follows. -/
theorem push_spec {avg : Nat} {c : Chunker} {chunk : List UInt8} (tracks : Tracks avg c chunk)
    (b : UInt8) :
    (push c b).1 = breaks avg (lastWindow (chunk ++ [b])) (chunk.length + 1) ∧
      Tracks avg (push c b).2 (if (push c b).1 then [] else chunk ++ [b]) := by
  have size : (chunk ++ [b]).length = chunk.length + 1 := by simp
  by_cases filling : chunk.length < 64
  · have phase : c.windowSize < c.window.length := by
      rw [tracks.filled, tracks.ring]
      omega
    have never : ¬64 < chunk.length + 1 := by omega
    simpa [push, phase, breaks, never] using fillOne_tracks tracks filling b
  · have phase : ¬c.windowSize < c.window.length := by
      rw [tracks.filled, tracks.ring]
      omega
    have rolled := roll_tracks tracks (Nat.le_of_not_lt filling) b
    have test := rolled.shallBreak_eq (by omega)
    rw [size] at test
    simp only [push, phase, if_false, ← test]
    by_cases cut : (c.roll b).shallBreak = true
    · simpa [cut] using reset_tracks rolled
    · simpa [cut] using rolled

theorem place_tracks (chunkSizeAvg : Nat) (feeds : List Feed) :
    Tracks chunkSizeAvg (place chunkSizeAvg feeds).chunker (place chunkSizeAvg feeds).chunk := by
  have onwards (here : Place) (tracks : Tracks chunkSizeAvg here.chunker here.chunk) :
      Tracks chunkSizeAvg (feeds.foldl Place.next here).chunker
        (feeds.foldl Place.next here).chunk := by
    induction feeds generalizing here with
    | nil => exact tracks
    | cons feed rest ih =>
        apply ih
        cases feed with
        | byte b => exact (push_spec tracks b).2
        | reset => exact reset_tracks tracks
  exact onwards _ (new_tracks chunkSizeAvg)

/-- Where the first chunk that ends in `data` ends, seen from `data`'s start
plus `pos`; 0 when none does. -/
def firstBreak (chunkSizeAvg : Nat) (chunk : List UInt8) : List UInt8 → Nat → Nat
  | [], _ => 0
  | b :: rest, pos =>
      if breaks chunkSizeAvg (lastWindow (chunk ++ [b])) (chunk.length + 1) then pos + 1
      else firstBreak chunkSizeAvg (chunk ++ [b]) rest (pos + 1)

/-- The bytes of a slice that Scan takes in. -/
def taken (cutAt : Nat) (data : List UInt8) : List UInt8 :=
  if cutAt = 0 then data else data.take cutAt

theorem firstBreak_shift (avg : Nat) (chunk data : List UInt8) (pos : Nat) :
    firstBreak avg chunk data (pos + 1) =
      if firstBreak avg chunk data pos = 0 then 0 else firstBreak avg chunk data pos + 1 := by
  induction data generalizing chunk pos with
  | nil => rfl
  | cons b rest ih =>
      simp only [firstBreak]
      split
      · simp
      · exact ih (chunk ++ [b]) (pos + 1)

theorem taken_cons (avg : Nat) (chunk rest : List UInt8) (b : UInt8) :
    taken (firstBreak avg chunk rest 1) (b :: rest) =
      b :: taken (firstBreak avg chunk rest 0) rest := by
  have shift := firstBreak_shift avg chunk rest 0
  rw [Nat.zero_add] at shift
  rw [shift]
  by_cases none : firstBreak avg chunk rest 0 = 0
  · simp [taken, none]
  · simp [taken, none]

theorem pushUntil_spec {avg : Nat} (here : Place) (data : List UInt8) (pos : Nat)
    (tracks : Tracks avg here.chunker here.chunk) :
    pushUntil here.chunker data pos =
      (firstBreak avg here.chunk data pos,
        (((taken (firstBreak avg here.chunk data 0) data).map Feed.byte).foldl Place.next
          here).chunker) := by
  induction data generalizing here pos with
  | nil => simp [pushUntil, firstBreak, taken]
  | cons b rest ih =>
      obtain ⟨ends, follows⟩ := push_spec tracks b
      rw [pushUntil, firstBreak, firstBreak, ← ends]
      by_cases cut : (push here.chunker b).1 = true
      · simp [cut, taken, Place.next]
      · have onwards := ih (here.next (.byte b)) (pos + 1) follows
        have chunk : (here.next (.byte b)).chunk = here.chunk ++ [b] := by
          simp [Place.next, cut]
        rw [chunk] at onwards
        simp only [cut, Bool.false_eq_true, if_false, Nat.zero_add]
        rw [taken_cons, List.map_cons, List.foldl_cons]
        exact onwards

/-- At every position of every stream, with any bytes and any boundaries before
it: the hash is that of the chunk's last 64 bytes, the slot about to be
overwritten holds the oldest of them, and Scan of any slice from there on ends
at the first byte for which `breaks`, a function of the last 64 bytes and the
chunk's size, says so. -/
theorem hash_is_of_window (chunkSizeAvg : Nat) (feeds : List Feed) :
    let here := place chunkSizeAvg feeds
    (64 ≤ here.chunk.length →
      here.chunker.h = windowHash (lastWindow here.chunk) ∧
      (lastWindow here.chunk).length = 64 ∧
      (lastWindow here.chunk).head? =
        some (here.chunker.window.getD (here.chunker.chunkSize &&& 0x3f) 0)) ∧
    here.chunker.chunkSize = here.chunk.length ∧
    ∀ data, here.chunker.scan data =
      (firstBreak chunkSizeAvg here.chunk data 0,
        (place chunkSizeAvg
          (feeds ++ (taken (firstBreak chunkSizeAvg here.chunk data 0) data).map
            Feed.byte)).chunker) := by
  intro here
  have tracks := place_tracks chunkSizeAvg feeds
  refine ⟨?_, tracks.size, ?_⟩
  · intro full
    refine ⟨tracks.hash, ?_, ?_⟩
    · rw [lastWindow, List.length_drop]
      omega
    · obtain ⟨rest, oldest, -, -⟩ := lastWindow_slide here.chunk full
      rw [oldest, List.head?_cons, oldest_leaves tracks full]
  · intro data
    rw [scan_eq, pushUntil_spec here data 0 tracks, place, List.foldl_append]
    rfl

/-- HandleData of one byte. -/
def pushByte (c : ChunkState) (b : UInt8) : ChunkState × List UploadJob :=
  let pushed := push c.C b
  let grown : ChunkState := { c with C := pushed.2, currentChunk := c.currentChunk ++ [b] }
  if pushed.1 then (grown.queue.1, [grown.queue.2]) else (grown, [])

def pushBytes (c : ChunkState) : Bytes → ChunkState × List UploadJob
  | [] => (c, [])
  | b :: rest =>
      let one := pushByte c b
      let more := pushBytes one.1 rest
      (more.1, one.2 ++ more.2)

theorem pushBytes_append (c : ChunkState) (first second : Bytes) :
    pushBytes c (first ++ second) =
      (let before := pushBytes c first
       let after := pushBytes before.1 second
       (after.1, before.2 ++ after.2)) := by
  induction first generalizing c with
  | nil => simp [pushBytes]
  | cons b rest ih => simp [pushBytes, ih, List.append_assoc]

/-- A turn of HandleData's loop, in bytes: all of them pending, or those up to
the cut queued and the others still to push. -/
theorem pushBytes_until (c : ChunkState) (data : Bytes) (pos : Nat) :
    ((pushUntil c.C data pos).1 = 0 ∧ pushBytes c data =
      ({ c with C := (pushUntil c.C data pos).2, currentChunk := c.currentChunk ++ data }, [])) ∨
    ∃ k, 0 < k ∧ k ≤ data.length ∧ (pushUntil c.C data pos).1 = pos + k ∧ pushBytes c data =
      (let queued := ({ c with
          C := (pushUntil c.C data pos).2
          currentChunk := c.currentChunk ++ data.take k } : ChunkState).queue
       let rest := pushBytes queued.1 (data.drop k)
       (rest.1, queued.2 :: rest.2)) := by
  induction data generalizing c pos with
  | nil => exact Or.inl ⟨rfl, by simp [pushBytes, pushUntil]⟩
  | cons b rest ih =>
      rw [pushUntil, pushBytes]
      by_cases cut : (push c.C b).1 = true
      · refine Or.inr ⟨1, Nat.one_pos, by simp, ?_, ?_⟩
        · simp [cut]
        · simp [cut, pushByte]
      · have one : pushByte c b =
            ({ c with C := (push c.C b).2, currentChunk := c.currentChunk ++ [b] }, []) := by
          simp [pushByte, cut]
        simp only [cut, Bool.false_eq_true, if_false, one]
        rcases ih { c with C := (push c.C b).2, currentChunk := c.currentChunk ++ [b] } (pos + 1)
          with ⟨none, same⟩ | ⟨k, positive, inside, found, same⟩
        · refine Or.inl ⟨none, ?_⟩
          rw [same]
          simp
        · refine Or.inr ⟨k + 1, Nat.succ_pos k, Nat.succ_le_succ inside, ?_, ?_⟩
          · simp only at found
            omega
          · rw [same]
            simp

/-- HandleData of a slice is its bytes pushed one after the other. -/
theorem handleData_eq (c : ChunkState) (b : Bytes) : c.handleData b = pushBytes c b := by
  rw [ChunkState.handleData]
  rcases pushBytes_until c b 0 with ⟨nothing, same⟩ | ⟨k, positive, inside, found, same⟩
  · have whole : c.scanStep b =
        ({ c with C := (pushUntil c.C b 0).2, currentChunk := c.currentChunk ++ b }, none) := by
      simp [ChunkState.scanStep, scan_eq, nothing]
    split
    · next next scanned =>
        rw [whole] at scanned
        cases scanned
        exact same.symm
    · next next more scanned => simp [whole] at scanned
  · have part : c.scanStep b =
        ({ c with C := (pushUntil c.C b 0).2, currentChunk := c.currentChunk ++ b.take k },
          some (b.drop k)) := by
      have position : (pushUntil c.C b 0).1 = k := by omega
      simp [ChunkState.scanStep, scan_eq, position, Nat.ne_of_gt positive]
    split
    · next next scanned => simp [part] at scanned
    · next next more scanned =>
        rw [part] at scanned
        cases scanned
        have rest (queued : ChunkState) :
            queued.handleData (b.drop k) = pushBytes queued (b.drop k) :=
          handleData_eq queued (b.drop k)
        simp only [same, rest]
termination_by b.length
decreasing_by
  rw [List.length_drop]
  omega

/-- HandleData of the pieces in turn. -/
def feedPieces (c : ChunkState) : List Bytes → ChunkState × List UploadJob
  | [] => (c, [])
  | b :: rest =>
      let handled := c.handleData b
      let more := feedPieces handled.1 rest
      (more.1, handled.2 ++ more.2)

theorem feedPieces_eq (c : ChunkState) (pieces : List Bytes) :
    feedPieces c pieces = c.handleData pieces.flatten := by
  induction pieces generalizing c with
  | nil => simp [feedPieces, handleData_eq, pushBytes]
  | cons b rest ih =>
      rw [feedPieces, ih, List.flatten_cons, handleData_eq, handleData_eq, handleData_eq,
        pushBytes_append]

/-- The average every ChunkState's chunker is given. -/
def chunkSizeAvg : Nat := 1024 * 1024 * 4

/-- The chunker is where the pending bytes leave it, and they are fewer than a
longest chunk. -/
structure Pending (c : ChunkState) : Prop where
  tracks : Tracks chunkSizeAvg c.C c.currentChunk
  short : c.currentChunk.length < chunkSizeAvg <<< 2

def Sized (data : Bytes) : Prop :=
  chunkSizeAvg >>> 2 ≤ data.length ∧ data.length ≤ chunkSizeAvg <<< 2

theorem init_pending : Pending ChunkState.init := ⟨new_tracks chunkSizeAvg, by decide⟩

theorem breaks_of_long (window : List UInt8) : breaks chunkSizeAvg window (chunkSizeAvg <<< 2) := by
  simp [breaks, Chunker.shallBreak, Chunker.new, chunkSizeAvg]

theorem least_of_breaks (window : List UInt8) (n : Nat) (ends : breaks chunkSizeAvg window n) :
    chunkSizeAvg >>> 2 ≤ n := by
  by_contra short
  have below : n < chunkSizeAvg >>> 2 := Nat.lt_of_not_le short
  have inside : ¬n ≥ chunkSizeAvg <<< 2 := by
    simp only [chunkSizeAvg] at below ⊢
    omega
  simp [breaks, Chunker.shallBreak, Chunker.new, below, inside] at ends

theorem pushByte_pending (c : ChunkState) (pending : Pending c) (b : UInt8) :
    Pending (pushByte c b).1 ∧ ∀ job ∈ (pushByte c b).2, Sized job.data := by
  obtain ⟨ends, follows⟩ := push_spec pending.tracks b
  have size : (c.currentChunk ++ [b]).length = c.currentChunk.length + 1 := by simp
  by_cases cut : (push c.C b).1 = true
  · rw [cut, if_pos rfl] at follows
    have least := least_of_breaks _ _ (ends.symm.trans cut)
    refine ⟨?_, ?_⟩
    · rw [pushByte]
      simp only [cut, if_true]
      exact ⟨follows, show 0 < chunkSizeAvg <<< 2 by decide⟩
    · intro job sent
      rw [pushByte] at sent
      simp only [cut, if_true, List.mem_singleton] at sent
      subst sent
      exact ⟨size ▸ least, size ▸ pending.short⟩
  · rw [if_neg cut] at follows
    have more : c.currentChunk.length + 1 ≠ chunkSizeAvg <<< 2 := by
      intro whole
      rw [whole, breaks_of_long] at ends
      exact cut ends
    refine ⟨?_, by simp [pushByte, cut]⟩
    rw [pushByte]
    simp only [cut, Bool.false_eq_true, if_false]
    refine ⟨follows, ?_⟩
    have short := pending.short
    rw [size]
    omega

theorem pushBytes_pending (c : ChunkState) (pending : Pending c) (data : Bytes) :
    Pending (pushBytes c data).1 ∧ ∀ job ∈ (pushBytes c data).2, Sized job.data := by
  induction data generalizing c with
  | nil => exact ⟨pending, by simp [pushBytes]⟩
  | cons b rest ih =>
      obtain ⟨one, first⟩ := pushByte_pending c pending b
      obtain ⟨all, others⟩ := ih _ one
      refine ⟨all, ?_⟩
      intro job sent
      rcases List.mem_append.mp sent with sent | sent
      · exact first job sent
      · exact others job sent

/-- The chunks of a stream handed to HandleData in `pieces`: those cut on the
way, and at Eof what is still pending. -/
def chunksCut (pieces : List Bytes) : List Bytes :=
  let fed := feedPieces ChunkState.init pieces
  (fed.2 ++ fed.1.emitCurrent.2).map UploadJob.data

/-- However the stream is split, the chunker ends in the same state and the
same chunks are cut; they are the stream, and all but the last are between the
chunker's bounds. -/
theorem chunks_independent_of_pieces (pieces : List Bytes) :
    feedPieces ChunkState.init pieces = feedPieces ChunkState.init [pieces.flatten] ∧
    chunksCut pieces = chunksCut [pieces.flatten] ∧
    (chunksCut pieces).flatten = pieces.flatten ∧
    ∀ chunk ∈ (chunksCut pieces).dropLast,
      ChunkState.init.C.chunkSizeMin ≤ chunk.length ∧
        chunk.length ≤ ChunkState.init.C.chunkSizeMax := by
  have same : feedPieces ChunkState.init pieces = feedPieces ChunkState.init [pieces.flatten] := by
    rw [feedPieces_eq, feedPieces_eq, List.flatten_singleton]
  refine ⟨same, by rw [chunksCut, same, chunksCut], ?_, ?_⟩
  · rw [chunksCut, feedPieces_eq]
    have handled := handleData_extends ChunkState.init pieces.flatten [] init_cut
    have emitted := emitCurrent_extends _ _ handled.cut
    have stream := emitted.1.stream
    rw [streamOf, emitted.2, handled.stream] at stream
    simpa [streamOf, ChunkState.init] using stream
  · have sized := (pushBytes_pending _ init_pending pieces.flatten).2
    rw [← handleData_eq, ← feedPieces_eq] at sized
    intro chunk member
    have inside : chunk ∈ (feedPieces ChunkState.init pieces).2.map UploadJob.data := by
      rw [chunksCut, List.map_append] at member
      simp only [ChunkState.emitCurrent] at member
      split at member
      · exact List.dropLast_subset _ (by simpa using member)
      · simpa using member
    obtain ⟨job, sent, rfl⟩ := List.mem_map.mp inside
    exact sized job sent

end ProxmoxBackup.BuzhashWindow
