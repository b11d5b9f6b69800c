import Mathlib.Data.List.Nodup
import Mathlib.Data.List.Range
import ProxmoxBackup.NbdServer

/-! The cache of FIDXServer over a run of calls: how many chunks it holds. The lives in
it stay apart as long as only the chunk that was read last is read again. -/

namespace ProxmoxBackup.NbdCache

open ChunkIndex (Bytes)
open FixedIndexFile GoValues NbdServer TransitionSystem

/-- The chunks that a call goes through. -/
def indexes (f : FIDXServer) (c : Call) : List NbdServer.ChunkIndex :=
  if c.off < 0 then []
  else if c.off ≥ int64 f.Size then []
  else
    let want : Int := c.p.length
    let beyond := int64 (c.off + want) > int64 f.Size
    f.getChunksIndexes c.off (if beyond then int64 (int64 f.Size - c.off) else want)

/-- Access after access: what is found in the cache is what was read last, and when
the call ends early no chunk there has expired. -/
def Ages (f : FIDXServer) (fetch : Int → Option Bytes) :
    List NbdServer.ChunkIndex → List CachedChunk → Prop
  | [], _ => True
  | idx :: rest, cached =>
      (∀ ch, find cached idx.Index = some ch → ch.Life = LRU_CACHE_LIFE) ∧
        match access f fetch cached idx with
        | .failed _ cached' => ∀ ch ∈ cached', 0 < ch.Life
        | .data _ cached' => Ages f fetch rest cached'

/-- An image of no more chunks than the cache may hold has all the room it needs. -/
def Ordinary (f : FIDXServer) (turn : Turn) : Prop :=
  (f.chunks.length : Int) ≤ LRU_CACHE_LIFE ∨ Ages f turn.fetch (indexes f turn.call) f.cached

def ordinarySystem (file : FixedIndexFile.ByteSlice) : System FIDXServer Turn :=
  (serverSystem file).restrict Ordinary

/-! The keys of the map. -/

/-- Each chunk once, and only the image's. -/
structure Keyed (f : FIDXServer) (cached : List CachedChunk) : Prop where
  once : (cached.map CachedChunk.Index).Nodup
  listed : ∀ ch ∈ cached, 0 ≤ ch.Index ∧ ch.Index < f.chunks.length

theorem find_none {cached : List CachedChunk} {index : Int} (missing : find cached index = none) :
    index ∉ cached.map CachedChunk.Index := by
  intro member
  obtain ⟨ch, listed, same⟩ := List.mem_map.mp member
  have other := List.find?_eq_none.mp missing ch listed
  exact other (decide_eq_true same)

theorem touch_indexes (cached : List CachedChunk) (index : Int) :
    (touch cached index).map CachedChunk.Index = cached.map CachedChunk.Index := by
  unfold touch
  rw [List.map_map]
  apply List.map_congr_left
  intro ch _
  dsimp only [Function.comp]
  split <;> rfl

theorem store_indexes (cached : List CachedChunk) (index : Int) (data : Bytes) :
    (store cached index data).map CachedChunk.Index = index :: cached.map CachedChunk.Index := by
  unfold store
  rw [List.map_cons, List.map_map]
  rfl

theorem keyed_iff (f : FIDXServer) (cached : List CachedChunk) : Keyed f cached ↔
    (cached.map CachedChunk.Index).Nodup ∧
      ∀ index ∈ cached.map CachedChunk.Index, 0 ≤ index ∧ index < f.chunks.length := by
  constructor
  · rintro ⟨once, listed⟩
    refine ⟨once, fun index member => ?_⟩
    obtain ⟨ch, there, rfl⟩ := List.mem_map.mp member
    exact listed ch there
  · rintro ⟨once, listed⟩
    exact ⟨once, fun ch member => listed ch.Index (List.mem_map_of_mem member)⟩

theorem keyed_access {f : FIDXServer} (fetch : Int → Option Bytes) {cached : List CachedChunk}
    (keyed : Keyed f cached) (idx : NbdServer.ChunkIndex) :
    match access f fetch cached idx with
    | .data _ cached' => Keyed f cached'
    | .failed _ cached' => Keyed f cached' := by
  apply access_keeps idx (Keyed f) keyed
  · intro ch found
    rw [keyed_iff, touch_indexes, ← keyed_iff]
    exact keyed
  · intro data missing inside sent
    obtain ⟨once, listed⟩ := (keyed_iff f cached).mp keyed
    rw [keyed_iff, store_indexes]
    refine ⟨List.nodup_cons.mpr ⟨find_none missing, once⟩, fun index member => ?_⟩
    rcases List.mem_cons.mp member with rfl | member
    · exact inside
    · exact listed index member

theorem keyed_clean {f : FIDXServer} {cached : List CachedChunk} (keyed : Keyed f cached) :
    Keyed f (cached.filter fun ch => 0 < ch.Life) := by
  obtain ⟨once, listed⟩ := keyed
  refine ⟨?_, fun ch member => listed ch (List.mem_filter.mp member).1⟩
  exact once.sublist (List.filter_sublist.map CachedChunk.Index)

theorem keyed_length {f : FIDXServer} {cached : List CachedChunk} (keyed : Keyed f cached) :
    cached.length ≤ f.chunks.length := by
  obtain ⟨once, listed⟩ := (keyed_iff f cached).mp keyed
  have inside : cached.map CachedChunk.Index ⊆ (List.range f.chunks.length).map fun n : Nat => (n : Int) := by
    intro index member
    obtain ⟨low, high⟩ := listed index member
    refine List.mem_map.mpr ⟨index.toNat, List.mem_range.mpr ?_, Int.toNat_of_nonneg low⟩
    omega
  have fits := (List.subperm_of_subset once inside).length_le
  simpa using fits

/-! The lives. -/

/-- No two chunks have the same life left, and none has more than a fresh one. -/
structure Apart (cached : List CachedChunk) : Prop where
  lives : (cached.map CachedChunk.Life).Nodup
  most : ∀ ch ∈ cached, ch.Life ≤ LRU_CACHE_LIFE

theorem touch_same {f : FIDXServer} {cached : List CachedChunk} {index : Int} {ch : CachedChunk}
    (keyed : Keyed f cached) (found : find cached index = some ch) (fresh : ch.Life = LRU_CACHE_LIFE) :
    touch cached index = cached := by
  obtain ⟨listed, named⟩ := find_some found
  unfold touch
  apply (List.map_congr_left _).trans (List.map_id cached)
  intro other member
  dsimp only [id]
  split
  · next same =>
      have only := List.inj_on_of_nodup_map keyed.once member listed (same.trans named.symm)
      rw [only, ← fresh]
  · rfl

theorem apart_store {cached : List CachedChunk} (apart : Apart cached) (index : Int) (data : Bytes) :
    Apart (store cached index data) := by
  obtain ⟨lives, most⟩ := apart
  have aged : (cached.map fun ch => { ch with Life := ch.Life - 1 }).map CachedChunk.Life =
      (cached.map CachedChunk.Life).map fun life => life - 1 := by
    rw [List.map_map, List.map_map]
    rfl
  constructor
  · unfold store
    rw [List.map_cons, aged]
    refine List.nodup_cons.mpr ⟨fun member => ?_, lives.map fun a b same => by omega⟩
    obtain ⟨life, there, same⟩ := List.mem_map.mp member
    obtain ⟨ch, listed, rfl⟩ := List.mem_map.mp there
    have bound := most ch listed
    dsimp only at same
    omega
  · intro ch member
    rcases List.mem_cons.mp member with rfl | member
    · exact Int.le_refl _
    · obtain ⟨old, listed, rfl⟩ := List.mem_map.mp member
      have bound := most old listed
      dsimp only
      omega

theorem apart_filter {cached : List CachedChunk} (apart : Apart cached) :
    Apart (cached.filter fun ch => 0 < ch.Life) :=
  ⟨apart.lives.sublist (List.filter_sublist.map CachedChunk.Life),
    fun ch member => apart.most ch (List.mem_filter.mp member).1⟩

/-- Sixteen lives are left to be had. -/
theorem apart_length {cached : List CachedChunk} (apart : Apart cached)
    (alive : ∀ ch ∈ cached, 0 < ch.Life) : (cached.length : Int) ≤ LRU_CACHE_LIFE := by
  have inside : cached.map CachedChunk.Life ⊆ (List.range 16).map fun n : Nat => (n : Int) + 1 := by
    intro life member
    obtain ⟨ch, listed, rfl⟩ := List.mem_map.mp member
    have low := alive ch listed
    have high := apart.most ch listed
    unfold LRU_CACHE_LIFE at high
    refine List.mem_map.mpr ⟨(ch.Life - 1).toNat, List.mem_range.mpr ?_, ?_⟩
    · omega
    · omega
  have fits := (List.subperm_of_subset apart.lives inside).length_le
  unfold LRU_CACHE_LIFE
  simp at fits
  omega

/-! A call. -/

/-- One access of a call keeps the lives apart. -/
theorem apart_access {f : FIDXServer} (fetch : Int → Option Bytes) {cached : List CachedChunk}
    (keyed : Keyed f cached) (apart : Apart cached) (idx : NbdServer.ChunkIndex)
    (fresh : ∀ ch, find cached idx.Index = some ch → ch.Life = LRU_CACHE_LIFE) :
    match access f fetch cached idx with
    | .data _ cached' => Apart cached'
    | .failed _ cached' => Apart cached' := by
  apply access_keeps idx Apart apart
  · intro ch found
    rw [touch_same keyed found (fresh ch found)]
    exact apart
  · exact fun data _ _ _ => apart_store apart idx.Index data

/-- A call of ordinary accesses ends with the lives apart and nothing expired. -/
theorem apart_readIndexes {f : FIDXServer} {fetch : Int → Option Bytes} {want : Int} {eof : Bool}
    {idxs : List NbdServer.ChunkIndex} {cached cached' : List CachedChunk} {p p' : Bytes} {pos n : Int}
    {err : Option NbdServer.ReadError} (keyed : Keyed f cached) (apart : Apart cached)
    (ages : Ages f fetch idxs cached)
    (read : readIndexes f fetch want eof idxs cached p pos = .returned n err p' cached') :
    Apart cached' ∧ ∀ ch ∈ cached', 0 < ch.Life := by
  induction idxs generalizing cached p pos with
  | nil =>
      have cleaned : Apart (cached.filter fun ch => 0 < ch.Life) ∧
          ∀ ch ∈ cached.filter fun ch => 0 < ch.Life, 0 < ch.Life :=
        ⟨apart_filter apart, fun ch member => of_decide_eq_true (List.mem_filter.mp member).2⟩
      unfold readIndexes at read
      dsimp only at read
      split at read
      · cases read
        exact cleaned
      · cases read
        exact cleaned
  | cons idx rest ih =>
      obtain ⟨fresh, later⟩ := ages
      have next := apart_access fetch keyed apart idx fresh
      have keys := keyed_access fetch keyed idx
      unfold readIndexes at read
      cases served : access f fetch cached idx with
      | failed err cached' =>
          rw [served] at next later read
          cases read
          exact ⟨next, later⟩
      | data data cached' =>
          rw [served] at next keys later read
          dsimp only at read
          split at read
          · exact ih keys next later read
          · cases read

theorem readAt_indexes {f : FIDXServer} {fetch : Int → Option Bytes} {c : Call} {n : Int}
    {err : Option NbdServer.ReadError} {p : Bytes} {cached : List CachedChunk}
    (read : ReadAt f fetch c.p c.off = .returned n err p cached) : cached = f.cached ∨
      ∃ want eof, readIndexes f fetch want eof (indexes f c) f.cached c.p 0 = .returned n err p cached := by
  unfold ReadAt at read
  unfold indexes
  split at read
  · cases read
    exact Or.inl rfl
  · next positive =>
      split at read
      · cases read
        exact Or.inl rfl
      · next within =>
          rw [if_neg positive, if_neg within]
          exact Or.inr ⟨_, _, read⟩

/-! Runs. -/

/-- What the server keeps from call to call. -/
structure Kept (f : FIDXServer) : Prop where
  keyed : Keyed f f.cached
  aged : (f.chunks.length : Int) ≤ LRU_CACHE_LIFE ∨
    Apart f.cached ∧ ∀ ch ∈ f.cached, 0 < ch.Life

theorem kept_step {f next : FIDXServer} {turn : Turn} (kept : Kept f) (ordinary : Ordinary f turn)
    (taken : step f turn = some next) : Kept next := by
  obtain ⟨n, err, p, cached, read, rfl⟩ := step_cases taken
  have keys : Keyed f cached := readAt_keeps (Keyed f) (fun cached idx keyed => keyed_access _ keyed idx)
    (fun cached keyed => keyed_clean keyed) kept.keyed read
  refine ⟨⟨keys.once, keys.listed⟩, ?_⟩
  rcases ordinary with small | ages
  · exact Or.inl small
  · rcases kept.aged with small | ⟨apart, alive⟩
    · exact Or.inl small
    · rcases readAt_indexes read with same | ⟨want, eof, looped⟩
      · rw [same]
        exact Or.inr ⟨apart, alive⟩
      · exact Or.inr (apart_readIndexes kept.keyed apart ages looped)

theorem reachable_kept {file : FixedIndexFile.ByteSlice} {f : FIDXServer}
    (reached : Reachable (ordinarySystem file) f) : Kept f := by
  have invariant : Invariant (ordinarySystem file) Kept := by
    constructor
    · intro f made
      obtain ⟨-, empty⟩ := accepted_new made
      refine ⟨?_, Or.inr ?_⟩
      · rw [empty]
        exact ⟨List.nodup_nil, fun ch member => absurd member List.not_mem_nil⟩
      · rw [empty]
        exact ⟨⟨List.nodup_nil, fun ch member => absurd member List.not_mem_nil⟩,
          fun ch member => absurd member List.not_mem_nil⟩
    · rintro f turn next kept ⟨taken, ordinary⟩
      exact kept_step kept ordinary taken
  exact invariant.reachable reached

/-- After every call of a run of ordinary ones the cache holds no more chunks than it
is meant to. -/
theorem cache_bounded {file : FixedIndexFile.ByteSlice} {f : FIDXServer}
    (reached : Reachable (ordinarySystem file) f) : (f.cached.length : Int) ≤ LRU_CACHE_LIFE := by
  obtain ⟨keyed, aged⟩ := reachable_kept reached
  rcases aged with small | ⟨apart, alive⟩
  · have fits := keyed_length keyed
    omega
  · exact apart_length apart alive

/-! Seventeen bytes in chunks of one. -/

def smallChunks : FixedIndexFile.ByteSlice where
  data := indexFile 17 1 (padding 544)
  spare := []
  fits := by
    rw [indexFile_length, padding_length]
    decide

def smallServer : FIDXServer := ⟨17, 1, (List.range' 0 17).map (digestText (padding 544)), []⟩

theorem smallServer_new : NewFIDXServer smallChunks.data = .ok smallServer :=
  new_indexFile 17 1 (padding 544) (by decide) (by decide) (by decide) (by rw [padding_length]; decide)

theorem small_offset (k : Fin 17) : -2 ^ 63 ≤ (k.val : Int) ∧ (k.val : Int) < 2 ^ 63 := by
  omega

theorem one_byte : ([0] : Bytes).length < 2 ^ 63 := by
  decide

/-- A read of the byte at k, whose chunk is sent if it has to be. -/
def readByte (k : Fin 17) : Turn where
  call := ⟨[0], k.val, one_byte, (small_offset k).1, (small_offset k).2⟩
  fetch := fun _ => some [7]

/-- Chunks 0 to 15, chunk 0 again when it is about to expire, and chunk 16. -/
def hotReads : List Turn := ((List.finRange 17).take 16 ++ [0, 16]).map readByte

theorem hot_chunk_stays : ∃ f, Reachable (serverSystem smallChunks) f ∧
    ¬(f.cached.length : Int) ≤ LRU_CACHE_LIFE := by
  have executed : (hotReads.foldlM step smallServer).map (fun f => f.cached.length) = some 17 := by
    decide +kernel
  obtain ⟨f, ran, held⟩ := Option.map_eq_some_iff.mp executed
  refine ⟨f, ⟨smallServer, hotReads, smallServer_new, ?_⟩, ?_⟩
  · exact run_of_foldlM step (fun _ _ _ taken => taken) ran
  · rw [held]
    decide

/-- Reads of two chunks, one after the other. -/
theorem two_reads_bounded : ∃ f, Reachable (ordinarySystem smallChunks) f ∧
    f.cached.length = 2 ∧ (f.cached.length : Int) ≤ LRU_CACHE_LIFE := by
  have first : step smallServer (readByte 3) = some { smallServer with cached := [⟨[7], 3, 16⟩] } := by
    decide +kernel
  have second : step { smallServer with cached := [⟨[7], 3, 16⟩] } (readByte 4) =
      some { smallServer with cached := [⟨[7], 4, 16⟩, ⟨[7], 3, 15⟩] } := by
    decide +kernel
  have reached : Reachable (ordinarySystem smallChunks)
      { smallServer with cached := [⟨[7], 4, 16⟩, ⟨[7], 3, 15⟩] } := by
    refine ⟨smallServer, [readByte 3, readByte 4], smallServer_new,
      Run.next ⟨first, Or.inr ?_⟩ (Run.next ⟨second, Or.inr ?_⟩ (Run.stop _))⟩
    · have single : indexes smallServer (readByte 3).call = [⟨3, 0, 1⟩] := by decide +kernel
      rw [single]
      exact ⟨fun ch found => (by cases found), trivial⟩
    · have single : indexes { smallServer with cached := [⟨[7], 3, 16⟩] } (readByte 4).call =
          [⟨4, 0, 1⟩] := by decide +kernel
      rw [single]
      exact ⟨fun ch found => (by cases found), trivial⟩
  exact ⟨_, reached, rfl, cache_bounded reached⟩

end ProxmoxBackup.NbdCache
