import Mathlib.Data.List.GetD
import Mathlib.Data.List.Pairwise
import ProxmoxBackup.ArchiveNames
import ProxmoxBackup.BinarySearch
import ProxmoxBackup.GoValues

/-! The index of an archive (didxIndex) and a read over it: chunkRange, chunkIndexAt,
fetchOnce and the loop of DIDXReaderAt.ReadAt. Go's uint64 are natural numbers below
2^64, its int64 integers. What a call of ReadAt finds from turn to turn (cancelled or
not, the chunk the server sends or had sent for the cache) is given. -/

namespace ProxmoxBackup.ChunkIndex

open ArchiveNames (Text)
open BinarySearch GoValues

abbrev Bytes := List UInt8

structure didxIndex where
  offsets : List Nat
  digests : List Text
  total : Nat

inductive ReadError where
  | cancelled
  | negativeOffset (off : Int)
  | eof
  | fetch (digest : Text) (index count : Nat)
  | size (digest : Text) (index got want : Nat)
  | hash (digest : Text) (index : Nat)
  deriving DecidableEq

namespace didxIndex

variable (idx : didxIndex)

/-- [start,end) of a chunk. -/
def chunkRange (i : Nat) : Option (Nat × Nat) :=
  match idx.offsets[i]? with
  | none => none
  | some stop => some (if i > 0 then idx.offsets.getD (i - 1) 0 else 0, stop)

def chunkIndexAt (pos : Nat) : Nat :=
  Search (fun i => pos < idx.offsets.getD i 0) idx.offsets.length

variable (ChunkMatchesDigest : Bytes → Text → Bool)

/-- got is what GetChunkData returns. -/
def fetchOnce (got : Option Bytes) (ci : Nat) : Outcome ReadError Bytes :=
  match idx.digests[ci]? with
  | none => .panicked
  | some digest =>
      match got with
      | none => .error (.fetch digest ci idx.digests.length)
      | some chunk =>
          match idx.chunkRange ci with
          | none => .panicked
          | some (start, stop) =>
              if chunk.length ≠ uint64 (stop + 2 ^ 64 - start) then
                .error (.size digest ci chunk.length (uint64 (stop + 2 ^ 64 - start)))
              else if !ChunkMatchesDigest chunk digest then .error (.hash digest ci)
              else .ok chunk

/-! ReadAt. -/

/-- The chunk the next turn of the loop needs, when the buffer has got bytes. -/
def needed (off len got : Nat) : Option Nat :=
  if got < len then
    if off + got ≥ idx.total then none else some (idx.chunkIndexAt (off + got))
  else none

/-- copy(p[n:], chunk[pos-start:]) -/
def copied (off len got ci : Nat) (chunk : Bytes) : Option Bytes :=
  match idx.chunkRange ci with
  | none => none
  | some (start, _) =>
      if start ≤ off + got ∧ off + got - start ≤ chunk.length then
        some ((chunk.drop (off + got - start)).take (len - got))
      else none

/-- The error ReadAt returns behind its loop. -/
def atEnd (len got : Nat) : Option ReadError := if got < len then some .eof else none

/-- The loop for as many turns as there is fuel; none when it goes on. -/
def readLoop (chunkAt : Nat → Nat → Outcome ReadError Bytes) (off len : Nat) :
    Nat → Bytes → Option (Outcome ReadError (Bytes × Option ReadError))
  | 0, _ => none
  | fuel + 1, p =>
      match idx.needed off len p.length with
      | none => some (.ok (p, atEnd len p.length))
      | some ci =>
          match chunkAt fuel ci with
          | .panicked => some .panicked
          | .error err => some (.ok (p, some err))
          | .ok chunk =>
              match idx.copied off len p.length ci chunk with
              | none => some .panicked
              | some bytes => readLoop chunkAt off len fuel (p ++ bytes)

def chunkAt (cancel : Nat → Bool) (got : Nat → Option Bytes) (turn ci : Nat) : Outcome ReadError Bytes :=
  if cancel turn then .error .cancelled
  else idx.fetchOnce ChunkMatchesDigest (got turn) ci

def ReadAt (cancel : Nat → Bool) (got : Nat → Option Bytes) (len : Nat) (off : Int) (fuel : Nat) :
    Option (Outcome ReadError (Bytes × Option ReadError)) :=
  if cancel fuel then some (.ok ([], some .cancelled))
  else if off < 0 then some (.ok ([], some (.negativeOffset off)))
  else if off ≥ int64 idx.total then some (.ok ([], some .eof))
  else idx.readLoop (idx.chunkAt ChunkMatchesDigest cancel got) off.toNat len fuel []

/-- What downloadDIDXIndex makes sure of. -/
structure Valid : Prop where
  ascending : (0 :: idx.offsets).Pairwise (· < ·)
  digests : idx.digests.length = idx.offsets.length
  total : idx.total = idx.offsets.getD (idx.offsets.length - 1) 0
  fits : idx.total < 2 ^ 64

variable {idx}

theorem Valid.offset_lt (valid : idx.Valid) {i j : Nat} (order : i < j)
    (within : j < idx.offsets.length) : idx.offsets.getD i 0 < idx.offsets.getD j 0 := by
  have ascending := (List.pairwise_cons.mp valid.ascending).2
  rw [List.getD_eq_getElem _ _ (by omega), List.getD_eq_getElem _ _ within]
  exact List.pairwise_iff_getElem.mp ascending i j (by omega) within order

theorem Valid.offset_le_total (valid : idx.Valid) {i : Nat} (within : i < idx.offsets.length) :
    idx.offsets.getD i 0 ≤ idx.total := by
  rw [valid.total]
  rcases Nat.eq_or_lt_of_le (show i ≤ idx.offsets.length - 1 by omega) with same | before
  · rw [same]
  · exact Nat.le_of_lt (valid.offset_lt before (by omega))

/-- The chunk found for a position of the stream is the one that has it. -/
theorem Valid.chunkIndexAt_spec (valid : idx.Valid) (pos : Nat) (inside : pos < idx.total) :
    ∃ start stop, idx.chunkRange (idx.chunkIndexAt pos) = some (start, stop) ∧
      start ≤ pos ∧ pos < stop ∧ stop ≤ idx.total ∧ idx.chunkIndexAt pos < idx.offsets.length := by
  have mono : ∀ a b, a ≤ b → b < idx.offsets.length →
      decide (pos < idx.offsets.getD a 0) = true → decide (pos < idx.offsets.getD b 0) = true := by
    intro a b order within holds
    rcases Nat.eq_or_lt_of_le order with rfl | order
    · exact holds
    · have later := valid.offset_lt order within
      have holds := of_decide_eq_true holds
      exact decide_eq_true (by omega)
  obtain ⟨found, below, above⟩ : idx.chunkIndexAt pos ≤ idx.offsets.length ∧
      (∀ k < idx.chunkIndexAt pos, decide (pos < idx.offsets.getD k 0) = false) ∧
      ∀ k, idx.chunkIndexAt pos ≤ k → k < idx.offsets.length →
        decide (pos < idx.offsets.getD k 0) = true := search_least idx.offsets.length mono
  have some_ : idx.offsets ≠ [] := by
    intro none_
    have total := valid.total
    rw [none_] at total
    have zero : idx.total = 0 := total
    omega
  have nonempty := List.length_pos_iff.mpr some_
  have found : idx.chunkIndexAt pos < idx.offsets.length := by
    refine Nat.lt_of_le_of_ne found fun all => ?_
    have last := below (idx.offsets.length - 1) (by rw [all]; omega)
    rw [← valid.total] at last
    exact of_decide_eq_false last inside
  have stops := of_decide_eq_true (above (idx.chunkIndexAt pos) (Nat.le_refl _) found)
  have least := valid.offset_le_total found
  rw [List.getD_eq_getElem _ _ found] at stops least
  refine ⟨_, _, by rw [chunkRange, List.getElem?_eq_getElem found], ?_, stops, least, found⟩
  split
  · next later =>
      have before := of_decide_eq_false (below (idx.chunkIndexAt pos - 1) (by omega))
      omega
  · exact Nat.zero_le pos

/-- A chunk that fetchOnce lets through is as long as its place in the stream. -/
theorem fetchOnce_length {ChunkMatchesDigest : Bytes → Text → Bool} {got : Option Bytes}
    {ci start stop : Nat} {chunk : Bytes} (place : idx.chunkRange ci = some (start, stop))
    (order : start < stop) (bound : stop < 2 ^ 64)
    (fetched : idx.fetchOnce ChunkMatchesDigest got ci = .ok chunk) :
    chunk.length = stop - start := by
  have same : uint64 (stop + 2 ^ 64 - start) = stop - start := by
    unfold uint64
    omega
  unfold fetchOnce at fetched
  rw [place] at fetched
  split at fetched
  · cases fetched
  · split at fetched
    · cases fetched
    · next digest known sent =>
        dsimp only at fetched
        rw [same] at fetched
        split at fetched
        · cases fetched
        · next size =>
            split at fetched
            · cases fetched
            · cases fetched
              exact not_not.mp size

theorem fetchOnce_no_panic {ChunkMatchesDigest : Bytes → Text → Bool} {got : Option Bytes}
    {ci start stop : Nat} (listed : ci < idx.digests.length)
    (place : idx.chunkRange ci = some (start, stop)) :
    idx.fetchOnce ChunkMatchesDigest got ci ≠ .panicked := by
  unfold fetchOnce
  rw [List.getElem?_eq_getElem listed, place]
  cases got with
  | none => exact fun wrong => by cases wrong
  | some chunk =>
      dsimp only
      by_cases size : chunk.length ≠ uint64 (stop + 2 ^ 64 - start)
      · rw [if_pos size]
        exact fun wrong => by cases wrong
      · rw [if_neg size]
        cases ChunkMatchesDigest chunk idx.digests[ci] with
        | false => exact fun wrong => by cases wrong
        | true => exact fun wrong => by cases wrong

/-- Over a valid index the loop indexes nothing out of range, whatever it is sent. -/
theorem Valid.readLoop_no_panic (valid : idx.Valid) (ChunkMatchesDigest : Bytes → Text → Bool)
    (cancel : Nat → Bool) (got : Nat → Option Bytes) (off len fuel : Nat) (p : Bytes) :
    idx.readLoop (idx.chunkAt ChunkMatchesDigest cancel got) off len fuel p ≠ some .panicked := by
  induction fuel generalizing p with
  | zero => exact fun wrong => by cases wrong
  | succ fuel ih =>
      rw [readLoop]
      cases turn : idx.needed off len p.length with
      | none => exact fun wrong => by cases wrong
      | some ci =>
          unfold needed at turn
          split at turn
          · split at turn
            · cases turn
            · next within =>
                cases turn
                obtain ⟨start, stop, place, low, high, bound, found⟩ :=
                  valid.chunkIndexAt_spec (off + p.length) (by omega)
                dsimp only
                cases served : idx.chunkAt ChunkMatchesDigest cancel got fuel
                    (idx.chunkIndexAt (off + p.length)) with
                | panicked =>
                    unfold chunkAt at served
                    split at served
                    · cases served
                    · exact absurd served (fetchOnce_no_panic (valid.digests ▸ found) place)
                | error err => exact fun wrong => by cases wrong
                | ok chunk =>
                    unfold chunkAt at served
                    split at served
                    · cases served
                    · have small := Nat.lt_of_le_of_lt bound valid.fits
                      have size := fetchOnce_length place (by omega) small served
                      dsimp only
                      rw [copied, place]
                      dsimp only
                      rw [if_pos ⟨low, by omega⟩]
                      exact ih _
          · cases turn

theorem Valid.readAt_no_panic (valid : idx.Valid) (ChunkMatchesDigest : Bytes → Text → Bool)
    (cancel : Nat → Bool) (got : Nat → Option Bytes) (len : Nat) (off : Int) (fuel : Nat) :
    idx.ReadAt ChunkMatchesDigest cancel got len off fuel ≠ some .panicked := by
  unfold ReadAt
  split
  · exact fun wrong => by cases wrong
  · split
    · exact fun wrong => by cases wrong
    · split
      · exact fun wrong => by cases wrong
      · exact valid.readLoop_no_panic ChunkMatchesDigest cancel got off.toNat len fuel []

end didxIndex

end ProxmoxBackup.ChunkIndex
