import ProxmoxBackup.UploadPoolJobs

/-! What a closed dynamic index says about the stream, read off the invariants
of the upload pool at the sealed phase. -/

namespace ProxmoxBackup.DynamicIndex

open TransitionSystem DynamicChunks UploadPool UploadPoolWalk UploadPoolJobs

variable {chunkDigest sha256 : Bytes → Digest} {known : List Digest}

/-- The index of a stream cut into `chunks`: each chunk's digest and start. -/
def dynamicIndex (chunkDigest : Bytes → Digest) : Nat → List Bytes → List (Digest × Nat)
  | _, [] => []
  | offset, data :: rest =>
      (chunkDigest data, offset) :: dynamicIndex chunkDigest (offset + data.length) rest

/-- The bytes an index's checksum is over: each chunk's end and its digest. -/
def indexBytes (chunkDigest : Bytes → Digest) : Nat → List Bytes → Bytes
  | _, [] => []
  | offset, data :: rest =>
      let endOffset := offset + data.length
      LittleEndian.encode 8 endOffset ++ chunkDigest data ++ indexBytes chunkDigest endOffset rest

/-- The entries an index holds when it is complete. -/
def completeEntries (chunkDigest : Bytes → Digest) : Nat → List Bytes → List ChunkEntry
  | _, [] => []
  | offset, data :: rest =>
      ⟨offset, data.length, chunkDigest data⟩ ::
        completeEntries chunkDigest (offset + data.length) rest

/-- The index closed over a stream: the chunks it names concatenate to the
stream, each where the one before it ends, and the server has every one. -/
structure SealedOver (chunkDigest sha256 : Bytes → Digest) (known : List Digest)
    (s : Pool chunkDigest) (index : ClosedIndex) (chunks : List Bytes) : Prop where
  whole : chunks.flatten = s.stream
  assigned : s.assigned = dynamicIndex chunkDigest 0 chunks
  size : index.size = s.stream.length
  chunkcount : index.chunkcount = s.assigned.length
  csum : index.csum = sha256 (indexBytes chunkDigest 0 chunks)
  stored : ∀ digest offset, (digest, offset) ∈ s.assigned →
    digest ∈ known ∨ digest ∈ s.uploaded
  unrefused : s.refused = false

theorem entries_complete (offset : Nat) (entries : List ChunkEntry) (chunks : List Bytes)
    (places : entries.map ChunkEntry.place = layout offset chunks)
    (digests : entries.map ChunkEntry.digest = chunks.map chunkDigest) :
    entries = completeEntries chunkDigest offset chunks := by
  induction chunks generalizing offset entries with
  | nil => simpa [completeEntries] using digests
  | cons data rest ih =>
      cases entries with
      | nil => simp at digests
      | cons e more =>
          simp only [List.map_cons, layout, List.cons.injEq] at places digests
          have place := places.1
          simp only [ChunkEntry.place, Prod.mk.injEq] at place
          rw [completeEntries, ← ih _ more places.2 digests.2, ← place.1, ← place.2, ← digests.1]

theorem indexList_complete (offset : Nat) (chunks : List Bytes) :
    indexList (completeEntries chunkDigest offset chunks) =
      dynamicIndex chunkDigest offset chunks := by
  induction chunks generalizing offset with
  | nil => rfl
  | cons data rest ih => simpa [completeEntries, dynamicIndex, indexList] using ih _

theorem checksumInput_complete (offset : Nat) (chunks : List Bytes) :
    checksumInput (completeEntries chunkDigest offset chunks) =
      indexBytes chunkDigest offset chunks := by
  induction chunks generalizing offset with
  | nil => rfl
  | cons data rest ih =>
      have tail := ih (offset + data.length)
      simp only [checksumInput] at tail
      simp [completeEntries, indexBytes, checksumInput, tail]

theorem dynamicIndex_length (offset : Nat) (chunks : List Bytes) :
    (dynamicIndex chunkDigest offset chunks).length = chunks.length := by
  induction chunks generalizing offset with
  | nil => rfl
  | cons data rest ih => simp [dynamicIndex, ih]

theorem dynamicIndex_digest (offset : Nat) (chunks : List Bytes) (digest : Digest) (start : Nat)
    (listed : (digest, start) ∈ dynamicIndex chunkDigest offset chunks) :
    ∃ data ∈ chunks, digest = chunkDigest data := by
  induction chunks generalizing offset with
  | nil => cases listed
  | cons data rest ih =>
      rcases List.mem_cons.mp listed with same | later
      · exact ⟨data, List.mem_cons_self .., congrArg Prod.fst same⟩
      · obtain ⟨found, member, same⟩ := ih _ later
        exact ⟨found, List.mem_cons_of_mem _ member, same⟩

/-- Once every worker is gone no job is pending. -/
theorem not_pending (s : Pool chunkDigest) (side : WalkSide s) (stop : Shutdown sha256 s)
    (gone : AllGone s.phase) (job : UploadJob) : ¬ Pending s job := by
  have all := stop.waited gone
  have still := side.idle gone
  rintro (sends | queued | ⟨w, holds⟩)
  · simp [still] at sends
  · have empty := (stop.gone ⟨0, by decide⟩ (all _)).2
    simp [empty] at queued
  · rw [all w] at holds
    exact free_holds .exited job trivial holds

theorem entries_sealed (s : Pool chunkDigest) (side : WalkSide s) (stop : Shutdown sha256 s)
    (jobs : Jobs s) (live : Live s) (gone : AllGone s.phase) :
    s.walk.entries = completeEntries chunkDigest 0 s.data ∧
      ∀ data ∈ s.data, chunkDigest data ∈ s.knownChunks := by
  have settled : ∀ i chunk, s.data[i]? = some chunk → Settled s i chunk := by
    intro i chunk found
    rcases jobs.accounted live i chunk found with settled | ⟨job, _, pending⟩
    · exact settled
    · exact absurd pending (not_pending s side stop gone job)
  have length := side.cut.entries_length
  refine ⟨entries_complete 0 _ _ side.cut.places (List.ext_getElem? fun i => ?_), ?_⟩
  · rw [List.getElem?_map, List.getElem?_map]
    cases found : s.data[i]? with
    | none =>
        have past := List.getElem?_eq_none_iff.mp found
        rw [List.getElem?_eq_none (by omega)]
        rfl
    | some chunk => exact (settled i chunk found).1
  · intro data member
    obtain ⟨i, inside, same⟩ := List.mem_iff_getElem.mp member
    exact (settled i data (same ▸ List.getElem?_eq_getElem inside)).2

/-- All that the invariants say together. -/
def Sound (sha256 : Bytes → Digest) (known : List Digest) (s : Pool chunkDigest) : Prop :=
  WalkSide s ∧ Shutdown sha256 s ∧ Flushed s ∧ Jobs s ∧ Uploads known s

theorem pool_sound (s : Pool chunkDigest)
    (reached : Reachable (poolSystem chunkDigest sha256 known) s) : Sound sha256 known s := by
  obtain ⟨⟨⟨⟨⟨_, side⟩, stop⟩, flushed⟩, jobs⟩, uploads⟩ := uploads_invariant.reachable reached
  exact ⟨side, stop, flushed, jobs, uploads⟩

theorem sealed_sound (s : Pool chunkDigest) (index : ClosedIndex) (sound : Sound sha256 known s)
    (closed : s.phase = .sealed index) :
    ∃ chunks, SealedOver chunkDigest sha256 known s index chunks := by
  obtain ⟨side, stop, flushed, jobs, uploads⟩ := sound
  have gone : AllGone s.phase := closed ▸ trivial
  have all := stop.waited gone
  have clean : s.fatalErr = none := stop.clean (closed ▸ trivial)
  have live : Live s := ⟨clean, by simp [closed]⟩
  have idle := side.idle gone
  have nothing : s.walk.currentChunk = [] := by
    rcases flushed (closed ▸ trivial) with busy | busy | ⟨nothing, _⟩
    · simp [idle] at busy
    · simp [idle] at busy
    · exact nothing
  obtain ⟨entries, named⟩ := entries_sealed s side stop jobs live gone
  have listed := stop.listed
  simp only [Listed, closed] at listed
  obtain ⟨assigned, index_eq⟩ := listed
  rw [entries, indexList_complete] at assigned
  have whole : s.data.flatten = s.stream := by
    simpa [nothing, idle, unscanned] using side.whole clean
  refine ⟨s.data, whole, assigned, ?_, ?_, ?_, ?_, ?_⟩
  · rw [index_eq, ← whole]
    exact side.cut.position
  · rw [index_eq, assigned, dynamicIndex_length]
    exact side.cut.counted
  · rw [index_eq, ← checksumInput_complete, ← entries]
    rfl
  · intro digest offset member
    rw [assigned] at member
    obtain ⟨data, cut, same⟩ := dynamicIndex_digest 0 s.data digest offset member
    rcases uploads.claimed live digest (same ▸ named data cut) with old | sent | ⟨w, sending⟩
    · exact Or.inl old
    · exact Or.inr sent
    · rw [all w] at sending
      rcases sending with ⟨job, same⟩ | same <;> cases same
  · by_contra refused
    rcases uploads.refused (by simpa using refused) with dead | ⟨w, sha, failing⟩
    · exact dead live
    · simp [all w] at failing

/-- However the walk's calls and the workers interleave and whatever uploads
fail, a closed dynamic index is the index of the whole stream. -/
theorem sealed_over_stream (chunkDigest sha256 : Bytes → Digest) (known : List Digest)
    (s : Pool chunkDigest) (index : ClosedIndex)
    (reached : Reachable (poolSystem chunkDigest sha256 known) s)
    (closed : s.phase = .sealed index) :
    ∃ chunks, SealedOver chunkDigest sha256 known s index chunks :=
  sealed_sound s index (pool_sound s reached) closed

/-- Three written bytes and a known chunk, with two workers taking part. -/
def shortStream : List (PoolAction (id : Bytes → Digest)) :=
  let reused : KnownChunk (id : Bytes → Digest) := ⟨[9], 1, [9], rfl, rfl⟩
  let turn := fun w => PoolAction.worker ⟨w % chunkUploadWorkers, Nat.mod_lt w (by decide)⟩ true
  [.call (.injectKnownChunk reused), .walk, .walk, .call (.handleData [1, 2, 3]), .walk, .walk,
    .call .eof, .walk, .walk, .walk, turn 3, turn 3, turn 3, .walk, turn 3, turn 3, turn 0, turn 1,
    turn 2, turn 4, turn 5, turn 6, turn 7, .walk, .walk, .walk, .walk]

theorem sealed_over_short_stream :
    ∃ s index chunks, s.phase = .sealed index ∧ s.stream = [9, 1, 2, 3] ∧
      SealedOver id id [[9]] s index chunks := by
  obtain ⟨s, executed⟩ : ∃ s, shortStream.foldlM (poolStep id) (Pool.init id [[9]]) = some s :=
    ⟨_, rfl⟩
  obtain ⟨index, closed⟩ : ∃ index, s.phase = .sealed index := by
    cases executed
    exact ⟨_, rfl⟩
  have stream : s.stream = [9, 1, 2, 3] := by
    cases executed
    rfl
  have reached : Reachable (poolSystem id id [[9]]) s :=
    ⟨_, shortStream, rfl, run_of_foldlM (poolStep id) (fun _ _ _ taken => taken) executed⟩
  obtain ⟨chunks, sealed⟩ := sealed_over_stream id id [[9]] s index reached closed
  exact ⟨s, index, chunks, closed, stream, sealed⟩

end ProxmoxBackup.DynamicIndex
