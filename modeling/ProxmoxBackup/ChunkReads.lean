import ProxmoxBackup.ChunkReader
import ProxmoxBackup.Slices

/-! What ReadAt returns: the stream of the chunks from an offset, in any interleaving of
readers and workers. -/

namespace ProxmoxBackup.ChunkReads

open ArchiveNames (Text)
open ChunkIndex GoValues Slices TransitionSystem
open ProxmoxBackup.ChunkReader

/-- Where each chunk ends in the stream. -/
def ends (n : Nat) : List Bytes → List Nat
  | [] => []
  | chunk :: rest => (n + chunk.length) :: ends (n + chunk.length) rest

/-- The chunks of a valid index. A digest lets through its own chunk only. -/
structure Archive (g : Setting) where
  chunks : List Bytes
  valid : g.idx.Valid
  offsets : g.idx.offsets = ends 0 chunks
  digests : ∀ (ci : Nat) (digest : Text) (chunk : Bytes), g.idx.digests[ci]? = some digest →
    g.ChunkMatchesDigest chunk digest = true → chunks[ci]? = some chunk

/-- The chunk that a failed read could not get. -/
def chunkOf : ReadError → Option Nat
  | .fetch _ ci _ => some ci
  | .size _ ci _ _ => some ci
  | .hash _ ci => some ci
  | _ => none

theorem ends_length (n : Nat) (chunks : List Bytes) : (ends n chunks).length = chunks.length := by
  induction chunks generalizing n with
  | nil => rfl
  | cons chunk rest ih => simp [ends, ih]

/-- A chunk's end, by what lies before it. -/
theorem ends_get (n i : Nat) (chunks : List Bytes) (inside : i < chunks.length) :
    (ends n chunks).getD i 0 = n + (chunks.take (i + 1)).flatten.length := by
  induction chunks generalizing n i with
  | nil => exact absurd inside (Nat.not_lt_zero i)
  | cons chunk rest ih =>
      cases i with
      | zero => simp [ends]
      | succ i =>
          have later := ih (n + chunk.length) i (by simpa using inside)
          rw [ends, List.getD_cons_succ, later]
          simp
          omega

section

variable {g : Setting} (a : Archive g)

def Archive.stream : Bytes := a.chunks.flatten

variable {a}

theorem total_stream : g.idx.total = a.stream.length := by
  rw [a.valid.total, a.offsets]
  by_cases none_ : a.chunks = []
  · unfold Archive.stream
    rw [none_]
    rfl
  · have some_ := List.length_pos_iff.mpr none_
    rw [ends_length, ends_get 0 _ _ (by omega), Nat.zero_add,
      show a.chunks.length - 1 + 1 = a.chunks.length by omega, List.take_length]
    rfl

/-- A chunk's range in the stream holds its bytes. -/
theorem chunk_in_stream {ci start stop : Nat} (place : g.idx.chunkRange ci = some (start, stop)) :
    ∃ chunk, a.chunks[ci]? = some chunk ∧ stop = start + chunk.length ∧
      a.stream = (a.chunks.take ci).flatten ++ (chunk ++ (a.chunks.drop (ci + 1)).flatten) ∧
      start = (a.chunks.take ci).flatten.length := by
  unfold didxIndex.chunkRange at place
  split at place
  · cases place
  · next stop' known =>
      cases place
      obtain ⟨inside, at_⟩ := List.getElem?_eq_some_iff.mp known
      have range : ci < a.chunks.length := by
        rw [a.offsets, ends_length] at inside
        exact inside
      have here := ends_get 0 ci a.chunks range
      rw [← a.offsets, List.getD_eq_getElem _ _ inside, at_, Nat.zero_add, List.take_add_one,
        List.getElem?_eq_getElem range] at here
      have first : (if ci > 0 then g.idx.offsets.getD (ci - 1) 0 else 0) =
          (a.chunks.take ci).flatten.length := by
        split
        · next later =>
            rw [a.offsets, ends_get 0 _ _ (by omega), Nat.zero_add, show ci - 1 + 1 = ci by omega]
        · next zero =>
            rw [show ci = 0 by omega]
            rfl
      refine ⟨a.chunks[ci], List.getElem?_eq_getElem range, ?_, ?_, first⟩
      · have last : ((some a.chunks[ci]).toList).flatten = a.chunks[ci] := by simp [Option.toList]
        rw [first, here, List.flatten_append, List.length_append, last]
      · unfold Archive.stream
        rw [← List.flatten_cons, ← List.drop_eq_getElem_cons range, ← List.flatten_append,
          List.take_append_drop]

/-- What is copied of a chunk is the stream's next bytes, at least one of them. -/
theorem copied_stream {off len : Nat} {p chunk : Bytes} {ci : Nat}
    (needed : g.idx.needed off len p.length = some ci) (known : a.chunks[ci]? = some chunk)
    (read : p = slice a.stream off p.length) :
    ∃ bytes, g.idx.copied off len p.length ci chunk = some bytes ∧ bytes ≠ [] ∧
      p ++ bytes = slice a.stream off (p ++ bytes).length ∧ (p ++ bytes).length ≤ len := by
  unfold didxIndex.needed at needed
  split at needed
  · next short =>
      split at needed
      · cases needed
      · next within =>
          cases needed
          obtain ⟨start, stop, place, low, high, bound, found⟩ :=
            a.valid.chunkIndexAt_spec (off + p.length) (by omega)
          obtain ⟨chunk', listed, width, parts, front⟩ := chunk_in_stream (a := a) place
          rw [known] at listed
          cases listed
          unfold didxIndex.copied
          rw [place]
          dsimp only
          rw [if_pos ⟨low, by omega⟩]
          generalize (a.chunks.take (g.idx.chunkIndexAt (off + p.length))).flatten = before at parts front
          generalize (a.chunks.drop (g.idx.chunkIndexAt (off + p.length) + 1)).flatten = behind at parts
          generalize from_ : off + p.length - start = inner
          have where_ : off + p.length = before.length + inner := by omega
          have size : ((chunk.drop inner).take (len - p.length)).length =
              min (len - p.length) (chunk.length - inner) := by simp
          have next : (chunk.drop inner).take (len - p.length) = slice a.stream (off + p.length)
              ((chunk.drop inner).take (len - p.length)).length := by
            rw [parts, where_, slice_append_right, slice_append_left _ _ _ _ (by rw [size]; omega), size]
            unfold slice
            rw [← List.length_drop]
            exact List.take_eq_take_min
          refine ⟨_, rfl, ?_, ?_, ?_⟩
          · intro none_
            have zero := congrArg List.length none_
            rw [size] at zero
            dsimp only [List.length_nil] at zero
            omega
          · rw [List.length_append]
            unfold slice at read next ⊢
            rw [List.take_add, List.drop_drop, ← next, ← read]
          · rw [List.length_append, size]
            omega
  · cases needed

/-- What fetchOnce lets through is the chunk of the stream. -/
theorem fetchOnce_chunk {got : Option Bytes} {ci : Nat} {chunk : Bytes}
    (fetched : g.idx.fetchOnce g.ChunkMatchesDigest got ci = .ok chunk) :
    a.chunks[ci]? = some chunk := by
  unfold didxIndex.fetchOnce at fetched
  split at fetched
  · cases fetched
  · next digest known =>
      split at fetched
      · cases fetched
      · split at fetched
        · cases fetched
        · split at fetched
          · cases fetched
          · split at fetched
            · cases fetched
            · next same =>
                cases fetched
                exact a.digests ci digest _ known (by simpa using same)

/-- Any other error of it names the chunk. -/
theorem fetchOnce_error {got : Option Bytes} {ci : Nat} {err : ReadError}
    (fetched : g.idx.fetchOnce g.ChunkMatchesDigest got ci = .error err) : chunkOf err = some ci := by
  unfold didxIndex.fetchOnce at fetched
  split at fetched
  · cases fetched
  · split at fetched
    · cases fetched
      rfl
    · split at fetched
      · cases fetched
      · split at fetched
        · cases fetched
          rfl
        · split at fetched
          · cases fetched
            rfl
          · cases fetched

end

/-! What ReadAt may return. -/

section

variable {g : Setting} (a : Archive g)

/-- The stream's bytes from the offset: all that were asked for; fewer at the end of
the stream, with io.EOF; or fewer because the read was cancelled or because the chunk
that comes next could not be had, with its error. -/
structure Returns (off : Int) (len : Nat) (p : Bytes) (err : Option ReadError) : Prop where
  bytes : p = slice a.stream off.toNat p.length
  most : p.length ≤ len
  full : err = none → 0 ≤ off ∧ p.length = len
  ended : err = some .eof → 0 ≤ off ∧ a.stream.length ≤ off.toNat + p.length
  failed : ∀ e, err = some e → e = .eof ∨ e = .cancelled ∨ e = .negativeOffset off ∧ off < 0 ∨
    ∃ ci, chunkOf e = some ci ∧ g.idx.needed off.toNat len p.length = some ci

/-- A read in progress. -/
def Reads (off len : Nat) (p : Bytes) (ci : Nat) : Prop :=
  p = slice a.stream off p.length ∧ p.length ≤ len ∧ g.idx.needed off len p.length = some ci

def Reads.of : Task → Nat → Prop
  | .worker, _ => True
  | .read off len p, ci => Reads a off len p ci

/-- A chunk or an error on its way to a reader. -/
def Brings (ci : Nat) : Except ReadError Bytes → Prop
  | .ok chunk => a.chunks[ci]? = some chunk
  | .error err => chunkOf err = some ci

def Carries (ci : Nat) : Pc → Prop
  | .storing _ chunk => a.chunks[ci]? = some chunk
  | .leaving _ result => Brings a ci result
  | .closing _ result => Brings a ci result
  | _ => True

/-- What holds of each thread. -/
def Sound : Thread → Prop
  | .idle => True
  | .busy task ci pc => ci < g.idx.digests.length ∧ Reads.of a task ci ∧ Carries a ci pc
  | .returned off len p err => Returns a off len p err
  | .panicked => False

structure Serves (s : State) : Prop where
  cached : ∀ e ∈ s.cache, a.chunks[e.1]? = some e.2
  sound : ∀ t, Sound a (s.thread t)

variable {a}

theorem returns_failed {off len : Nat} {p : Bytes} {ci : Nat} {err : ReadError}
    (reads : Reads a off len p ci) (named : chunkOf err = some ci) :
    Returns a off len p (some err) := by
  obtain ⟨bytes, most, needed⟩ := reads
  refine ⟨bytes, most, fun wrong => (by cases wrong), fun same => ?_, fun e same => ?_⟩
  · cases same
    cases named
  · cases same
    exact Or.inr (Or.inr (Or.inr ⟨ci, named, needed⟩))

/-- At the top of the loop: the next chunk is one of the stream's, or the read is over. -/
theorem proceed_sound {off len : Nat} {p : Bytes} (bytes : p = slice a.stream off p.length)
    (most : p.length ≤ len) : Sound a (proceed g off len p) := by
  unfold proceed
  split
  · next over_ =>
      refine ⟨bytes, most, fun none_ => ?_, fun ended => ?_, fun e same => ?_⟩
      · unfold didxIndex.atEnd at none_
        split at none_
        · cases none_
        · exact ⟨Int.natCast_nonneg off, by omega⟩
      · unfold didxIndex.atEnd at ended
        split at ended
        · next short =>
            unfold didxIndex.needed at over_
            rw [if_pos short] at over_
            split at over_
            · next past =>
                rw [total_stream (a := a)] at past
                exact ⟨Int.natCast_nonneg off, by simpa using past⟩
            · cases over_
        · cases ended
      · unfold didxIndex.atEnd at same
        split at same
        · cases same
          exact Or.inl rfl
        · cases same
  · next ci needed =>
      refine ⟨?_, ⟨bytes, most, needed⟩, trivial⟩
      unfold didxIndex.needed at needed
      split at needed
      · split at needed
        · cases needed
        · cases needed
          obtain ⟨_, _, _, _, _, _, found⟩ := a.valid.chunkIndexAt_spec (off + p.length) (by omega)
          rw [a.valid.digests]
          exact found
      · cases needed

theorem resume_sound {task : Task} {ci : Nat} {result : Except ReadError Bytes}
    (reads : Reads.of a task ci) (brings : Brings a ci result) :
    Sound a (resume g task ci result) := by
  cases task with
  | worker => trivial
  | read off len p =>
      cases result with
      | error err => exact returns_failed reads brings
      | ok chunk =>
          obtain ⟨bytes, most, needed⟩ := reads
          obtain ⟨more, copied, -, stream, short⟩ := copied_stream needed brings bytes
          simp only [resume, copied]
          exact proceed_sound stream short

theorem enter_sound (off : Int) (len : Nat) (cancelled : Bool) (small : g.idx.total < 2 ^ 63) :
    Sound a (enter g off len cancelled) := by
  have none_ : ([] : Bytes) = slice a.stream off.toNat ([] : Bytes).length := rfl
  unfold enter
  split
  · exact ⟨none_, Nat.zero_le len, fun wrong => (by cases wrong), fun wrong => (by cases wrong),
      fun e same => (by cases same; exact Or.inr (Or.inl rfl))⟩
  · split
    · next negative =>
        exact ⟨none_, Nat.zero_le len, fun wrong => (by cases wrong), fun wrong => (by cases wrong),
          fun e same => (by cases same; exact Or.inr (Or.inr (Or.inl ⟨rfl, negative⟩)))⟩
    · next positive =>
        split
        · next past =>
            rw [int64_same _ (by omega) (by omega), total_stream (a := a)] at past
            exact ⟨none_, Nat.zero_le len, fun wrong => (by cases wrong),
              fun _ => ⟨by omega, by simp only [List.length_nil]; omega⟩,
              fun e same => (by cases same; exact Or.inl rfl)⟩
        · exact proceed_sound (p := []) rfl (Nat.zero_le len)

/-- A step of one thread that ends soundly, over a cache that is still the stream's. -/
theorem serves_move {s next : State} (serves : Serves a s) (t : Nat) (th : Thread)
    (thread : next.thread = Function.update s.thread t th) (sound : Sound a th)
    (cached : ∀ e ∈ next.cache, a.chunks[e.1]? = some e.2) : Serves a next := by
  refine ⟨cached, fun u => ?_⟩
  rw [thread, Function.update_apply]
  split
  · exact sound
  · exact serves.sound u

theorem sound_busy {s : State} (serves : Serves a s) {t : Nat} {task : Task} {ci : Nat} {pc : Pc}
    (at_ : s.thread t = .busy task ci pc) :
    ci < g.idx.digests.length ∧ Reads.of a task ci ∧ Carries a ci pc := by
  have sound := serves.sound t
  rw [at_] at sound
  exact sound

theorem fetched_sound {own : Option Nat} {task : Task} {ci : Nat} {result : Except ReadError Bytes}
    (listed : ci < g.idx.digests.length) (reads : Reads.of a task ci) (brings : Brings a ci result) :
    Sound a (fetched g own task ci result) := by
  cases own with
  | none => exact resume_sound reads brings
  | some ch => exact ⟨listed, reads, brings⟩

theorem reply_sound {own : Option Nat} {task : Task} {ci : Nat} {got : Option Bytes}
    (listed : ci < g.idx.digests.length) (reads : Reads.of a task ci) :
    Sound a (reply g own task ci got) := by
  unfold reply
  split
  · next chunk ok => exact ⟨listed, reads, fetchOnce_chunk ok⟩
  · next err failed => exact fetched_sound listed reads (fetchOnce_error failed)
  · next panicked =>
      have placed : ci < g.idx.offsets.length := a.valid.digests ▸ listed
      exact absurd panicked (didxIndex.fetchOnce_no_panic listed
        (by rw [didxIndex.chunkRange, List.getElem?_eq_getElem placed]))

theorem serves_step {s next : State} {action : Action} (small : g.idx.total < 2 ^ 63)
    (serves : Serves a s) (does : Does g s action next) : Serves a next := by
  cases does with
  | readAt t off len cancelled at_ =>
      exact serves_move serves t _ rfl (enter_sound off len cancelled small) serves.cached
  | prefetch t ci at_ listed =>
      exact serves_move serves t _ rfl ⟨listed, trivial, trivial⟩ serves.cached
  | glance ci data cache found =>
      exact ⟨fun e member => serves.cached e ((Cache.get_some found).2 e member), serves.sound⟩
  | blank ci => exact serves
  | cancel t off len p ci at_ =>
      obtain ⟨-, ⟨bytes, most, needed⟩, -⟩ := sound_busy serves at_
      refine serves_move serves t _ rfl ⟨bytes, most, fun wrong => (by cases wrong),
        fun wrong => (by cases wrong), fun e same => ?_⟩ serves.cached
      cases same
      exact Or.inr (Or.inl rfl)
  | hit t task ci pc data cache at_ where_ found =>
      obtain ⟨-, reads, -⟩ := sound_busy serves at_
      obtain ⟨here, kept⟩ := Cache.get_some found
      exact serves_move serves t _ rfl (resume_sound reads (serves.cached _ here))
        fun e member => serves.cached e (kept e member)
  | miss t task ci at_ =>
      obtain ⟨listed, reads, -⟩ := sound_busy serves at_
      exact serves_move serves t _ rfl ⟨listed, reads, trivial⟩ serves.cached
  | locked t task ci at_ free missing =>
      obtain ⟨listed, reads, -⟩ := sound_busy serves at_
      exact serves_move serves t _ rfl ⟨listed, reads, trivial⟩ serves.cached
  | joined t task ci ch at_ running =>
      obtain ⟨listed, reads, -⟩ := sound_busy serves at_
      exact serves_move serves t _ rfl ⟨listed, reads, trivial⟩ serves.cached
  | opened t task ci at_ none_ =>
      obtain ⟨listed, reads, -⟩ := sound_busy serves at_
      exact serves_move serves t _ rfl ⟨listed, reads, trivial⟩ serves.cached
  | waited t task ci ch at_ =>
      obtain ⟨listed, reads, -⟩ := sound_busy serves at_
      exact serves_move serves t _ rfl ⟨listed, reads, trivial⟩ serves.cached
  | alone t task ci at_ missing =>
      obtain ⟨listed, reads, -⟩ := sound_busy serves at_
      exact serves_move serves t _ rfl ⟨listed, reads, trivial⟩ serves.cached
  | started t task ci own at_ =>
      obtain ⟨listed, reads, -⟩ := sound_busy serves at_
      exact serves_move serves t _ rfl ⟨listed, reads, trivial⟩ serves.cached
  | stored t task ci own chunk at_ =>
      obtain ⟨listed, reads, carries⟩ := sound_busy serves at_
      refine serves_move serves t _ rfl (fetched_sound listed reads carries) fun e member => ?_
      rcases Cache.mem_put e member with same | member
      · rw [same]
        exact carries
      · exact serves.cached e member
  | left t task ci ch result at_ free =>
      obtain ⟨listed, reads, carries⟩ := sound_busy serves at_
      exact serves_move serves t _ rfl ⟨listed, reads, carries⟩ serves.cached
  | closed t task ci ch result at_ =>
      obtain ⟨-, reads, carries⟩ := sound_busy serves at_
      exact serves_move serves t _ rfl (resume_sound reads carries) serves.cached
  | replied t got task ci own at_ =>
      obtain ⟨listed, reads, -⟩ := sound_busy serves at_
      exact serves_move serves t _ rfl (reply_sound listed reads) serves.cached

theorem serves_reachable {s : State} (small : g.idx.total < 2 ^ 63) (reached : Reachable (reader g) s) :
    Serves a s := by
  have invariant : Invariant (reader g) (Serves a) := by
    constructor
    · intro s start
      rw [show s = fresh from start]
      exact ⟨fun e member => absurd member List.not_mem_nil, fun _ => trivial⟩
    · exact fun s action next serves taken => serves_step small serves (step_does taken)
  exact invariant.reachable reached

/-! The loop on its own, for whatever chunkAt comes to from turn to turn. -/

/-- The chunk, an error that names it, or the error of a cancelled read. -/
def ChunkResult (a : Archive g) (ci : Nat) : Outcome ReadError Bytes → Prop
  | .ok chunk => a.chunks[ci]? = some chunk
  | .error err => err = .cancelled ∨ chunkOf err = some ci
  | .panicked => False

/-- Every turn brings a byte, so that the loop ends; and with every chunk brought it
ends with the bytes or with the end of the stream. -/
theorem readLoop_returns (chunkAt : Nat → Nat → Outcome ReadError Bytes)
    (results : ∀ turn ci, ci < g.idx.digests.length → ChunkResult a ci (chunkAt turn ci))
    (off len fuel : Nat) (p : Bytes) (bytes : p = slice a.stream off p.length) (most : p.length ≤ len)
    (enough : len < fuel + p.length) :
    ∃ p' err, g.idx.readLoop chunkAt off len fuel p = some (.ok (p', err)) ∧ Returns a off len p' err ∧
      ((∀ turn ci, ∃ chunk, chunkAt turn ci = .ok chunk) → err = none ∨ err = some .eof) := by
  induction fuel generalizing p with
  | zero => omega
  | succ fuel ih =>
      have sound := proceed_sound bytes most
      unfold proceed at sound
      rw [didxIndex.readLoop]
      cases needed : g.idx.needed off len p.length with
      | none =>
          rw [needed] at sound
          refine ⟨p, _, rfl, sound, fun _ => ?_⟩
          unfold didxIndex.atEnd
          split
          · exact Or.inr rfl
          · exact Or.inl rfl
      | some ci =>
          rw [needed] at sound
          obtain ⟨listed, reads, -⟩ := sound
          have result := results fuel ci listed
          dsimp only
          cases came : chunkAt fuel ci with
          | panicked =>
              rw [came] at result
              exact result.elim
          | error err =>
              rw [came] at result
              refine ⟨p, some err, rfl, ?_, fun brought => ?_⟩
              · rcases result with rfl | named
                · exact ⟨bytes, most, fun wrong => (by cases wrong), fun wrong => (by cases wrong),
                    fun e same => (by cases same; exact Or.inr (Or.inl rfl))⟩
                · exact returns_failed reads named
              · obtain ⟨chunk, ok⟩ := brought fuel ci
                rw [came] at ok
                cases ok
          | ok chunk =>
              rw [came] at result
              obtain ⟨more, copied, some_, stream, short⟩ := copied_stream needed result bytes
              have longer := List.length_pos_iff.mpr some_
              dsimp only
              rw [copied]
              exact ih (p ++ more) stream short (by rw [List.length_append]; omega)

end

/-! Two chunks of two bytes and one. -/

def threeBytes : Setting where
  idx := ⟨[2, 3], ["ab".toList, "cd".toList], 3⟩
  cap := 1
  ChunkMatchesDigest := fun chunk digest =>
    chunk = [7, 8] ∧ digest = "ab".toList ∨ chunk = [9] ∧ digest = "cd".toList

def threeBytesArchive : Archive threeBytes where
  chunks := [[7, 8], [9]]
  valid := ⟨by decide, rfl, rfl, by decide⟩
  offsets := rfl
  digests := by
    intro ci digest chunk known matches_
    have which := of_decide_eq_true matches_
    match ci with
    | 0 =>
        cases known
        rcases which with ⟨rfl, -⟩ | ⟨-, wrong⟩
        · rfl
        · exact absurd wrong (by decide)
    | 1 =>
        cases known
        rcases which with ⟨-, wrong⟩ | ⟨rfl, -⟩
        · exact absurd wrong (by decide)
        · rfl
    | n + 2 => cases known

/-- A read over both chunks, from the second byte on and past the end. -/
def readAcross : List Action :=
  [.readAt 0 1 5 false, .turn 0, .turn 0, .turn 0, .turn 0, .reply 0 (some [7, 8]), .turn 0, .turn 0,
    .turn 0, .turn 0, .turn 0, .turn 0, .turn 0, .reply 0 (some [9]), .turn 0, .turn 0, .turn 0]

/-- A chunk that cannot be fetched. -/
def readFailed : List Action :=
  [.readAt 0 0 3 false, .turn 0, .turn 0, .turn 0, .turn 0, .reply 0 (some [7, 8]), .turn 0, .turn 0,
    .turn 0, .turn 0, .turn 0, .turn 0, .turn 0, .reply 0 none, .turn 0, .turn 0]

/-- One chunk of 2^63 bytes. -/
def beyondInt64 : Setting where
  idx := ⟨[2 ^ 63], ["ab".toList], 2 ^ 63⟩
  cap := 1
  ChunkMatchesDigest := fun chunk _ => chunk = List.replicate (2 ^ 63) 0

theorem beyondInt64_valid : beyondInt64.idx.Valid := by
  constructor
  · decide
  · rfl
  · rfl
  · decide

theorem beyondInt64_ends : beyondInt64.idx.offsets = ends 0 [List.replicate (2 ^ 63) 0] := by
  rw [ends, ends, List.length_replicate, Nat.zero_add]
  rfl

theorem beyondInt64_digests (ci : Nat) (digest : Text) (chunk : Bytes)
    (known : beyondInt64.idx.digests[ci]? = some digest)
    (matches_ : beyondInt64.ChunkMatchesDigest chunk digest = true) :
    [List.replicate (2 ^ 63) (0 : UInt8)][ci]? = some chunk := by
  have same : chunk = List.replicate (2 ^ 63) 0 := of_decide_eq_true matches_
  cases ci with
  | zero => exact congrArg some same.symm
  | succ ci => cases known

def beyondInt64Archive : Archive beyondInt64 :=
  ⟨[List.replicate (2 ^ 63) 0], beyondInt64_valid, beyondInt64_ends, beyondInt64_digests⟩

theorem beyondInt64_enter : enter beyondInt64 0 3 false = .returned 0 3 [] (some .eof) := by
  unfold enter
  rw [if_neg Bool.false_ne_true, if_neg (by decide), if_pos (by decide)]

end ProxmoxBackup.ChunkReads
