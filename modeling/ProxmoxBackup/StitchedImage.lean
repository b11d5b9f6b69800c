import ProxmoxBackup.ResilientCopies

/-! The image that copySegments sends: blocks of 4 MiB, and behind each place of the disk the
byte of its segment's source, or zero where the segment is left out, its cluster free, its
place noted as unreadable, or its source at an end. -/
namespace ProxmoxBackup.StitchedImage

open DiskReads (Bytes ReaderAt Reported)
open DiskSegments (diskSegment)
open Tiling (Tiles)
open UsedMap (usedMap PBS_FIXED_CHUNK_SIZE)
open CopySegments ResilientCopies

/-! The blocks. -/

/-- What was given to emit and emitZeros. -/
def Sink.all (s : Sink) : Bytes := s.sent.flatten ++ s.buffer

/-- All blocks sent are full, and what is left does not fill one. -/
def Blocks (s : Sink) : Prop :=
  (∀ b ∈ s.sent, b.length = PBS_FIXED_CHUNK_SIZE) ∧ s.buffer.length < PBS_FIXED_CHUNK_SIZE

section

variable {stops : Stops}

theorem sendChunk_some {chunk : Bytes} {s s' : Sink} (some_ : 0 < chunk.length)
    (ran : sendChunk stops chunk s = some s') : s' = { s with sent := s.sent ++ [chunk] } := by
  unfold sendChunk at ran
  rw [if_neg (Nat.ne_of_gt some_)] at ran
  split at ran
  · cases ran
  · cases ran
    rfl

theorem sendFull_spec {buffer : Bytes} {s s' : Sink} (ran : sendFull stops buffer s = some s')
    (full : ∀ b ∈ s.sent, b.length = PBS_FIXED_CHUNK_SIZE) :
    Blocks s' ∧ Sink.all s' = s.sent.flatten ++ buffer ∧ s'.unreadable = s.unreadable := by
  fun_induction sendFull stops buffer s with
  | case1 buffer s whole ih =>
      obtain ⟨next, sent, ran⟩ := Option.bind_eq_some_iff.mp ran
      have length : (buffer.take PBS_FIXED_CHUNK_SIZE).length = PBS_FIXED_CHUNK_SIZE := by
        rw [List.length_take, Nat.min_eq_left whole]
      have positive : 0 < PBS_FIXED_CHUNK_SIZE := by decide
      obtain rfl := sendChunk_some (by omega) sent
      obtain ⟨blocks, all, noted⟩ := ih _ ran fun b among => by
        rcases List.mem_append.mp among with old | new
        · exact full b old
        · rw [List.mem_singleton.mp new, length]
      refine ⟨blocks, ?_, noted⟩
      rw [all]
      simp [List.append_assoc]
  | case2 buffer s short =>
      cases ran
      exact ⟨⟨full, Nat.lt_of_not_le short⟩, rfl, rfl⟩

theorem emit_spec {data : Bytes} {s s' : Sink} (blocks : Blocks s) (ran : emit stops data s = some s') :
    Blocks s' ∧ Sink.all s' = Sink.all s ++ data ∧ s'.unreadable = s.unreadable := by
  obtain ⟨next, full, ran⟩ := Option.bind_eq_some_iff.mp ran
  obtain ⟨blocks', all, noted⟩ := sendFull_spec full blocks.1
  split at ran
  · cases ran
  · cases ran
    refine ⟨blocks', ?_, noted⟩
    rw [Sink.all, Sink.all, List.append_assoc]
    exact all

theorem emitZeros_spec {n : Nat} {s s' : Sink} (blocks : Blocks s)
    (ran : emitZeros stops n s = some s') :
    Blocks s' ∧ Sink.all s' = Sink.all s ++ List.replicate n 0 ∧ s'.unreadable = s.unreadable := by
  fun_induction emitZeros stops n s with
  | case1 n s more m ih =>
      obtain ⟨next, first, ran⟩ := Option.bind_eq_some_iff.mp ran
      obtain ⟨blocks', all, noted⟩ := emit_spec blocks first
      obtain ⟨blocks'', all', noted'⟩ := ih next blocks' ran
      refine ⟨blocks'', ?_, noted'.trans noted⟩
      have parts : m + (n - m) = n := Nat.add_sub_cancel' (Nat.min_le_right _ _)
      rw [all', all, List.append_assoc, List.replicate_append_replicate, parts]
  | case2 n s none_ =>
      cases ran
      have zero : n = 0 := Nat.eq_zero_of_not_pos none_
      subst zero
      exact ⟨blocks, (List.append_nil _).symm, rfl⟩

/-- The last block may be short. -/
theorem flush_spec {s s' : Sink} (blocks : Blocks s) (ran : flush stops s.buffer s = some s') :
    (∀ b ∈ s'.sent.dropLast, b.length = PBS_FIXED_CHUNK_SIZE) ∧
      (∀ b ∈ s'.sent, 0 < b.length ∧ b.length ≤ PBS_FIXED_CHUNK_SIZE) ∧
      s'.sent.flatten = Sink.all s ∧ s'.unreadable = s.unreadable := by
  have positive : 0 < PBS_FIXED_CHUNK_SIZE := by decide
  obtain ⟨full, short⟩ := blocks
  unfold flush at ran
  split at ran
  · next some_ =>
      rw [Nat.min_eq_right (Nat.le_of_lt short)] at ran
      dsimp only at ran
      rw [List.take_length, List.drop_length] at ran
      obtain ⟨next, sent, ran⟩ := Option.bind_eq_some_iff.mp ran
      obtain rfl := sendChunk_some some_ sent
      unfold flush at ran
      cases ran
      refine ⟨?_, ?_, ?_, rfl⟩
      · dsimp only
        rw [List.dropLast_concat]
        exact full
      · intro b among
        rcases List.mem_append.mp among with old | new
        · have length := full b old
          omega
        · rw [List.mem_singleton.mp new]
          omega
      · simp [Sink.all]
  · next none_ =>
      cases ran
      have empty : s.buffer = [] := List.length_eq_zero_iff.mp (Nat.eq_zero_of_not_pos none_)
      refine ⟨fun b among => full b ((List.dropLast_sublist _).subset among), fun b among => ?_, ?_, rfl⟩
      · have length := full b among
        omega
      · rw [Sink.all, empty, List.append_nil]

end

/-! Free clusters. -/

/-- A place of a volume is in a cluster that the map calls free. -/
def Free (used : usedMap) (i : Nat) : Prop :=
  i / used.clusterSize < used.clusters ∧ used.used (i / used.clusterSize) = false

instance (used : usedMap) (i : Nat) : Decidable (Free used i) := by
  unfold Free
  infer_instance

/-- Data from `off` with the free clusters zeroed. -/
def mask (used : usedMap) (off : Nat) (data : Bytes) : Bytes :=
  data.mapIdx fun i b => if Free used (off + i) then 0 else b

theorem zeroFree_eq (used : usedMap) (data : Bytes) (off : Nat) :
    used.zeroFree data off = mask used off data := by
  apply List.ext_getElem?
  intro i
  unfold mask
  rw [List.getElem?_mapIdx]
  by_cases inside : i < data.length
  · have low : off / used.clusterSize ≤ (off + i) / used.clusterSize :=
      Nat.div_le_div_right (Nat.le_add_right off i)
    rw [usedMap.zeroFree, used.zeroFrom_get off _ data (Nat.le_refl _) i inside,
      List.getElem?_eq_getElem inside, Option.map_some]
    by_cases free : Free used (off + i)
    · rw [if_pos ⟨low, free⟩, if_pos free]
    · rw [if_neg fun both => free both.2, if_neg free]
  · rw [List.getElem?_eq_none (Nat.le_of_not_lt inside), Option.map_none]
    apply List.getElem?_eq_none
    rw [usedMap.zeroFree, used.zeroFrom_length]
    exact Nat.le_of_not_lt inside

theorem mask_append (used : usedMap) (off : Nat) (a b : Bytes) :
    mask used off (a ++ b) = mask used off a ++ mask used (off + a.length) b := by
  unfold mask
  rw [List.mapIdx_append]
  simp only [Nat.add_left_comm, Nat.add_comm]

theorem mask_zeros (used : usedMap) (off n : Nat) :
    mask used off (List.replicate n 0) = List.replicate n 0 := by
  apply List.ext_getElem?
  intro i
  unfold mask
  rw [List.getElem?_mapIdx, List.getElem?_replicate]
  split <;> simp

/-! A segment. -/

def FreeAt (p : Prepared) (i : Nat) : Prop := ∃ used, p.used = some used ∧ Free used i

/-- What a read segment has at a place of the disk. -/
def segmentLaw (p : Prepared) : Law := fun told i b =>
  (FreeAt p (i - p.seg.start) ∨ told → b = 0) ∧
    (¬ FreeAt p (i - p.seg.start) → ¬ told →
      b = p.src.bytes.getD (p.srcOff + (i - p.seg.start)) 0)

/-- Ranges of the source are noted as ranges of the disk. -/
def onDisk (p : Prepared) (r : Nat × Nat) : Nat × Nat := (p.seg.start + (r.1 - p.srcOff), r.2)

theorem reported_onDisk {p : Prepared} {bad : List (Nat × Nat)} {w i : Nat}
    (behind : ∀ r ∈ bad, p.srcOff + w ≤ r.1) :
    Reported (bad.map (onDisk p)) (p.seg.start + i) ↔ Reported bad (p.srcOff + i) := by
  unfold Reported
  constructor
  · rintro ⟨_, among, low, high⟩
    obtain ⟨r, listed, rfl⟩ := List.mem_map.mp among
    have begins := behind r listed
    unfold onDisk at low high
    dsimp only at low high
    exact ⟨r, listed, by omega, by omega⟩
  · rintro ⟨r, listed, low, high⟩
    have begins := behind r listed
    refine ⟨_, List.mem_map.mpr ⟨r, listed, rfl⟩, ?_, ?_⟩
    · unfold onDisk
      dsimp only
      omega
    · unfold onDisk
      dsimp only
      omega

/-- A part of the source as it goes into the image, masked or not. -/
theorem shown_written {p : Prepared} {w : Nat} {out shown : Bytes} {bad : List (Nat × Nat)}
    (written : Written (sourceLaw p.src.bytes) (p.srcOff + w) out bad)
    (length : shown.length = out.length)
    (masks : ∀ j b, shown[j]? = some b →
      (FreeAt p (w + j) ∧ b = 0) ∨ (¬ FreeAt p (w + j) ∧ out[j]? = some b)) :
    Written (segmentLaw p) (p.seg.start + w) shown (bad.map (onDisk p)) where
  bytes j b here := by
    have reported : Reported (bad.map (onDisk p)) (p.seg.start + w + j) ↔
        Reported bad (p.srcOff + w + j) := by
      rw [Nat.add_assoc, Nat.add_assoc]
      exact reported_onDisk fun r among => (written.inside r among).1
    have place : p.seg.start + w + j - p.seg.start = w + j := by omega
    unfold segmentLaw
    rw [place, reported]
    rcases masks j b here with ⟨free, zero⟩ | ⟨kept, same⟩
    · exact ⟨fun _ => zero, fun other => absurd free other⟩
    · obtain ⟨told, read⟩ := written.bytes j b same
      rw [← Nat.add_assoc]
      exact ⟨fun either => told (either.resolve_left kept), fun _ => read⟩
  inside r among := by
    obtain ⟨r, listed, rfl⟩ := List.mem_map.mp among
    have bounds := written.inside r listed
    unfold onDisk
    dsimp only
    omega

/-- What the sink has taken since `s`, of the image's bytes and of ranges. -/
def Took (s s' : Sink) (out : Bytes) (noted : List (Nat × Nat)) : Prop :=
  Blocks s' ∧ Sink.all s' = Sink.all s ++ out ∧ s'.unreadable = s.unreadable ++ noted

section

variable {stops : Stops} {p : Prepared}

theorem Took.start {s : Sink} (blocks : Blocks s) : Took s s [] [] :=
  ⟨blocks, (List.append_nil _).symm, (List.append_nil _).symm⟩

theorem Took.emit {s t u : Sink} {out data : Bytes} {noted : List (Nat × Nat)}
    (took : Took s t out noted) (ran : CopySegments.emit stops data t = some u) : Took s u (out ++ data) noted := by
  obtain ⟨blocks, all, unreadable⟩ := took
  obtain ⟨blocks', all', same⟩ := emit_spec blocks ran
  exact ⟨blocks', by rw [all', all, List.append_assoc], same.trans unreadable⟩

theorem Took.zeros {s t u : Sink} {out : Bytes} {noted : List (Nat × Nat)} {n : Nat}
    (took : Took s t out noted) (ran : emitZeros stops n t = some u) : Took s u (out ++ List.replicate n 0) noted := by
  obtain ⟨blocks, all, unreadable⟩ := took
  obtain ⟨blocks', all', same⟩ := emitZeros_spec blocks ran
  exact ⟨blocks', by rw [all', all, List.append_assoc], same.trans unreadable⟩

theorem Took.note {s t : Sink} {out : Bytes} {bad : List (Nat × Nat)} {off n : Nat}
    (took : Took s t out (bad.map (onDisk p))) :
    Took s (p.onBad off n t) out ((bad ++ [(off, n)]).map (onDisk p)) := by
  obtain ⟨blocks, all, unreadable⟩ := took
  refine ⟨blocks, all, ?_⟩
  rw [Prepared.onBad, unreadable, List.map_append, List.append_assoc]
  rfl

theorem Took.trans {s t u : Sink} {out more : Bytes} {noted further : List (Nat × Nat)}
    (first : Took s t out noted) (second : Took t u more further) :
    Took s u (out ++ more) (noted ++ further) := by
  refine ⟨second.1, ?_, ?_⟩
  · rw [second.2.1, first.2.1, List.append_assoc]
  · rw [second.2.2, first.2.2, List.append_assoc]

theorem Took.readMore {s t : Sink} {out : Bytes} {noted : List (Nat × Nat)} (took : Took s t out noted)
    (calls : Nat) : Took s (t.readMore calls) out noted := took

theorem asRead_carries (s : Sink) : Carries (asRead stops p) fun t out bad =>
    Took s t out (bad.map (onDisk p)) where
  emit := fun took ran => took.emit ran
  zeros := fun took ran => took.zeros ran
  bad := fun took => took.note

theorem masked_carries (used : usedMap) (s : Sink) (w : Nat) : Carries (masked stops p used)
    fun t out bad => t.at_ = w + out.length ∧ Took s t.sink (mask used w out) (bad.map (onDisk p)) where
  emit := by
    rintro t t' out bad data ⟨place, took⟩ ran
    obtain ⟨sink, emitted, rfl⟩ := Option.map_eq_some_iff.mp ran
    rw [zeroFree_eq, place] at emitted
    refine ⟨?_, ?_⟩
    · dsimp only
      rw [place, List.length_append, Nat.add_assoc]
    · rw [mask_append]
      exact took.emit emitted
  zeros := by
    rintro t t' out bad n ⟨place, took⟩ ran
    obtain ⟨sink, emitted, rfl⟩ := Option.map_eq_some_iff.mp ran
    refine ⟨?_, ?_⟩
    · dsimp only
      rw [place, List.length_append, List.length_replicate, Nat.add_assoc]
    · rw [mask_append, mask_zeros]
      exact took.zeros emitted
  bad := fun ⟨place, took⟩ => ⟨place, took.note⟩

end

/-! The windows of a segment. -/

/-- A window without a used cluster lies in free ones. -/
theorem free_of_unused {used : usedMap} {w n j : Nat} (none_ : used.anyUsed w n = false)
    (inside : j < n) :
    Free used (w + j) := by
  obtain ⟨within, free⟩ := used.anyUsed_false none_
  unfold usedMap.lastCluster at within free
  have same : (w : Int) + n - 1 = ((w + n - 1 : Nat) : Int) := by omega
  rw [same] at within free
  have low : w / used.clusterSize ≤ (w + j) / used.clusterSize :=
    Nat.div_le_div_right (Nat.le_add_right w j)
  have high : (w + j) / used.clusterSize ≤ (w + n - 1) / used.clusterSize :=
    Nat.div_le_div_right (by omega)
  have last : (((w + n - 1 : Nat) : Int)).tdiv used.clusterSize = ((w + n - 1) / used.clusterSize : Nat) :=
    rfl
  rw [last] at within free
  exact ⟨by omega, free _ low (Int.ofNat_le.mpr high)⟩

theorem later_reads (src : ReaderAt) (s : Sink) (k : Nat) : ∃ k', later src s k = src.ReadAt k' :=
  ⟨s.reads + k, rfl⟩

/-- `out` of the image, from a place of the segment on. -/
def Copied (p : Prepared) (w : Nat) (s s' : Sink) (n : Nat) : Prop :=
  ∃ out noted, Took s s' out noted ∧ out.length = n ∧ Written (segmentLaw p) (p.seg.start + w) out noted

section

variable {stops : Stops} {p : Prepared}

theorem Copied.trans {w n m : Nat} {s t u : Sink} (first : Copied p w s t n)
    (second : Copied p (w + n) t u m) : Copied p w s u (n + m) := by
  obtain ⟨out, noted, took, length, written⟩ := first
  obtain ⟨more, further, took', length', written'⟩ := second
  refine ⟨out ++ more, noted ++ further, took.trans took', ?_, written.append ?_⟩
  · rw [List.length_append, length, length']
  · rw [length, Nat.add_assoc]
    exact written'

theorem copyWindow_copied {used : usedMap} (map : p.used = some used) {w n : Nat} {s s' : Sink}
    (blocks : Blocks s) (ran : copyWindow stops p used w n s = .ok s') : Copied p w s s' n := by
  have freeAt (i : Nat) : FreeAt p i ↔ Free used i := by
    unfold FreeAt
    rw [map]
    exact ⟨fun ⟨_, same, free⟩ => Option.some.inj same ▸ free, fun free => ⟨used, rfl, free⟩⟩
  unfold copyWindow at ran
  split at ran
  · obtain ⟨done, read, ran⟩ := GoValues.bind_ok ran
    cases ran
    have along : Along p.src (fun (t : Masked) out bad => t.at_ = w + out.length ∧
        Took s t.sink (mask used w out) (bad.map (onDisk p))) (p.srcOff + w) n ⟨0, 0, ⟨w, s⟩⟩ :=
      ⟨Nat.zero_le n, [], [], ⟨rfl, Took.start blocks⟩, rfl, Written.nil _ _⟩
    obtain ⟨⟨_, out, bad, ⟨_, took⟩, size, written⟩, whole⟩ :=
      readResilient_along (masked_carries used s w) (later_reads p.src s) along read
    have length : (mask used w out).length = out.length := List.length_mapIdx
    refine ⟨_, _, took.readMore done.calls, length.trans (size.trans whole), ?_⟩
    refine shown_written written length ?_
    intro j b here
    unfold mask at here
    rw [List.getElem?_mapIdx] at here
    obtain ⟨c, read, rfl⟩ := Option.map_eq_some_iff.mp here
    rw [freeAt]
    split
    · next free => exact .inl ⟨free, rfl⟩
    · next kept => exact .inr ⟨kept, read⟩
  · next none_ =>
      have zeros := emitted_ok ran
      refine ⟨_, _, (Took.start blocks).zeros zeros, List.length_replicate, ?_⟩
      refine Written.plain fun j b here => ?_
      rw [List.nil_append, List.getElem?_replicate] at here
      split at here
      · next inside =>
          cases here
          have free := free_of_unused (Bool.eq_false_iff.mpr none_) inside
          have place : p.seg.start + w + j - p.seg.start = w + j := by omega
          refine ⟨fun _ => rfl, fun kept => absurd ?_ kept⟩
          rw [place, freeAt]
          exact free
      · cases here

theorem copyWindows_copied {used : usedMap} (map : p.used = some used) {length w : Nat} {s s' : Sink}
    (blocks : Blocks s) (ran : copyWindows stops p used length w s = .ok s') :
    Copied p w s s' (length - w) := by
  fun_induction copyWindows stops p used length w s with
  | case1 w s more ih =>
      obtain ⟨next, window, ran⟩ := GoValues.bind_ok ran
      have first := copyWindow_copied map blocks window
      have rest := ih next first.choose_spec.choose_spec.1.1 ran
      rcases Nat.le_total PBS_FIXED_CHUNK_SIZE (length - w) with full | last
      · rw [Nat.min_eq_left full] at first
        have whole := first.trans rest
        have parts : PBS_FIXED_CHUNK_SIZE + (length - (w + PBS_FIXED_CHUNK_SIZE)) = length - w := by omega
        rw [parts] at whole
        exact whole
      · rw [Nat.min_eq_right last] at first
        rw [copyWindows, if_neg (by omega)] at ran
        cases ran
        exact first
  | case2 w s done =>
      cases ran
      rw [Nat.sub_eq_zero_of_le (Nat.le_of_not_lt done)]
      exact ⟨[], [], Took.start blocks, rfl, Written.nil _ _⟩

theorem readSegment_copied {length : Nat} {s s' : Sink} (blocks : Blocks s)
    (ran : readSegment stops p length s = .ok s') : Copied p 0 s s' length := by
  unfold readSegment at ran
  split at ran
  · next map =>
      obtain ⟨done, read, ran⟩ := GoValues.bind_ok ran
      cases ran
      have along : Along p.src (fun t out bad => Took s t out (bad.map (onDisk p))) p.srcOff length
          ⟨0, 0, s⟩ := ⟨Nat.zero_le length, [], [], Took.start blocks, rfl, Written.nil _ _⟩
      obtain ⟨⟨_, out, bad, took, size, written⟩, whole⟩ :=
        readResilient_along (asRead_carries s) (later_reads p.src s) along read
      refine ⟨out, _, took.readMore done.calls, size.trans whole, ?_⟩
      refine shown_written written rfl fun j b here => .inr ⟨?_, here⟩
      rintro ⟨used, same, _⟩
      rw [map] at same
      cases same
  · next used map => exact copyWindows_copied map blocks ran

end

theorem leaveOut_took {stops : Stops} {length w : Nat} {s s' : Sink} (blocks : Blocks s)
    (ran : leaveOut stops length w s = some s') : Took s s' (List.replicate (length - w) 0) [] := by
  fun_induction leaveOut stops length w s with
  | case1 w s more ih =>
      obtain ⟨next, zeros, ran⟩ := Option.bind_eq_some_iff.mp ran
      have first := (Took.start blocks).zeros zeros
      have whole := first.trans (ih next first.1 ran)
      rw [List.nil_append, List.replicate_append_replicate] at whole
      have parts : min PBS_FIXED_CHUNK_SIZE (length - w) + (length - (w + PBS_FIXED_CHUNK_SIZE)) =
          length - w := by omega
      rw [parts] at whole
      exact whole
  | case2 w s done =>
      cases ran
      rw [Nat.sub_eq_zero_of_le (Nat.le_of_not_lt done)]
      exact Took.start blocks

/-! The disk. -/

section

variable (disk : ReaderAt) (openSnap : diskSegment → Option ReaderAt)
  (segmentUsedMap : diskSegment → Option usedMap)

/-- The free-space map a segment is copied with. -/
def mapOf (seg : diskSegment) : Option usedMap :=
  if seg.snapDev ≠ "" ∨ seg.rawFS = true then segmentUsedMap seg else none

/-- The byte of the snapshot or of the disk, whichever the segment names; zero behind its end. -/
def sourceByte (seg : diskSegment) (i : Nat) : UInt8 :=
  if seg.snapDev ≠ "" then ((openSnap seg).map fun sf => sf.bytes.getD (i - seg.start) 0).getD 0
  else disk.bytes.getD i 0

/-- What the image has at a place of a segment. -/
structure Stitch (unreadable : List (Nat × Nat)) (seg : diskSegment) (i : Nat) (b : UInt8) : Prop where
  zero : seg.skip = true ∨ (∃ used, mapOf segmentUsedMap seg = some used ∧ Free used (i - seg.start)) ∨
    Reported unreadable i → b = 0
  source : seg.skip = false →
    (¬ ∃ used, mapOf segmentUsedMap seg = some used ∧ Free used (i - seg.start)) →
      ¬ Reported unreadable i → b = sourceByte disk openSnap seg i

/-- What was prepared for a segment. -/
structure Fits (p : Prepared) : Prop where
  used : p.seg.skip = false → p.used = mapOf segmentUsedMap p.seg
  source : p.seg.skip = false → ∀ i, p.seg.start ≤ i →
    p.src.bytes.getD (p.srcOff + (i - p.seg.start)) 0 = sourceByte disk openSnap p.seg i

variable {disk openSnap segmentUsedMap}

theorem prepare_fits {segments : List diskSegment} {prepared : List Prepared}
    (ran : prepare disk openSnap segmentUsedMap segments = .ok prepared) :
    prepared.map Prepared.seg = segments ∧ ∀ p ∈ prepared, Fits disk openSnap segmentUsedMap p := by
  induction segments generalizing prepared with
  | nil =>
      cases ran
      exact ⟨rfl, fun _ none_ => by cases none_⟩
  | cons seg rest ih =>
      rw [prepare] at ran
      split at ran
      · next skip =>
          obtain ⟨more, later_, ran⟩ := GoValues.bind_ok ran
          cases ran
          obtain ⟨same, fits⟩ := ih later_
          refine ⟨by rw [List.map_cons, same], List.forall_mem_cons.mpr ⟨⟨?_, ?_⟩, fits⟩⟩
          · exact fun kept => absurd (skip.symm.trans kept) (by decide)
          · exact fun kept => absurd (skip.symm.trans kept) (by decide)
      · split at ran
        · next snap =>
            split at ran
            · cases ran
            · next sf opened =>
                obtain ⟨more, later_, ran⟩ := GoValues.bind_ok ran
                cases ran
                obtain ⟨same, fits⟩ := ih later_
                refine ⟨by rw [List.map_cons, same], ?_⟩
                refine List.forall_mem_cons.mpr ⟨⟨fun _ => ?_, fun _ i _ => ?_⟩, fits⟩
                · rw [mapOf, if_pos (.inl snap)]
                · rw [Prepared.srcOff, if_pos snap, sourceByte, if_pos snap, opened, Nat.zero_add]
                  rfl
        · next raw =>
            obtain ⟨more, later_, ran⟩ := GoValues.bind_ok ran
            cases ran
            obtain ⟨same, fits⟩ := ih later_
            refine ⟨by rw [List.map_cons, same], ?_⟩
            refine List.forall_mem_cons.mpr ⟨⟨fun _ => ?_, fun _ i low => ?_⟩, fits⟩
            · have plain : (seg.snapDev ≠ "" ∨ seg.rawFS = true) ↔ seg.rawFS = true := or_iff_right raw
              simp only [mapOf, plain]
            · dsimp only at low
              rw [Prepared.srcOff, if_neg raw, sourceByte, if_neg raw, Nat.add_sub_cancel' low]

/-- What the segments copied so far have, told what was noted. -/
def diskLaw (disk : ReaderAt) (openSnap : diskSegment → Option ReaderAt)
    (segmentUsedMap : diskSegment → Option usedMap) (segments : List diskSegment) : Law := fun told i b =>
  ∃ seg ∈ segments, seg.has i ∧
    (seg.skip = true ∨ (∃ used, mapOf segmentUsedMap seg = some used ∧ Free used (i - seg.start)) ∨
      told → b = 0) ∧
    (seg.skip = false → (¬ ∃ used, mapOf segmentUsedMap seg = some used ∧ Free used (i - seg.start)) →
      ¬ told → b = sourceByte disk openSnap seg i)

theorem copySegment_took {stops : Stops} {p : Prepared} {s s' : Sink}
    (fits : Fits disk openSnap segmentUsedMap p) (blocks : Blocks s) (proper : p.seg.start ≤ p.seg.stop)
    (ran : copySegment stops p s = .ok s') : ∃ out noted, Took s s' out noted ∧
      out.length = p.seg.stop - p.seg.start ∧
      Written (diskLaw disk openSnap segmentUsedMap [p.seg]) p.seg.start out noted := by
  unfold copySegment at ran
  dsimp only at ran
  split at ran
  · next skip =>
      refine ⟨_, _, leaveOut_took blocks (emitted_ok ran), List.length_replicate, ?_⟩
      refine Written.plain fun j b here => ?_
      rw [List.getElem?_replicate] at here
      split at here
      · next inside =>
          cases here
          refine ⟨p.seg, List.mem_singleton_self _, ⟨Nat.le_add_right _ _, by omega⟩, fun _ => rfl, ?_⟩
          exact fun kept => absurd (skip.symm.trans kept) (by decide)
      · cases here
  · next kept =>
      have kept : p.seg.skip = false := Bool.eq_false_iff.mpr kept
      obtain ⟨out, noted, took, length, written⟩ := readSegment_copied blocks ran
      refine ⟨out, noted, took, length, written.weaken fun told i b low high law => ?_⟩
      obtain ⟨zero, source⟩ := law
      have free : FreeAt p (i - p.seg.start) ↔
          ∃ used, mapOf segmentUsedMap p.seg = some used ∧ Free used (i - p.seg.start) := by
        unfold FreeAt
        rw [fits.used kept]
      refine ⟨p.seg, List.mem_singleton_self _, ⟨low, by omega⟩, ?_, ?_⟩
      · rintro (skip | free_ | told_)
        · rw [kept] at skip
          cases skip
        · exact zero (.inl (free.mpr free_))
        · exact zero (.inr told_)
      · intro _ used told_
        rw [source (fun free_ => used (free.mp free_)) told_, fits.source kept i low]

/-- By induction on the segments. -/
theorem copyAll_took {stops : Stops} {prepared : List Prepared} {first total : Nat} {s s' : Sink}
    (fits : ∀ p ∈ prepared, Fits disk openSnap segmentUsedMap p) (blocks : Blocks s)
    (tiles : Tiles diskSegment.start diskSegment.stop first (prepared.map Prepared.seg) total)
    (ran : copyAll stops prepared s = .ok s') : ∃ out noted, Took s s' out noted ∧
      out.length = total - first ∧
      Written (diskLaw disk openSnap segmentUsedMap (prepared.map Prepared.seg)) first out noted := by
  induction prepared generalizing first s with
  | nil =>
      cases ran
      have same : first = total := tiles
      exact ⟨[], [], Took.start blocks, by rw [same, Nat.sub_self]; rfl, Written.nil _ _⟩
  | cons p rest ih =>
      obtain ⟨here, proper, tail⟩ := tiles
      obtain ⟨fit, fits⟩ := List.forall_mem_cons.mp fits
      obtain ⟨next, copied, ran⟩ := GoValues.bind_ok ran
      obtain ⟨out, noted, took, length, written⟩ := copySegment_took fit blocks proper copied
      obtain ⟨more, further, took', length', written'⟩ := ih fits took.1 tail ran
      have ordered := tail.ordered
      have place : first + out.length = p.seg.stop := by omega
      refine ⟨out ++ more, noted ++ further, took.trans took', ?_, Written.append ?_ ?_⟩
      · rw [List.length_append, length, length']
        omega
      · rw [here] at written
        refine written.weaken fun told i b _ _ ⟨seg, among, law⟩ => ⟨seg, ?_, law⟩
        rw [List.mem_singleton.mp among]
        exact List.mem_cons_self
      · rw [place]
        refine written'.weaken fun told i b _ _ ⟨seg, among, law⟩ => ⟨seg, ?_, law⟩
        exact List.mem_cons_of_mem _ among

end

/-! The copy ends. -/

section

variable {stops : Stops}

theorem copyWindow_ends (p : Prepared) (used : usedMap) (w n : Nat) (s : Sink) :
    copyWindow stops p used w n s ≠ .error .running := by
  intro ran
  unfold copyWindow at ran
  split at ran
  · rcases GoValues.bind_failed ran with stuck | ⟨_, _, ran⟩
    · exact readResilient_ends (later_reads p.src s) (by decide) (by decide) (Nat.lt_succ_self n) stuck
    · cases ran
  · exact emitted_ends _ ran

theorem copyWindows_ends (p : Prepared) (used : usedMap) (length w : Nat) (s : Sink) :
    copyWindows stops p used length w s ≠ .error .running := by
  intro ran
  fun_induction copyWindows stops p used length w s with
  | case1 w s more ih =>
      rcases GoValues.bind_failed ran with stuck | ⟨next, _, ran⟩
      · exact copyWindow_ends p used _ _ s stuck
      · exact ih next ran
  | case2 w s done => cases ran

theorem copySegment_ends (p : Prepared) (s : Sink) : copySegment stops p s ≠ .error .running := by
  intro ran
  unfold copySegment at ran
  dsimp only at ran
  split at ran
  · exact emitted_ends _ ran
  · unfold readSegment at ran
    split at ran
    · rcases GoValues.bind_failed ran with stuck | ⟨_, _, ran⟩
      · exact readResilient_ends (later_reads p.src s) (by decide) (by decide) (Nat.lt_succ_self _) stuck
      · cases ran
    · exact copyWindows_ends p _ _ 0 s ran

theorem copyAll_ends (prepared : List Prepared) (s : Sink) :
    copyAll stops prepared s ≠ .error .running := by
  induction prepared generalizing s with
  | nil => exact fun wrong => by cases wrong
  | cons p rest ih =>
      intro ran
      rcases GoValues.bind_failed ran with stuck | ⟨next, _, ran⟩
      · exact copySegment_ends p s stuck
      · exact ih next ran

end

section

variable (stops : Stops) (disk : ReaderAt) (openSnap : diskSegment → Option ReaderAt)
  (segmentUsedMap : diskSegment → Option usedMap)

theorem prepare_ends (segments : List diskSegment) :
    prepare disk openSnap segmentUsedMap segments ≠ .error .running := by
  induction segments with
  | nil => exact fun wrong => by cases wrong
  | cons seg rest ih =>
      intro ran
      rw [prepare] at ran
      split at ran
      · rcases GoValues.bind_failed ran with stuck | ⟨_, _, ran⟩
        · exact ih stuck
        · cases ran
      · split at ran
        · split at ran
          · cases ran
          · rcases GoValues.bind_failed ran with stuck | ⟨_, _, ran⟩
            · exact ih stuck
            · cases ran
        · rcases GoValues.bind_failed ran with stuck | ⟨_, _, ran⟩
          · exact ih stuck
          · cases ran

theorem copySegments_ends (segments : List diskSegment) :
    copySegments stops disk openSnap segmentUsedMap segments ≠ .error .running := by
  intro ran
  rcases GoValues.bind_failed ran with stuck | ⟨prepared, _, ran⟩
  · exact prepare_ends disk openSnap segmentUsedMap segments stuck
  · split at ran
    · next halt failed =>
        cases halt with
        | stopped => cases ran
        | failed err => cases ran
        | running => exact copyAll_ends prepared Sink.new failed
    · split at ran
      · cases ran
      · cases ran

/-- For every list of segments that covers a disk, every source, map, uploader and user:
the copy ends, and an image that is sent has full blocks but for the last, the disk's
length, and at each place what its segment says. -/
theorem stitched_image (segments : List diskSegment) (total : Nat)
    (covers : Tiles diskSegment.start diskSegment.stop 0 segments total) :
    copySegments stops disk openSnap segmentUsedMap segments ≠ .error .running ∧
      ∀ s, copySegments stops disk openSnap segmentUsedMap segments = .ok s →
        (∀ b ∈ s.sent.dropLast, b.length = PBS_FIXED_CHUNK_SIZE) ∧ s.sent.flatten.length = total ∧
          ∀ i < total, ∃ b, s.sent.flatten[i]? = some b ∧ ∀ seg ∈ segments, seg.has i →
            Stitch disk openSnap segmentUsedMap s.unreadable seg i b := by
  refine ⟨copySegments_ends stops disk openSnap segmentUsedMap segments, fun s ran => ?_⟩
  obtain ⟨prepared, before, ran⟩ := GoValues.bind_ok ran
  obtain ⟨same, fits⟩ := prepare_fits before
  have start : Blocks Sink.new := ⟨(fun _ none_ => by cases none_), by decide⟩
  split at ran
  · cases ran
  · next copied all =>
      have tiles := covers
      rw [← same] at tiles
      obtain ⟨out, noted, took, length, written⟩ := copyAll_took fits start tiles all
      rw [same] at written
      split at ran
      · cases ran
      · next last =>
          cases ran
          obtain ⟨full, _, flat, unreadable⟩ := flush_spec took.1 last
          have image : s.sent.flatten = out := flat.trans took.2.1
          have bad : s.unreadable = noted := unreadable.trans took.2.2
          rw [image, bad]
          refine ⟨full, length, fun i inside => ?_⟩
          have room : i < out.length := Nat.lt_of_lt_of_eq inside length.symm
          have here : out[i]? = some out[i] := List.getElem?_eq_getElem room
          refine ⟨_, here, fun seg among within => ?_⟩
          obtain ⟨owner, listed, holds, zero, source⟩ := written.bytes i _ here
          rw [Nat.zero_add] at holds zero source
          have one : owner = seg :=
            covers.unique i owner listed seg among holds.1 holds.2 within.1 within.2
          subst one
          exact ⟨zero, source⟩

end

/-! A snapshot of two bytes for a segment of four. -/

def shortSnapshot : ReaderAt := ⟨[1, 2], _, DiskReads.answersEagerly_keeps [1, 2] false⟩

def wholeDisk : ReaderAt := ⟨[1, 2, 3, 4, 5], _, DiskReads.answersEagerly_keeps [1, 2, 3, 4, 5] false⟩

def shortSegment : diskSegment := ⟨0, 4, "/dev/mapper/snap", "", false, false⟩

def goesOn : Stops := ⟨fun _ => false, fun _ => false⟩

theorem goesOn_emit {data : Bytes} {s : Sink}
    (small : s.buffer.length + data.length < PBS_FIXED_CHUNK_SIZE) :
    emit goesOn data s = some { s with buffer := s.buffer ++ data, reports := s.reports + 1 } := by
  rw [emit, sendFull, if_neg (by rw [List.length_append]; omega)]
  rfl

theorem goesOn_emitZeros {n : Nat} {s : Sink} (some_ : 0 < n)
    (small : s.buffer.length + n < PBS_FIXED_CHUNK_SIZE) : emitZeros goesOn n s =
      some { s with buffer := s.buffer ++ List.replicate n 0, reports := s.reports + 1 } := by
  rw [emitZeros, if_pos some_]
  dsimp only
  rw [Nat.min_eq_right (by omega), goesOn_emit (by rw [List.length_replicate]; exact small),
    Option.bind_some, Nat.sub_self, emitZeros, if_neg (Nat.lt_irrefl 0)]

theorem goesOn_flush {buffer : Bytes} {s : Sink} (some_ : 0 < buffer.length)
    (small : buffer.length < PBS_FIXED_CHUNK_SIZE) :
    flush goesOn buffer s = some { s with sent := s.sent ++ [buffer], buffer := [] } := by
  rw [flush, if_pos some_]
  dsimp only
  rw [Nat.min_eq_right (Nat.le_of_lt small), List.take_length, List.drop_length, sendChunk,
    if_neg (Nat.ne_of_gt some_), if_neg (show ¬ goesOn.uploadDone _ = true from Bool.false_ne_true),
    Option.bind_some, flush, if_neg (show ¬ 0 < [].length from Nat.lt_irrefl 0)]

theorem short_run : copySegments goesOn wholeDisk (fun _ => some shortSnapshot) (fun _ => none)
    [shortSegment] = .ok ⟨[[1, 2, 0, 0]], [], 2, 1, []⟩ := by
  have two : emit goesOn [1, 2] ⟨[], [], 0, 0, []⟩ = some ⟨[], [1, 2], 1, 0, []⟩ :=
    goesOn_emit (by decide)
  have zeros : emitZeros goesOn 2 ⟨[], [1, 2], 1, 0, []⟩ = some ⟨[], [1, 2, 0, 0], 2, 0, []⟩ :=
    goesOn_emitZeros (by decide) (by decide)
  have read : readSegment goesOn ⟨shortSegment, shortSnapshot, none⟩ 4 Sink.new =
      .ok ⟨[], [1, 2, 0, 0], 2, 1, []⟩ := by
    simp [readSegment, readResilient, take, padToEnd, later, shortSnapshot, shortSegment, ReaderAt.ReadAt,
      DiskReads.answersEagerly, Slices.slice, asRead, two, zeros, emitted, Sink.new, Sink.readMore,
      Prepared.srcOff, PBS_FIXED_CHUNK_SIZE, bind, Except.bind, pure, Except.pure]
  have all : copyAll goesOn [⟨shortSegment, shortSnapshot, none⟩] Sink.new =
      .ok ⟨[], [1, 2, 0, 0], 2, 1, []⟩ := by
    change (readSegment goesOn ⟨shortSegment, shortSnapshot, none⟩ 4 Sink.new).bind (copyAll goesOn []) = _
    rw [read]
    rfl
  have flushed : flush goesOn [1, 2, 0, 0] ⟨[], [1, 2, 0, 0], 2, 1, []⟩ =
      some ⟨[[1, 2, 0, 0]], [], 2, 1, []⟩ := goesOn_flush (by decide) (by decide)
  have prepared : prepare wholeDisk (fun _ => some shortSnapshot) (fun _ => none) [shortSegment] =
      .ok [⟨shortSegment, shortSnapshot, none⟩] := rfl
  simp only [copySegments, prepared, bind, Except.bind, all, flushed]

/-- The image's third byte is neither the snapshot's, which has none, nor the disk's, though
its segment is read, without a map, and nothing was noted as unreadable. -/
theorem short_snapshot_padded : Tiles diskSegment.start diskSegment.stop 0 [shortSegment] 4 ∧
    ∃ s, copySegments goesOn wholeDisk (fun _ => some shortSnapshot) (fun _ => none) [shortSegment] = .ok s ∧
      shortSegment.has 2 ∧ shortSegment.skip = false ∧ mapOf (fun _ => none) shortSegment = none ∧
      ¬ Reported s.unreadable 2 ∧ shortSnapshot.bytes[2]? = none ∧ wholeDisk.bytes[2]? = some 3 ∧
      s.sent.flatten[2]? = some 0 :=
  ⟨⟨rfl, by decide, rfl⟩, _, short_run, ⟨by decide, by decide⟩, rfl, rfl, not_reported_nil 2, rfl, rfl, rfl⟩

theorem short_snapshot_stitched : ∃ s,
    copySegments goesOn wholeDisk (fun _ => some shortSnapshot) (fun _ => none) [shortSegment] = .ok s ∧
      (∀ b ∈ s.sent.dropLast, b.length = PBS_FIXED_CHUNK_SIZE) ∧ s.sent.flatten.length = 4 ∧
        ∀ i < 4, ∃ b, s.sent.flatten[i]? = some b ∧ ∀ seg ∈ [shortSegment], seg.has i →
          Stitch wholeDisk (fun _ => some shortSnapshot) (fun _ => none) s.unreadable seg i b :=
  ⟨_, short_run, (stitched_image goesOn wholeDisk (fun _ => some shortSnapshot) (fun _ => none)
    [shortSegment] 4 ⟨rfl, by decide, rfl⟩).2 _ short_run⟩

end ProxmoxBackup.StitchedImage
