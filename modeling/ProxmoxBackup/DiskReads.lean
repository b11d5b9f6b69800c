import ProxmoxBackup.GoValues
import ProxmoxBackup.Slices
import ProxmoxBackup.UsedMap

/-! How a disk or a file is read into an image: readResilient over shadowThenDisk, and
the reader of BackupFileDevice. What a source answers is given, within Go's contract. -/

namespace ProxmoxBackup.DiskReads

open GoValues Slices
open UsedMap (PBS_FIXED_CHUNK_SIZE)

abbrev Bytes := List UInt8

/-- isMediaError tells media from other. -/
inductive IoError where
  | eof
  | media
  | other (code : Nat)
  deriving DecidableEq

/-- How readResilient ends but with nil; running is a loop behind the last of the fuel. -/
inductive Halt where
  | stopped
  | failed (err : IoError)
  | running
  deriving DecidableEq

/-- What a ReadAt of the k-th call returns, by offset and length. -/
abbrev Source := Nat → Nat → Nat → Bytes × Option IoError

/-- The contract of io.ReaderAt over these bytes. A full read may come with io.EOF at
their end. -/
structure Keeps (bytes : Bytes) (answer : Nat → Nat → Nat → Nat × Option IoError) : Prop where
  most : ∀ k off len, (answer k off len).1 ≤ len
  full : ∀ k off len, (answer k off len).2 = none → (answer k off len).1 = len
  inside : ∀ k off len, 0 < (answer k off len).1 → off + (answer k off len).1 ≤ bytes.length
  ended : ∀ k off len, (answer k off len).2 = some .eof → bytes.length ≤ off + (answer k off len).1

structure ReaderAt where
  bytes : Bytes
  answer : Nat → Nat → Nat → Nat × Option IoError
  keeps : Keeps bytes answer

def ReaderAt.ReadAt (r : ReaderAt) : Source := fun k off len =>
  (slice r.bytes off (r.answer k off len).1, (r.answer k off len).2)

structure shadowThenDisk where
  shadow : ReaderAt
  disk : ReaderAt
  start : Nat

def shadowThenDisk.ReadAt (s : shadowThenDisk) : Source := fun k off len =>
  let (p, err) := s.shadow.ReadAt k off len
  if err ≠ some .eof ∨ p.length = len then (p, err)
  else
    let (q, err) := s.disk.ReadAt k (s.start + off + p.length) (len - p.length)
    (p ++ q, err)

/-- The partition's byte: the shadow's where it has it, else the disk's. -/
def shadowThenDisk.byte (s : shadowThenDisk) (i : Nat) : Option UInt8 :=
  if i < s.shadow.bytes.length then s.shadow.bytes[i]? else s.disk.bytes[s.start + i]?

/-! readResilient. -/

structure Call where
  off : Nat
  data : Bytes
  err : Option IoError

/-- out went through emit and emitZeros, bad through onBad, calls are the answers. -/
structure Copy where
  pos : Nat
  out : Bytes
  bad : List (Nat × Nat)
  calls : List Call
  emits : Nat

def Copy.new : Copy := ⟨0, [], [], [], 0⟩

def Copy.read (src : Source) (off len : Nat) (c : Copy) : Call × Copy :=
  let (data, err) := src c.calls.length off len
  (⟨off, data, err⟩, { c with calls := c.calls ++ [⟨off, data, err⟩] })

section

variable (src : Source) (refuse : Nat → Bool) (srcOffset length block unit : Nat)

/-- emit or emitZeros, and pos behind it. -/
def Copy.emit (data : Bytes) (c : Copy) : Except Halt Copy :=
  if data.length > 0 then
    if refuse c.emits then .error .stopped
    else .ok { c with out := c.out ++ data, pos := c.pos + data.length, emits := c.emits + 1 }
  else .ok c

def padToEnd (c : Copy) : Except Halt Copy := c.emit refuse (List.replicate (length - c.pos) 0)

/-- The rest of a read one unit at a time; true when the source has ended. -/
def units (winEnd : Nat) : Nat → Copy → Except Halt (Copy × Bool)
  | 0, _ => .error .running
  | fuel + 1, c =>
      if c.pos < winEnd then do
        let s := min unit (winEnd - c.pos)
        let (call, c) := c.read src (srcOffset + c.pos) s
        let c ← c.emit refuse call.data
        match call.err with
        | none => units winEnd fuel c
        | some .eof =>
            let c ← padToEnd refuse length c
            return (c, true)
        | some (.other code) => .error (.failed (.other code))
        | some .media =>
            let rem := s - call.data.length
            if rem > 0 then
              let at_ := srcOffset + c.pos
              let c ← c.emit refuse (List.replicate rem 0)
              units winEnd fuel { c with bad := c.bad ++ [(at_, rem)] }
            else units winEnd fuel c
      else return (c, false)

def readResilient : Nat → Copy → Except Halt Copy
  | 0, _ => .error .running
  | fuel + 1, c =>
      if c.pos < length then do
        let want := min block (length - c.pos)
        let (call, c) := c.read src (srcOffset + c.pos) want
        let c ← c.emit refuse call.data
        match call.err with
        | none => readResilient fuel c
        | some .eof => padToEnd refuse length c
        | some (.other code) => .error (.failed (.other code))
        | some .media =>
            let (c, ended) ← units src refuse srcOffset length unit
              (c.pos + (want - call.data.length)) (fuel + 1) c
            if ended then return c else readResilient fuel c
      else return c

end

/-! The contract of what readResilient reads from. -/

structure Answers (byte : Nat → Option UInt8) (src : Source) : Prop where
  most : ∀ k off len, (src k off len).1.length ≤ len
  full : ∀ k off len, (src k off len).2 = none → (src k off len).1.length = len
  bytes : ∀ k off len j, j < (src k off len).1.length → byte (off + j) = (src k off len).1[j]?

theorem ReaderAt.length (r : ReaderAt) (k off len : Nat) :
    (r.ReadAt k off len).1.length = (r.answer k off len).1 := by
  by_cases some_ : 0 < (r.answer k off len).1
  · have inside := r.keeps.inside k off len some_
    unfold ReaderAt.ReadAt slice
    rw [List.length_take, List.length_drop]
    omega
  · have none_ : (r.answer k off len).1 = 0 := by omega
    unfold ReaderAt.ReadAt slice
    rw [none_]
    rfl

theorem ReaderAt.bytes_at (r : ReaderAt) (k off len j : Nat) (inside : j < (r.ReadAt k off len).1.length) :
    (r.ReadAt k off len).1[j]? = r.bytes[off + j]? := by
  rw [r.length] at inside
  unfold ReaderAt.ReadAt slice
  rw [List.getElem?_take, if_pos inside, List.getElem?_drop]

/-- Behind the shadow's end the disk has the bytes. -/
theorem shadowThenDisk.answers (s : shadowThenDisk) : Answers s.byte s.ReadAt := by
  have front : ∀ k off len j, j < (s.shadow.ReadAt k off len).1.length →
      s.byte (off + j) = (s.shadow.ReadAt k off len).1[j]? := by
    intro k off len j inside
    have same := s.shadow.bytes_at k off len j inside
    rw [s.shadow.length] at inside
    have within := s.shadow.keeps.inside k off len (by omega)
    unfold shadowThenDisk.byte
    rw [if_pos (by omega), same]
  constructor
  · intro k off len
    have shadowed := s.shadow.keeps.most k off len
    have rest := s.disk.keeps.most k (s.start + off + (s.shadow.ReadAt k off len).1.length)
      (len - (s.shadow.ReadAt k off len).1.length)
    rw [← s.shadow.length] at shadowed
    rw [← s.disk.length] at rest
    unfold shadowThenDisk.ReadAt
    dsimp only
    split
    · exact shadowed
    · rw [List.length_append]
      omega
  · intro k off len plain
    unfold shadowThenDisk.ReadAt at plain ⊢
    dsimp only at plain ⊢
    split at plain
    · next whole =>
        rw [if_pos whole, s.shadow.length]
        exact s.shadow.keeps.full k off len plain
    · next more =>
        have shadowed := s.shadow.keeps.most k off len
        rw [← s.shadow.length] at shadowed
        have rest := s.disk.keeps.full k _ _ plain
        rw [← s.disk.length] at rest
        rw [if_neg more, List.length_append]
        omega
  · intro k off len j inside
    unfold shadowThenDisk.ReadAt at inside ⊢
    dsimp only at inside ⊢
    split
    · next whole =>
        rw [if_pos whole] at inside
        exact front k off len j inside
    · next more =>
        rw [if_neg more, List.length_append] at inside
        by_cases here : j < (s.shadow.ReadAt k off len).1.length
        · rw [List.getElem?_append_left here]
          exact front k off len j here
        · -- the shadow said io.EOF, so it has nothing from here on
          have eof : (s.shadow.answer k off len).2 = some .eof := by
            by_contra other
            exact more (Or.inl other)
          have ended := s.shadow.keeps.ended k off len eof
          rw [← s.shadow.length] at ended
          rw [List.getElem?_append_right (by omega), s.disk.bytes_at _ _ _ _ (by omega)]
          unfold shadowThenDisk.byte
          rw [if_neg (by omega)]
          congr 1
          omega

/-! What a copy has emitted. -/

section

variable (byte : Nat → Option UInt8) (srcOffset length : Nat)

/-- A position lies in a range that onBad was told. -/
def Reported (bad : List (Nat × Nat)) (i : Nat) : Prop := ∃ r ∈ bad, r.1 ≤ i ∧ i < r.1 + r.2

/-- The source's byte, or a zero that was reported. -/
def Right (c : Copy) (i : Nat) : Prop :=
  byte (srcOffset + i) = c.out[i]? ∨ c.out[i]? = some 0 ∧ Reported c.bad (srcOffset + i)

/-- Exactly length bytes, each of them right. -/
def Exact (c : Copy) : Prop := c.out.length = length ∧ ∀ i, i < length → Right byte srcOffset c i

/-- Where a read has ended with io.EOF only zero bytes come behind it. -/
def QuietEnd (c : Copy) : Prop :=
  ∀ call ∈ c.calls, call.err = some .eof → ∀ i, call.off + call.data.length ≤ i →
    i < srcOffset + length → byte i = some 0

/-- A copy in its loops, before any io.EOF. -/
structure Going (c : Copy) : Prop where
  size : c.out.length = c.pos
  within : c.pos ≤ length
  right : ∀ i, i < c.pos → Right byte srcOffset c i
  behind : ∀ r ∈ c.bad, r.1 + r.2 ≤ srcOffset + c.pos
  quiet : ∀ call ∈ c.calls, call.err ≠ some .eof

/-- A copy that has returned, its source at an end at e or not asked further. -/
structure Ended (c : Copy) (e : Nat) : Prop where
  size : c.out.length = length
  within : e ≤ length
  right : ∀ i, i < e → Right byte srcOffset c i
  padded : ∀ i, e ≤ i → i < length → c.out[i]? = some 0
  behind : ∀ r ∈ c.bad, r.1 + r.2 ≤ srcOffset + e
  eof : ∀ call ∈ c.calls, call.err = some .eof → call.off + call.data.length = srcOffset + e
  early : e < length → ∃ call ∈ c.calls, call.err = some .eof

variable {byte srcOffset length}

/-- The padding is right where the bytes it stands for are zero bytes. -/
theorem Ended.exact_iff {c : Copy} {e : Nat} (ended : Ended byte srcOffset length c e) :
    Exact byte srcOffset length c ↔ QuietEnd byte srcOffset length c := by
  constructor
  · rintro ⟨-, right⟩ call member eof i behind inside
    have at_ := ended.eof call member eof
    have offset : srcOffset + (i - srcOffset) = i := by omega
    have zero := ended.padded (i - srcOffset) (by omega) (by omega)
    rcases right (i - srcOffset) (by omega) with same | ⟨-, r, listed, low, high⟩
    · rw [offset, zero] at same
      exact same
    · have before := ended.behind r listed
      omega
  · intro quiet
    refine ⟨ended.size, fun i inside => ?_⟩
    by_cases front : i < e
    · exact ended.right i front
    · obtain ⟨call, member, eof⟩ := ended.early (by omega)
      have at_ := ended.eof call member eof
      refine Or.inl ?_
      rw [ended.padded i (by omega) inside]
      exact quiet call member eof (srcOffset + i) (by omega) (by omega)

theorem Going.ended {c : Copy} (going : Going byte srcOffset length c) (whole : length ≤ c.pos) :
    Ended byte srcOffset length c length := by
  have same : c.pos = length := Nat.le_antisymm going.within whole
  constructor
  · exact going.size.trans same
  · exact Nat.le_refl length
  · exact fun i inside => going.right i (same ▸ inside)
  · exact fun i behind inside => absurd inside (Nat.not_lt.mpr behind)
  · exact fun r member => same ▸ going.behind r member
  · exact fun call member eof => absurd eof (going.quiet call member)
  · exact fun wrong => absurd wrong (Nat.lt_irrefl length)

theorem emit_ok {refuse : Nat → Bool} {data : Bytes} {c c' : Copy} (ran : c.emit refuse data = .ok c') :
    c'.out = c.out ++ data ∧ c'.pos = c.pos + data.length ∧ c'.bad = c.bad ∧ c'.calls = c.calls := by
  unfold Copy.emit at ran
  split at ran
  · split at ran
    · cases ran
    · cases ran
      exact ⟨rfl, rfl, rfl, rfl⟩
  · next none_ =>
      cases ran
      rw [List.length_eq_zero_iff.mp (Nat.eq_zero_of_not_pos none_)]
      exact ⟨(List.append_nil _).symm, rfl, rfl, rfl⟩

/-- What is emitted later leaves what was right right. -/
theorem right_later {c c' : Copy} {data : Bytes} {i : Nat} (out : c'.out = c.out ++ data)
    (bad : ∀ r ∈ c.bad, r ∈ c'.bad) (inside : i < c.out.length) (right : Right byte srcOffset c i) :
    Right byte srcOffset c' i := by
  have same : c'.out[i]? = c.out[i]? := by rw [out, List.getElem?_append_left inside]
  unfold Right
  rw [same]
  rcases right with read | ⟨zero, r, member, range⟩
  · exact Or.inl read
  · exact Or.inr ⟨zero, r, bad r member, range⟩

/-- The bytes of a read go on as they are. -/
theorem emitted_right {src : Source} (answers : Answers byte src) {refuse : Nat → Bool} {len : Nat}
    {c c' : Copy} (size : c.out.length = c.pos) (right : ∀ i, i < c.pos → Right byte srcOffset c i)
    (ran : ((c.read src (srcOffset + c.pos) len).2).emit refuse
      (c.read src (srcOffset + c.pos) len).1.data = .ok c') :
    c'.out.length = c'.pos ∧ c'.pos = c.pos + (src c.calls.length (srcOffset + c.pos) len).1.length ∧
    (∀ i, i < c'.pos → Right byte srcOffset c' i) ∧ c'.bad = c.bad ∧
    c'.calls = c.calls ++ [(c.read src (srcOffset + c.pos) len).1] := by
  obtain ⟨out, pos, bad, calls⟩ := emit_ok ran
  have out : c'.out = c.out ++ (c.read src (srcOffset + c.pos) len).1.data := out
  have pos : c'.pos = c.pos + (src c.calls.length (srcOffset + c.pos) len).1.length := pos
  have bad : c'.bad = c.bad := bad
  refine ⟨?_, pos, ?_, bad, calls⟩
  · rw [out, List.length_append, size, pos]
    rfl
  · intro i inside
    by_cases before : i < c.pos
    · exact right_later out (fun r member => bad ▸ member) (by omega) (right i before)
    · have read := answers.bytes c.calls.length (srcOffset + c.pos) len (i - c.pos) (by
        omega)
      refine Or.inl ?_
      rw [out, List.getElem?_append_right (by omega), size]
      rw [show srcOffset + c.pos + (i - c.pos) = srcOffset + i by omega] at read
      exact read

/-- Zeros to the end, once the source has said io.EOF. -/
theorem padToEnd_ended {refuse : Nat → Bool} {c c' : Copy} {call : Call} {calls : List Call}
    (size : c.out.length = c.pos) (within : c.pos ≤ length)
    (right : ∀ i, i < c.pos → Right byte srcOffset c i)
    (behind : ∀ r ∈ c.bad, r.1 + r.2 ≤ srcOffset + c.pos)
    (asked : c.calls = calls ++ [call]) (quiet : ∀ call ∈ calls, call.err ≠ some .eof)
    (eof : call.err = some .eof) (place : call.off + call.data.length = srcOffset + c.pos)
    (ran : padToEnd refuse length c = .ok c') : Ended byte srcOffset length c' c.pos := by
  obtain ⟨out, pos, bad, same⟩ := emit_ok ran
  constructor
  · rw [out, List.length_append, List.length_replicate, size]
    omega
  · exact within
  · intro i inside
    exact right_later out (fun r member => bad ▸ member) (by omega) (right i inside)
  · intro i low high
    rw [out, List.getElem?_append_right (by omega), List.getElem?_replicate, if_pos (by omega)]
  · intro r member
    exact behind r (bad ▸ member)
  · intro other member ended
    rw [same, asked] at member
    rcases List.mem_append.mp member with old | last
    · exact absurd ended (quiet other old)
    · rw [List.mem_singleton.mp last]
      exact place
  · intro _
    exact ⟨call, by rw [same, asked]; exact List.mem_append_right _ (List.mem_singleton_self _), eof⟩

/-- A read that did not say io.EOF. -/
theorem quiet_snoc {calls : List Call} {call : Call} (quiet : ∀ call ∈ calls, call.err ≠ some .eof)
    (other : call.err ≠ some .eof) : ∀ x ∈ calls ++ [call], x.err ≠ some .eof := by
  intro x member
  rcases List.mem_append.mp member with old | last
  · exact quiet x old
  · rw [List.mem_singleton.mp last]
    exact other

/-- The rest of a unit that cannot be read is zeros, and reported. -/
theorem zeroed_going {refuse : Nat → Bool} {rem : Nat} {c c' : Copy}
    (going : Going byte srcOffset length c) (zeros : c.emit refuse (List.replicate rem 0) = .ok c')
    (room : c.pos + rem ≤ length) :
    Going byte srcOffset length { c' with bad := c'.bad ++ [(srcOffset + c.pos, rem)] } := by
  obtain ⟨out, pos, bad, calls⟩ := emit_ok zeros
  have size := going.size
  rw [List.length_replicate] at pos
  constructor
  · dsimp only
    rw [out, List.length_append, List.length_replicate]
    omega
  · dsimp only
    omega
  · intro i inside
    dsimp only at inside
    by_cases old : i < c.pos
    · have kept : ∀ r ∈ c.bad, r ∈ c'.bad ++ [(srcOffset + c.pos, rem)] := fun r member =>
        List.mem_append_left _ (bad ▸ member)
      exact right_later out kept (by omega) (going.right i old)
    · refine Or.inr ⟨?_, _, List.mem_append_right _ (List.mem_singleton_self _), ?_⟩
      · dsimp only
        rw [out, List.getElem?_append_right (by omega), List.getElem?_replicate, if_pos (by omega)]
      · dsimp only
        omega
  · intro r member
    dsimp only
    rcases List.mem_append.mp member with old | last
    · have earlier := going.behind r (bad ▸ old)
      omega
    · rw [List.mem_singleton.mp last]
      dsimp only
      omega
  · intro call member
    exact going.quiet call (calls ▸ member)

theorem units_spec {src : Source} (answers : Answers byte src) {refuse : Nat → Bool}
    {unit winEnd fuel : Nat} {c c' : Copy} {ended : Bool} (range : winEnd ≤ length)
    (going : Going byte srcOffset length c)
    (ran : units src refuse srcOffset length unit winEnd fuel c = .ok (c', ended)) :
    if ended then ∃ e, Ended byte srcOffset length c' e else Going byte srcOffset length c' := by
  induction fuel generalizing c with
  | zero => cases ran
  | succ fuel ih =>
      rw [units] at ran
      split at ran
      · next more =>
          obtain ⟨emitted, emit, ran⟩ := bind_ok ran
          obtain ⟨size, pos, right, bad, calls⟩ := emitted_right answers going.size going.right emit
          have short := answers.most c.calls.length (srcOffset + c.pos) (min unit (winEnd - c.pos))
          have within : emitted.pos ≤ length := by omega
          have behind : ∀ r ∈ emitted.bad, r.1 + r.2 ≤ srcOffset + emitted.pos := by
            intro r member
            have before := going.behind r (bad ▸ member)
            omega
          have goes : (c.read src (srcOffset + c.pos) (min unit (winEnd - c.pos))).1.err ≠ some .eof →
              Going byte srcOffset length emitted := fun other =>
            ⟨size, within, right, behind, calls ▸ quiet_snoc going.quiet other⟩
          split at ran
          · next plain => exact ih (goes fun wrong => absurd (plain.symm.trans wrong) nofun) ran
          · next eof =>
              obtain ⟨padded, pad, ran⟩ := bind_ok ran
              cases ran
              rw [if_pos rfl]
              have place : (c.read src (srcOffset + c.pos) (min unit (winEnd - c.pos))).1.off +
                  (c.read src (srcOffset + c.pos) (min unit (winEnd - c.pos))).1.data.length =
                  srcOffset + emitted.pos := by
                rw [pos, ← Nat.add_assoc]
                rfl
              exact ⟨_, padToEnd_ended size within right behind calls going.quiet eof place pad⟩
          · cases ran
          · next media =>
              have before := goes fun wrong => absurd (media.symm.trans wrong) nofun
              dsimp only at ran
              split at ran
              · next some_ =>
                  obtain ⟨zeroed, zeros, ran⟩ := bind_ok ran
                  exact ih (zeroed_going before zeros (by omega)) ran
              · exact ih before ran
      · cases ran
        exact going

theorem readResilient_ended {src : Source} (answers : Answers byte src) {refuse : Nat → Bool}
    {block unit fuel : Nat} {c c' : Copy} (going : Going byte srcOffset length c)
    (ran : readResilient src refuse srcOffset length block unit fuel c = .ok c') :
    ∃ e, Ended byte srcOffset length c' e := by
  induction fuel generalizing c with
  | zero => cases ran
  | succ fuel ih =>
      rw [readResilient] at ran
      split at ran
      · next more =>
          obtain ⟨emitted, emit, ran⟩ := bind_ok ran
          obtain ⟨size, pos, right, bad, calls⟩ := emitted_right answers going.size going.right emit
          have short := answers.most c.calls.length (srcOffset + c.pos) (min block (length - c.pos))
          have within : emitted.pos ≤ length := by omega
          have behind : ∀ r ∈ emitted.bad, r.1 + r.2 ≤ srcOffset + emitted.pos := by
            intro r member
            have before := going.behind r (bad ▸ member)
            omega
          have goes : (c.read src (srcOffset + c.pos) (min block (length - c.pos))).1.err ≠ some .eof →
              Going byte srcOffset length emitted := fun other =>
            ⟨size, within, right, behind, calls ▸ quiet_snoc going.quiet other⟩
          split at ran
          · next plain => exact ih (goes fun wrong => absurd (plain.symm.trans wrong) nofun) ran
          · next eof =>
              have place : (c.read src (srcOffset + c.pos) (min block (length - c.pos))).1.off +
                  (c.read src (srcOffset + c.pos) (min block (length - c.pos))).1.data.length =
                  srcOffset + emitted.pos := by
                rw [pos, ← Nat.add_assoc]
                rfl
              exact ⟨_, padToEnd_ended size within right behind calls going.quiet eof place ran⟩
          · cases ran
          · next media =>
              obtain ⟨⟨after, over_⟩, walked, ran⟩ := bind_ok ran
              have range : emitted.pos + (min block (length - c.pos) -
                  (src c.calls.length (srcOffset + c.pos) (min block (length - c.pos))).1.length) ≤ length := by
                omega
              have spec := units_spec answers range (goes fun wrong => absurd (media.symm.trans wrong) nofun) walked
              cases over_ with
              | true =>
                  cases ran
                  exact spec
              | false => exact ih spec ran
      · next whole =>
          cases ran
          exact ⟨length, going.ended (Nat.le_of_not_lt whole)⟩

end

/-! The loops end: a read brings bytes, and a unit that does not is passed over. -/

theorem emit_ends (refuse : Nat → Bool) (data : Bytes) (c : Copy) :
    c.emit refuse data ≠ .error .running := by
  unfold Copy.emit
  intro ran
  split at ran
  · split at ran
    · cases ran
    · cases ran
  · cases ran

section

variable {byte : Nat → Option UInt8} {src : Source} {refuse : Nat → Bool}
  {srcOffset length block unit : Nat}

theorem units_ends (answers : Answers byte src) (some_ : 0 < unit) {winEnd fuel : Nat} {c : Copy}
    (enough : winEnd - c.pos < fuel) :
    units src refuse srcOffset length unit winEnd fuel c ≠ .error .running := by
  induction fuel generalizing c with
  | zero => omega
  | succ fuel ih =>
      intro ran
      rw [units] at ran
      split at ran
      · next more =>
          have short := answers.most c.calls.length (srcOffset + c.pos) (min unit (winEnd - c.pos))
          have full := answers.full c.calls.length (srcOffset + c.pos) (min unit (winEnd - c.pos))
          rcases bind_failed ran with stuck | ⟨emitted, emit, ran⟩
          · exact emit_ends _ _ _ stuck
          · have pos : emitted.pos = c.pos +
                (src c.calls.length (srcOffset + c.pos) (min unit (winEnd - c.pos))).1.length :=
              (emit_ok emit).2.1
            split at ran
            · next plain =>
                have whole := full plain
                exact ih (by omega) ran
            · rcases bind_failed ran with stuck | ⟨padded, -, ran⟩
              · exact emit_ends _ _ _ stuck
              · cases ran
            · cases ran
            · dsimp only at ran
              split at ran
              · rcases bind_failed ran with stuck | ⟨zeroed, zeros, ran⟩
                · exact emit_ends _ _ _ stuck
                · have zeroPos := (emit_ok zeros).2.1
                  rw [List.length_replicate] at zeroPos
                  refine ih ?_ ran
                  dsimp only
                  omega
              · next whole => exact ih (by omega) ran
      · cases ran

/-- The walk over the units does not go back, and goes to its end. -/
theorem units_reaches {winEnd fuel : Nat} {c c' : Copy}
    (ran : units src refuse srcOffset length unit winEnd fuel c = .ok (c', false)) :
    c.pos ≤ c'.pos ∧ winEnd ≤ c'.pos := by
  induction fuel generalizing c with
  | zero => cases ran
  | succ fuel ih =>
      rw [units] at ran
      split at ran
      · obtain ⟨emitted, emit, ran⟩ := bind_ok ran
        have pos : emitted.pos = c.pos +
            (src c.calls.length (srcOffset + c.pos) (min unit (winEnd - c.pos))).1.length :=
          (emit_ok emit).2.1
        split at ran
        · have later := ih ran
          omega
        · obtain ⟨padded, -, ran⟩ := bind_ok ran
          cases ran
        · cases ran
        · dsimp only at ran
          split at ran
          · obtain ⟨zeroed, zeros, ran⟩ := bind_ok ran
            have zeroPos := (emit_ok zeros).2.1
            have later := ih ran
            dsimp only at later
            omega
          · have later := ih ran
            omega
      · next whole =>
          cases ran
          exact ⟨Nat.le_refl _, Nat.le_of_not_lt whole⟩

theorem readResilient_ends (answers : Answers byte src) (blocks : 0 < block) (some_ : 0 < unit)
    {fuel : Nat} {c : Copy} (enough : length - c.pos < fuel) :
    readResilient src refuse srcOffset length block unit fuel c ≠ .error .running := by
  induction fuel generalizing c with
  | zero => omega
  | succ fuel ih =>
      intro ran
      rw [readResilient] at ran
      split at ran
      · next more =>
          have short := answers.most c.calls.length (srcOffset + c.pos) (min block (length - c.pos))
          have full := answers.full c.calls.length (srcOffset + c.pos) (min block (length - c.pos))
          rcases bind_failed ran with stuck | ⟨emitted, emit, ran⟩
          · exact emit_ends _ _ _ stuck
          · have pos : emitted.pos = c.pos +
                (src c.calls.length (srcOffset + c.pos) (min block (length - c.pos))).1.length :=
              (emit_ok emit).2.1
            split at ran
            · next plain =>
                have whole := full plain
                exact ih (by omega) ran
            · exact emit_ends _ _ _ ran
            · cases ran
            · rcases bind_failed ran with stuck | ⟨⟨after, over_⟩, walked, ran⟩
              · refine units_ends answers some_ ?_ stuck
                have window : emitted.pos + (min block (length - c.pos) -
                    (src c.calls.length (srcOffset + c.pos) (min block (length - c.pos))).1.length) -
                    emitted.pos < fuel + 1 := by
                  omega
                exact window
              · cases over_ with
                | true => cases ran
                | false =>
                    have reached := units_reaches walked
                    have window : emitted.pos + (min block (length - c.pos) -
                        (src c.calls.length (srcOffset + c.pos) (min block (length - c.pos))).1.length) ≤
                        after.pos := reached.2
                    refine ih ?_ ran
                    omega
      · cases ran

end

/-- For every shadow and disk within the contract, every range and every pattern of
errors: a copy that ends well is exact if and only if only zero bytes are behind the place
where a read has said io.EOF; and the copy ends. -/
theorem resilient_exact_iff (s : shadowThenDisk) (refuse : Nat → Bool)
    (srcOffset length block unit : Nat) (blocks : 0 < block) (some_ : 0 < unit) :
    (∀ fuel c, readResilient s.ReadAt refuse srcOffset length block unit fuel Copy.new = .ok c →
      (Exact s.byte srcOffset length c ↔ QuietEnd s.byte srcOffset length c)) ∧
    ∀ fuel, length < fuel →
      readResilient s.ReadAt refuse srcOffset length block unit fuel Copy.new ≠ .error .running := by
  constructor
  · intro fuel c ran
    have going : Going s.byte srcOffset length Copy.new := by
      constructor
      · rfl
      · exact Nat.zero_le length
      · intro i inside
        cases inside
      · intro r member
        cases member
      · intro call member
        cases member
    obtain ⟨e, ended⟩ := readResilient_ended s.answers going ran
    exact ended.exact_iff
  · intro fuel enough
    apply readResilient_ends s.answers blocks some_
    exact enough

/-! A shadow of two bytes over a disk of four. -/

/-- Reads to the end of the bytes, with io.EOF as soon as the end is reached, or only
for a read past it. -/
def answersEagerly (bytes : Bytes) (eager : Bool) : Nat → Nat → Nat → Nat × Option IoError :=
  fun _ off len =>
    let n := min len (bytes.length - off)
    (n, if n < len ∨ (eager ∧ bytes.length ≤ off + n) then some .eof else none)

theorem answersEagerly_keeps (bytes : Bytes) (eager : Bool) : Keeps bytes (answersEagerly bytes eager) := by
  constructor
  · intro k off len
    exact Nat.min_le_left _ _
  · intro k off len plain
    unfold answersEagerly at plain ⊢
    dsimp only at plain ⊢
    split at plain
    · cases plain
    · next whole => omega
  · intro k off len more
    unfold answersEagerly at more ⊢
    dsimp only at more ⊢
    omega
  · intro k off len eof
    unfold answersEagerly at eof ⊢
    dsimp only at eof ⊢
    split at eof
    · next ended => omega
    · cases eof

def shortShadow (eager : Bool) : shadowThenDisk :=
  ⟨⟨[1, 2], _, answersEagerly_keeps [1, 2] eager⟩, ⟨[1, 2, 3, 4], _, answersEagerly_keeps [1, 2, 3, 4] false⟩, 0⟩

theorem shortShadow_exact : ∃ c, readResilient (shortShadow false).ReadAt (fun _ => false) 0 4 3 1 5 Copy.new =
      .ok c ∧ c.out = [1, 2, 3, 4] ∧
    (Exact (shortShadow false).byte 0 4 c ↔ QuietEnd (shortShadow false).byte 0 4 c) ∧
    readResilient (shortShadow false).ReadAt (fun _ => false) 0 4 3 1 5 Copy.new ≠ .error .running := by
  have law := resilient_exact_iff (shortShadow false) (fun _ => false) 0 4 3 1 (by decide) (by decide)
  exact ⟨_, rfl, rfl, law.1 5 _ rfl, law.2 5 (by decide)⟩

/-- The full read of the shadow comes with io.EOF: the disk's bytes behind it go into the
image as zeros, and onBad is not told. -/
theorem eagerShadow_zeros : ∃ c, readResilient (shortShadow true).ReadAt (fun _ => false) 0 4 2 1 5 Copy.new =
      .ok c ∧ c.out = [1, 2, 0, 0] ∧ c.bad = [] ∧ (shortShadow true).byte 2 = some 3 ∧
    ¬Exact (shortShadow true).byte 0 4 c := by
  refine ⟨_, rfl, rfl, rfl, rfl, fun exact_ => ?_⟩
  rcases exact_.2 2 (by decide) with same | ⟨-, r, member, -⟩
  · exact absurd same (by decide)
  · cases member

/-! The reader of BackupFileDevice. -/

/-- What a file's reads return: those with a nil error, and what comes with io.EOF. -/
structure FileReads where
  reads : List Bytes
  last : Bytes
  fits : ∀ data ∈ reads ++ [last], data.length ≤ PBS_FIXED_CHUNK_SIZE

def FileReads.bytes (f : FileReads) : Bytes := (f.reads ++ [f.last]).flatten

def FileReads.answers (f : FileReads) : List (Bytes × Option IoError) :=
  f.reads.map (fun data => (data, none)) ++ [(f.last, some .eof)]

/-- The blocks that go into ch, and rerr. stops is the progress callback. -/
def sendBlocks (stops : Nat → Bool) : Nat → List (Bytes × Option IoError) → List Bytes × Option Halt
  | _, [] => ([], some .running)
  | _, (_, some .eof) :: _ => ([], none)
  | _, (_, some err) :: _ => ([], some (.failed err))
  | sent, (data, none) :: rest =>
      if stops sent then ([data], some .stopped)
      else (data :: (sendBlocks stops (sent + 1) rest).1, (sendBlocks stops (sent + 1) rest).2)

/-- All blocks but the last are full, and together they are the file. -/
def FixedBlocks (bytes : Bytes) (blocks : List Bytes) : Prop :=
  (∀ block ∈ blocks.dropLast, block.length = PBS_FIXED_CHUNK_SIZE) ∧
    (∀ block ∈ blocks, block.length ≤ PBS_FIXED_CHUNK_SIZE) ∧ blocks.flatten = bytes

/-- Every read is a block, and what comes with io.EOF is none. -/
theorem sendBlocks_reads (stops : Nat → Bool) (sent : Nat) (reads : List Bytes) (last : Bytes)
    (blocks : List Bytes)
    (ran : sendBlocks stops sent (reads.map (fun data => (data, none)) ++ [(last, some .eof)]) =
      (blocks, none)) : blocks = reads := by
  induction reads generalizing sent blocks with
  | nil =>
      cases ran
      rfl
  | cons data rest ih =>
      rw [List.map_cons, List.cons_append, sendBlocks] at ran
      split at ran
      · cases ran
      · have tail := congrArg Prod.snd ran
        have head := congrArg Prod.fst ran
        dsimp only at tail head
        rw [← head]
        exact congrArg (data :: ·) (ih (sent + 1) _ (Prod.ext rfl tail))

theorem fits_small (reads : List Bytes) (last : Bytes) (small : ∀ data ∈ reads ++ [last], data.length ≤ 1) :
    ∀ data ∈ reads ++ [last], data.length ≤ PBS_FIXED_CHUNK_SIZE := by
  intro data member
  exact Nat.le_trans (small data member) (by decide)

/-- A file of one byte. -/
def oneByte : FileReads := ⟨[[7]], [], fits_small _ _ (by decide)⟩

/-- Two bytes, read one at a time. -/
def byteByByte : FileReads := ⟨[[7], [8]], [], fits_small _ _ (by decide)⟩

/-- One byte that comes with io.EOF. -/
def lastWithEof : FileReads := ⟨[], [7], fits_small _ _ (by decide)⟩

end ProxmoxBackup.DiskReads
