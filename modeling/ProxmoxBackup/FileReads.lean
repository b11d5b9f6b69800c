import ProxmoxBackup.FreeSpaceMap
import ProxmoxBackup.BinarySearch

/-! Reading a file of an image run by run. One turn of a reader's loop fills a part of the
buffer that is not empty with what the file has there; so the whole loop fills what was
asked for. The ext reader finds the extent of each run by a binary search. -/
namespace ProxmoxBackup.FileReads

open FreeSpaceMap GoValues BinarySearch

/-- A volume is a section of the disk. -/
structure Volume extends Reader where
  sectioned : section_ = true

inductive ReadError where
  | eof
  | unexpectedEOF
  | format
  | disk
  deriving DecidableEq

structure ReadResult where
  buf : Buffer
  n : Nat
  err : Option ReadError

/-- One turn at `n`: the buffer after it and the length of the run. -/
abbrev Turn := Nat → Buffer → Except ReadError (Buffer × Nat)

def readLoop (more : Nat → Bool) (turn : Turn) : Nat → Nat → Buffer → ReadResult
  | 0, n, buf => ⟨buf, n, none⟩
  | fuel + 1, n, buf =>
      if more n then
        match turn n buf with
        | .error err => ⟨buf, n, some err⟩
        | .ok (buf, run) => readLoop more turn fuel (n + run) buf
      else ⟨buf, n, none⟩

/-- What a reader returns when its loop is through. -/
def shortAtEnd (p : Buffer) (result : ReadResult) : ReadResult :=
  if result.err = none ∧ result.n < p.length then { result with err := some .eof } else result

/-- `content i b` is that the file may have `b` for byte `i` of the buffer. -/
structure FillsRun (content : Nat → UInt8 → Prop) (want n : Nat) (buf : Buffer)
    (result : Buffer × Nat) : Prop where
  progress : 0 < result.2
  inside : n + result.2 ≤ want
  length : result.1.length = buf.length
  bytes : ∀ i, n ≤ i → i < n + result.2 → content i (result.1.byte i)
  others : ∀ i, i < n ∨ n + result.2 ≤ i → result.1.byte i = buf.byte i

def Fills (content : Nat → UInt8 → Prop) (want : Nat) (turn : Turn) : Prop :=
  ∀ n buf, n < want → ∃ result, turn n buf = .ok result ∧ FillsRun content want n buf result

/-- The first `n` bytes are the file's, the others as they were in `p`. -/
structure Filled (content : Nat → UInt8 → Prop) (p : Buffer) (n : Nat) (buf : Buffer) : Prop where
  length : buf.length = p.length
  bytes : ∀ i, i < n → content i (buf.byte i)
  others : ∀ i, n ≤ i → buf.byte i = p.byte i

theorem filled_start (content : Nat → UInt8 → Prop) (p : Buffer) : Filled content p 0 p :=
  ⟨rfl, fun _ before => absurd before (Nat.not_lt_zero _), fun _ _ => rfl⟩

theorem filled_run {content : Nat → UInt8 → Prop} {want n : Nat} {p buf : Buffer}
    {result : Buffer × Nat} (filled : Filled content p n buf)
    (run : FillsRun content want n buf result) :
    Filled content p (n + result.2) result.1 where
  length := run.length.trans filled.length
  bytes i before := by
    by_cases done : i < n
    · rw [run.others i (.inl done)]
      exact filled.bytes i done
    · exact run.bytes i (by omega) before
  others i behind := by
    rw [run.others i (.inr behind)]
    exact filled.others i (by omega)

/-- By induction on the turns that are left: each one takes `n` further. -/
theorem readLoop_fills {content : Nat → UInt8 → Prop} {want : Nat} {more : Nat → Bool} {turn : Turn}
    (asks : ∀ n, more n = true ↔ n < want) (fills : Fills content want turn) (fuel n : Nat)
    (p buf : Buffer) (filled : Filled content p n buf) (inside : n ≤ want)
    (enough : want - n ≤ fuel) :
    ∃ last, readLoop more turn fuel n buf = ⟨last, want, none⟩ ∧ Filled content p want last := by
  induction fuel generalizing n buf with
  | zero =>
      obtain rfl : n = want := by omega
      exact ⟨buf, rfl, filled⟩
  | succ fuel ih =>
      by_cases left : n < want
      · obtain ⟨⟨next, run⟩, turned, spec⟩ := fills n buf left
        have progress : 0 < run := spec.progress
        rw [readLoop, if_pos ((asks n).mpr left), turned]
        exact ih (n + run) next (filled_run filled spec) spec.inside (by omega)
      · obtain rfl : n = want := by omega
        rw [readLoop, if_neg fun asked => left ((asks n).mp asked)]
        exact ⟨buf, rfl, filled⟩

/-- Byte `pos` of a file: the volume's byte at its place, where the volume has one there, and
zero where the file has no place on the disk. -/
def Content (v : Volume) (place : Nat → Option Nat) (pos : Nat) (b : UInt8) : Prop :=
  match place pos with
  | none => b = 0
  | some o => o < v.image.length → b = v.image.byte o

/-- A read of `p` at `off` that gives the file's bytes and is short only at its end. -/
structure ReadsExactly (content : Nat → UInt8 → Prop) (size : Int) (p : Buffer) (off : Nat)
    (result : ReadResult) : Prop where
  count : result.n = min p.length (size - off).toNat
  ended : result.err = if result.n < p.length ∨ size ≤ off then some .eof else none
  filled : Filled (fun i => content (off + i)) p result.n result.buf

theorem reads_past_end {content : Nat → UInt8 → Prop} {size : Int} {p : Buffer} {off : Nat}
    (past : size ≤ off) : ReadsExactly content size p off ⟨p, 0, some .eof⟩ where
  count := by
    have none_ : (size - off).toNat = 0 := by omega
    rw [none_, Nat.min_zero]
  ended := (if_pos (.inr past)).symm
  filled := filled_start _ p

/-- A loop whose turns fill reads exactly. -/
theorem reads_of_fills {content : Nat → UInt8 → Prop} {size : Int} {p : Buffer} {off : Nat}
    {more : Nat → Bool} {turn : Turn} {fuel : Nat} (inside : (off : Int) < size)
    (asks : ∀ n, more n = true ↔ n < min p.length (size - off).toNat)
    (fills : Fills (fun i => content (off + i)) (min p.length (size - off).toNat) turn)
    (enough : min p.length (size - off).toNat ≤ fuel) :
    ReadsExactly content size p off (shortAtEnd p (readLoop more turn fuel 0 p)) := by
  obtain ⟨last, looped, filled⟩ := readLoop_fills asks fills fuel 0 p p (filled_start _ p)
    (Nat.zero_le _) enough
  rw [looped, shortAtEnd]
  by_cases short : min p.length (size - off).toNat < p.length
  · rw [if_pos ⟨rfl, short⟩]
    exact ⟨rfl, (if_pos (.inl short)).symm, filled⟩
  · rw [if_neg fun both => short both.2]
    have neither : ¬ (min p.length (size - off).toNat < p.length ∨ size ≤ off) := by omega
    exact ⟨rfl, (if_neg neither).symm, filled⟩

/-- `buf` with `piece` for `buf[n:n+run]`. -/
def spliced (buf : Buffer) (n run : Nat) (piece : Buffer) : Buffer :=
  ⟨buf.length, fun i => if n ≤ i ∧ i < n + run then piece.byte (i - n) else buf.byte i⟩

theorem spliced_inside {buf piece : Buffer} {n run i : Nat} (low : n ≤ i) (high : i < n + run) :
    (spliced buf n run piece).byte i = piece.byte (i - n) := if_pos ⟨low, high⟩

theorem spliced_outside {buf piece : Buffer} {n run i : Nat} (out : i < n ∨ n + run ≤ i) :
    (spliced buf n run piece).byte i = buf.byte i := if_neg (by omega)

/-- A read into `buf[n:n+run]` at `disk`. -/
def readInto (v : Volume) (buf : Buffer) (n run : Nat) (disk : Int) :
    Except ReadError Buffer :=
  match v.readSome ⟨run, fun k => buf.byte (n + k)⟩ disk with
  | .ok piece => .ok (spliced buf n run piece)
  | _ => .error .disk

def zeroInto (buf : Buffer) (n run : Nat) : Buffer := spliced buf n run ⟨run, fun _ => 0⟩

theorem fill_inside (r : Reader) (buf : Buffer) {disk i : Nat} (within : i < buf.length)
    (inside : disk + i < r.image.length) :
    (r.fill buf (int64 disk)).byte i = r.image.byte (disk + i) := by
  have fits := r.fits
  have same : int64 disk = disk := int64_same _ (by omega) (by omega)
  rw [same]
  simp only [Reader.fill, Int.toNat_natCast]
  rw [if_pos ⟨by omega, within, by omega⟩]

theorem readSome_volume (v : Volume) (buf : Buffer) (disk : Int) :
    v.readSome buf disk = .ok (v.fill buf disk) := by
  simp [Reader.readSome, v.sectioned]

theorem readInto_ok (v : Volume) (buf : Buffer) (n run : Nat) (disk : Int) :
    readInto v buf n run disk = .ok (spliced buf n run
      (v.fill ⟨run, fun k => buf.byte (n + k)⟩ disk)) := by
  rw [readInto, readSome_volume]

/-- A read into a new buffer. -/
def readNew (v : Volume) (size : Nat) (disk : Int) : Except ReadError Buffer :=
  match v.readSome ⟨size, fun _ => 0⟩ disk with
  | .ok b => .ok b
  | _ => .error .disk

theorem readNew_ok (v : Volume) (size : Nat) (disk : Int) :
    readNew v size disk = .ok (v.fill ⟨size, fun _ => 0⟩ disk) := by
  rw [readNew, readSome_volume]

/-- The bytes the volume has there are read, and nothing else is written. -/
theorem readInto_volume (v : Volume) (buf : Buffer) (n run disk : Nat) :
    ∃ next, readInto v buf n run (int64 disk) = .ok next ∧
      next.length = buf.length ∧
      (∀ i, i < n ∨ n + run ≤ i → next.byte i = buf.byte i) ∧
      ∀ i, n ≤ i → i < n + run → disk + (i - n) < v.image.length →
        next.byte i = v.image.byte (disk + (i - n)) := by
  refine ⟨_, readInto_ok v buf n run (int64 disk), rfl, ?_, ?_⟩
  · intro i out
    rw [spliced_outside out]
  · intro i low high inside
    rw [spliced_inside low high]
    exact fill_inside v.toReader ⟨run, fun k => buf.byte (n + k)⟩ (show i - n < run by omega) inside

/-! Files of extents. -/

/-- A run of blocks of a file: in the file, on the disk, and how many. Of a tree's fields and
of a block map the sums stay far below what an int64 holds. -/
structure Extent where
  logical : Nat
  phys : Nat
  length : Nat
  unwritten : Bool
  deriving DecidableEq

structure ExtFile where
  v : Volume
  blockSize : Nat
  size : Int
  ex : List Extent

namespace ExtFile

variable (f : ExtFile)

def endsBehind (lb i : Nat) : Bool :=
  match f.ex[i]? with
  | some e => e.logical + e.length > lb
  | none => false

/-- The run at position `pos` of the file with `left` bytes wanted: where it is on the disk,
unless it reads as zeros, and its length. -/
def runAt (pos left : Nat) : Option Nat × Nat :=
  let lb := pos / f.blockSize
  let inn := pos % f.blockSize
  match f.ex[Search (f.endsBehind lb) f.ex.length]? with
  | none => (none, left)
  | some e =>
      if e.logical ≤ lb ∧ e.unwritten = false then
        (some ((e.phys + (lb - e.logical)) * f.blockSize + inn),
          min ((e.logical + e.length - lb) * f.blockSize - inn) left)
      else if e.logical > lb then (none, min ((e.logical - lb) * f.blockSize - inn) left)
      else (none, min ((e.logical + e.length - lb) * f.blockSize - inn) left)

def turn (off want : Nat) : Turn := fun n buf =>
  match f.runAt (off + n) (want - n) with
  | (some disk, run) => do
      let next ← readInto f.v buf n run (int64 disk)
      return (next, run)
  | (none, run) => .ok (zeroInto buf n run, run)

def readAt (p : Buffer) (off : Nat) : ReadResult :=
  if (off : Int) ≥ f.size then ⟨p, 0, some .eof⟩
  else
    let want := min p.length (f.size - off).toNat
    shortAtEnd p (readLoop (fun n => n < want) (f.turn off want) want 0 p)

end ExtFile

/-- The block on the disk that block `lb` of a file has, by its extents. -/
def extentBlock : List Extent → Nat → Option Nat
  | [], _ => none
  | e :: rest, lb =>
      if e.logical ≤ lb ∧ lb < e.logical + e.length then
        if e.unwritten then none else some (e.phys + (lb - e.logical))
      else extentBlock rest lb

/-- Where byte `pos` of a file is, by the blocks of the file. -/
def placeIn (blockSize : Nat) (block : Nat → Option Nat) (pos : Nat) : Option Nat :=
  (block (pos / blockSize)).map fun b => b * blockSize + pos % blockSize

/-- Sorted, and no block in two of them. -/
def Disjoint (ex : List Extent) : Prop := ex.Pairwise fun a b => a.logical + a.length ≤ b.logical

theorem extentBlock_none {ex : List Extent} {lb : Nat}
    (apart : ∀ e ∈ ex, ¬ (e.logical ≤ lb ∧ lb < e.logical + e.length)) :
    extentBlock ex lb = none := by
  induction ex with
  | nil => rfl
  | cons e rest ih =>
      rw [extentBlock, if_neg (apart e (List.mem_cons_self ..))]
      exact ih fun next listed => apart next (List.mem_cons_of_mem _ listed)

theorem extentBlock_mem {ex : List Extent} (disjoint : Disjoint ex) {e : Extent} (listed : e ∈ ex)
    {lb : Nat} (holds : e.logical ≤ lb ∧ lb < e.logical + e.length) :
    extentBlock ex lb = if e.unwritten then none else some (e.phys + (lb - e.logical)) := by
  induction ex with
  | nil => cases listed
  | cons first rest ih =>
      obtain ⟨before, disjoint⟩ := List.pairwise_cons.mp disjoint
      cases listed with
      | head => rw [extentBlock, if_pos holds]
      | tail _ listed =>
          have gap := before e listed
          rw [extentBlock, if_neg (by omega)]
          exact ih disjoint listed

/-- A run: all its bytes are where the first one is, or nowhere. -/
structure RunAt (place : Nat → Option Nat) (pos left : Nat) (run : Option Nat × Nat) : Prop where
  progress : 0 < run.2
  inside : run.2 ≤ left
  places : ∀ j, j < run.2 → place (pos + j) = run.1.map (· + j)

theorem place_of_block {blockSize logical phys pos : Nat}
    (low : logical ≤ pos / blockSize) :
    (phys + (pos / blockSize - logical)) * blockSize + pos % blockSize =
      phys * blockSize + (pos - logical * blockSize) := by
  have parts := Nat.div_add_mod pos blockSize
  have starts : logical * blockSize ≤ pos / blockSize * blockSize :=
    Nat.mul_le_mul_right blockSize low
  rw [Nat.add_mul, Nat.sub_mul, Nat.mul_comm (pos / blockSize)]
  rw [Nat.mul_comm (pos / blockSize)] at starts
  omega

/-- Up to the end of block `stop - 1` there is something left, and it ends there. -/
theorem run_to {blockSize stop pos : Nat} (blocks : 0 < blockSize) (behind : pos / blockSize < stop) :
    pos % blockSize < (stop - pos / blockSize) * blockSize ∧
      ∀ j, j < (stop - pos / blockSize) * blockSize - pos % blockSize →
        pos / blockSize ≤ (pos + j) / blockSize ∧ (pos + j) / blockSize < stop := by
  have parts := Nat.div_add_mod pos blockSize
  have within := Nat.mod_lt pos blocks
  have one : 1 * blockSize ≤ (stop - pos / blockSize) * blockSize :=
    Nat.mul_le_mul_right blockSize (by omega)
  have starts : pos / blockSize * blockSize ≤ stop * blockSize :=
    Nat.mul_le_mul_right blockSize (Nat.le_of_lt behind)
  refine ⟨by omega, fun j short => ⟨Nat.div_le_div_right (Nat.le_add_right pos j), ?_⟩⟩
  rw [Nat.sub_mul] at short
  apply Nat.div_lt_of_lt_mul
  rw [Nat.mul_comm blockSize stop]
  rw [Nat.mul_comm blockSize] at parts
  omega

namespace ExtFile

variable {f : ExtFile}

/-- The search finds the first extent that ends behind the block. -/
theorem search_extent (disjoint : Disjoint f.ex) (lb : Nat) :
    let i := Search (f.endsBehind lb) f.ex.length
    (∀ k e, f.ex[k]? = some e → k < i → e.logical + e.length ≤ lb) ∧
      ∀ e, f.ex[i]? = some e → lb < e.logical + e.length := by
  have mono : ∀ a b, a ≤ b → b < f.ex.length →
      f.endsBehind lb a = true → f.endsBehind lb b = true := by
    intro a b order within holds
    obtain rfl | before := Nat.eq_or_lt_of_le order
    · exact holds
    · have gap : f.ex[a].logical + f.ex[a].length ≤ f.ex[b].logical :=
        List.pairwise_iff_getElem.mp disjoint a b (by omega) within before
      simp only [endsBehind, List.getElem?_eq_getElem (show a < f.ex.length by omega),
        List.getElem?_eq_getElem within, gt_iff_lt, decide_eq_true_eq] at holds ⊢
      omega
  obtain ⟨_, below, above⟩ := search_least f.ex.length mono
  constructor
  · intro k e found low
    have fails := below k low
    simpa [endsBehind, found] using fails
  · intro e found
    have within : Search (f.endsBehind lb) f.ex.length < f.ex.length :=
      (List.getElem?_eq_some_iff.mp found).1
    have holds := above _ (Nat.le_refl _) within
    simpa [endsBehind, found] using holds

/-- Each turn's run, in the three cases of the code: a mapped extent, a gap before the next
extent, an extent that is not written. -/
theorem runAt_spec (blocks : 0 < f.blockSize) (disjoint : Disjoint f.ex) (pos left : Nat)
    (more : 0 < left) :
    RunAt (placeIn f.blockSize (extentBlock f.ex)) pos left (f.runAt pos left) := by
  obtain ⟨below, above⟩ := search_extent disjoint (pos / f.blockSize)
  unfold runAt
  simp only
  cases found : f.ex[Search (f.endsBehind (pos / f.blockSize)) f.ex.length]? with
  | none =>
      refine ⟨more, Nat.le_refl _, fun j _ => ?_⟩
      have later : pos / f.blockSize ≤ (pos + j) / f.blockSize :=
        Nat.div_le_div_right (Nat.le_add_right pos j)
      have none_ : extentBlock f.ex ((pos + j) / f.blockSize) = none := by
        apply extentBlock_none
        intro e listed holds
        obtain ⟨k, within, rfl⟩ := List.getElem_of_mem listed
        have past := List.getElem?_eq_none_iff.mp found
        have ended := below k _ (List.getElem?_eq_getElem within) (by omega)
        omega
      rw [placeIn, none_]
      rfl
  | some e =>
      have behind := above e found
      have listed : e ∈ f.ex := List.mem_of_getElem? found
      have held {j : Nat} (low : e.logical ≤ pos / f.blockSize)
          (short : j < (e.logical + e.length - pos / f.blockSize) * f.blockSize -
            pos % f.blockSize) :
          e.logical ≤ (pos + j) / f.blockSize ∧
            (pos + j) / f.blockSize < e.logical + e.length := by
        have within := (run_to blocks behind).2 j short
        omega
      simp only
      by_cases mapped : e.logical ≤ pos / f.blockSize ∧ e.unwritten = false
      · rw [if_pos mapped]
        have some_ := (run_to blocks behind).1
        refine ⟨?_, Nat.min_le_right _ _, fun j short => ?_⟩
        · change 0 < min _ _
          omega
        · change j < min _ _ at short
          have holds := held mapped.1 (j := j) (by omega)
          rw [placeIn, extentBlock_mem disjoint listed holds, mapped.2]
          have first := @place_of_block _ _ e.phys _ mapped.1
          have here := @place_of_block _ _ e.phys _ holds.1
          have starts : e.logical * f.blockSize ≤ pos := by
            calc e.logical * f.blockSize ≤ pos / f.blockSize * f.blockSize :=
                  Nat.mul_le_mul_right _ mapped.1
              _ ≤ pos := Nat.div_mul_le_self pos f.blockSize
          simp only [Bool.false_eq_true, if_false, Option.map_some]
          rw [here, first]
          congr 1
          omega
      · rw [if_neg mapped]
        by_cases hole : e.logical > pos / f.blockSize
        · rw [if_pos hole]
          obtain ⟨some_, within⟩ := run_to blocks hole
          refine ⟨?_, Nat.min_le_right _ _, fun j short => ?_⟩
          · change 0 < min _ _
            omega
          · change j < min _ _ at short
            have between := within j (by omega)
            have none_ : extentBlock f.ex ((pos + j) / f.blockSize) = none := by
              apply extentBlock_none
              intro other member holds
              obtain ⟨k, inRange, rfl⟩ := List.getElem_of_mem member
              obtain ⟨at_, same⟩ := List.getElem?_eq_some_iff.mp found
              by_cases before : k < Search (f.endsBehind (pos / f.blockSize)) f.ex.length
              · have ended := below k _ (List.getElem?_eq_getElem inRange) before
                omega
              · obtain same_ | after := Nat.eq_or_lt_of_le (Nat.le_of_not_lt before)
                · subst same_
                  rw [same] at holds
                  omega
                · have gap := List.pairwise_iff_getElem.mp disjoint _ k at_ inRange after
                  rw [same] at gap
                  omega
            rw [placeIn, none_]
            rfl
        · rw [if_neg hole]
          have unwritten : e.unwritten = true := by
            cases written : e.unwritten with
            | true => rfl
            | false => exact absurd ⟨Nat.le_of_not_lt hole, written⟩ mapped
          have some_ := (run_to blocks behind).1
          refine ⟨?_, Nat.min_le_right _ _, fun j short => ?_⟩
          · change 0 < min _ _
            omega
          · change j < min _ _ at short
            have holds := held (Nat.le_of_not_lt hole) (j := j) (by omega)
            rw [placeIn, extentBlock_mem disjoint listed holds, unwritten]
            rfl

theorem turn_fills (blocks : 0 < f.blockSize) (disjoint : Disjoint f.ex) (off want : Nat) :
    Fills (fun i => Content f.v (placeIn f.blockSize (extentBlock f.ex)) (off + i)) want
      (f.turn off want) := by
  intro n buf more
  have spec := runAt_spec blocks disjoint (off + n) (want - n) (by omega)
  unfold turn
  obtain ⟨progress, inside, places⟩ := spec
  cases run : f.runAt (off + n) (want - n) with
  | mk disk run_ =>
      rw [run] at progress inside places
      simp only at progress inside places
      have place (i : Nat) (low : n ≤ i) (high : i < n + run_) :
          placeIn f.blockSize (extentBlock f.ex) (off + i) = disk.map (· + (i - n)) := by
        have spot : off + i = off + n + (i - n) := by omega
        rw [spot]
        exact places (i - n) (by omega)
      cases disk with
      | none =>
          refine ⟨(zeroInto buf n run_, run_), rfl, progress, by simp only; omega, rfl, ?_, ?_⟩
          · intro i low high
            rw [Content, place i low high]
            exact spliced_inside low high
          · exact fun i out => spliced_outside out
      | some disk =>
          obtain ⟨next, read, length, others, bytes⟩ := readInto_volume f.v buf n run_ disk
          refine ⟨(next, run_), ?_, progress, by simp only; omega, length, ?_, others⟩
          · simp only [read]
            rfl
          · intro i low high
            rw [Content, place i low high]
            exact bytes i low high

theorem readAt_exact (blocks : 0 < f.blockSize) (disjoint : Disjoint f.ex) (p : Buffer) (off : Nat) :
    ReadsExactly (Content f.v (placeIn f.blockSize (extentBlock f.ex))) f.size p off
      (f.readAt p off) := by
  unfold readAt
  by_cases past : (off : Int) ≥ f.size
  · rw [if_pos past]
    exact reads_past_end past
  · rw [if_neg past]
    exact reads_of_fills (by omega) (fun n => decide_eq_true_iff) (turn_fills blocks disjoint off _)
      (Nat.le_refl _)

end ExtFile

end ProxmoxBackup.FileReads
