import ProxmoxBackup.PxarWalk

/-! What the walk over an archive keeps to, whatever bytes its streams hold. -/

namespace ProxmoxBackup.PxarWalk

open Actions GoValues LittleEndian PxarFormat
open Catalog (Bytes joinArchivePath)
open FileContent (PXAR_ENTRY PXAR_FILENAME PXAR_PAYLOAD_REF)

variable {σ Err : Type}

/-- The length of what a section reads from. -/
def PXARReader.sourceLength (pr : PXARReader) : Source → Nat
  | .ra => pr.ra.length
  | .payloadRA => (pr.payloadRA.map Stream.length).getD 0
  | .checkedPayload _ _ => (pr.payloadRA.map Stream.length).getD 0

/-- Only a walk that was itself told to start outside reads there, and that once. -/
def Inside (pr : PXARReader) (startOffset : Int) : Use → Prop
  | .header offset => offset = startOffset ∨ 0 ≤ offset ∧ offset ≤ pr.size
  | .content offset n => 0 ≤ offset ∧ 0 ≤ n ∧ offset + n ≤ pr.size
  | .payloadHeader offset => 0 ≤ offset ∧ offset ≤ pr.sourceLength .payloadRA
  | .handed s => 0 ≤ s.offset ∧ 0 ≤ s.size ∧ s.offset + s.size ≤ pr.sourceLength s.source
  | .entered => True
  | .left => True

def headerOf : Use → Option Int
  | .header offset => some offset
  | _ => none

def headers (uses : List Use) : List Int := uses.filterMap headerOf

structure Safe (pr : PXARReader) (startOffset : Int) (uses : List Use) : Prop where
  inside : ∀ u ∈ uses, Inside pr startOffset u
  forward : (headers uses).Pairwise fun before after => before + 16 ≤ after
  nested : ∀ before, before <+: uses → before.count .left ≤ before.count .entered

/-- The walk comes to an end, and a panic is only ever a record that no slice can hold. -/
def HoldsUp (pr : PXARReader) (startOffset : Int)
    (ran : Option (Exit (WalkError Err) × Walk σ)) : Prop :=
  ∃ exit after, ran = some (exit, after) ∧ Safe pr startOffset after.uses ∧
    (exit = .panicked → maxAlloc < pr.size)

/-- Inside the record at o, the reader at x. -/
structure Within (pr : PXARReader) (startOffset o x : Int) (w : Walk σ) : Prop where
  safe : Safe pr startOffset w.uses
  depth : w.uses.count .entered = w.uses.count .left + w.pathStack.length
  passed : ∀ h ∈ headers w.uses, h ≤ o
  place : w.offset = x

/-- Between two records. -/
structure Ready (pr : PXARReader) (startOffset : Int) (w : Walk σ) : Prop where
  safe : Safe pr startOffset w.uses
  depth : w.uses.count .entered = w.uses.count .left + w.pathStack.length
  passed : ∀ h ∈ headers w.uses, h + 16 ≤ w.offset
  place : w.offset = startOffset ∨ 0 ≤ w.offset ∧ w.offset ≤ pr.size

def Out (pr : PXARReader) (startOffset : Int) (exit : Exit (WalkError Err)) (w : Walk σ) : Prop :=
  Safe pr startOffset w.uses ∧ (exit = .panicked → maxAlloc < pr.size)

/-- A record of n bytes at o that the stream has. -/
structure HasRecord (pr : PXARReader) (o : Int) (n : Nat) : Prop where
  low : 0 ≤ o
  header : 16 ≤ n
  fits : o + n ≤ pr.size

/-- No reference can wrap around the end of the payload stream. -/
def RefsFit (pr : PXARReader) : Prop :=
  pr.lazyPayload = true → ∀ p, pr.payloadRA = some p → p.length + 8 < 2 ^ 63

section

variable {pr : PXARReader} {startOffset o x : Int} {w : Walk σ} {uses : List Use}

theorem size_lt (pr : PXARReader) : pr.size < 2 ^ 63 := by
  have fits := pr.ra.fits
  rw [PXARReader.size]
  exact_mod_cast fits

theorem headers_snoc (uses : List Use) (u : Use) :
    headers (uses ++ [u]) = headers uses ++ (headerOf u).toList := by
  simp only [headers, List.filterMap_append]
  cases u <;> rfl

theorem Safe.snoc {u : Use} (safe : Safe pr startOffset uses) (inside : Inside pr startOffset u)
    (forward : ∀ offset, u = .header offset → ∀ h ∈ headers uses, h + 16 ≤ offset)
    (nested : (uses ++ [u]).count .left ≤ (uses ++ [u]).count .entered) :
    Safe pr startOffset (uses ++ [u]) := by
  constructor
  · intro v member
    cases List.mem_append.mp member with
    | inl earlier => exact safe.inside v earlier
    | inr last => exact List.mem_singleton.mp last ▸ inside
  · rw [headers_snoc]
    apply List.pairwise_append.mpr
    refine ⟨safe.forward, ?_, ?_⟩
    · cases u <;> simp [headerOf]
    · intro h earlier offset last
      cases u with
      | header next =>
          have same : offset = next := by simpa [headerOf] using last
          subst same
          exact forward offset rfl h earlier
      | _ => simp [headerOf] at last
  · intro before within
    cases List.prefix_concat_iff.mp within with
    | inl whole => exact whole ▸ nested
    | inr earlier => exact safe.nested before earlier

/-- One more use, but for a header: what it counts as tells the depth behind it. -/
theorem Within.logged {u : Use} {v : Walk σ} (within : Within pr startOffset o x w)
    (inside : Inside pr startOffset u) (plain : headerOf u = none) (uses : v.uses = w.uses ++ [u])
    (offset : v.offset = w.offset)
    (depth : (w.uses ++ [u]).count .entered = (w.uses ++ [u]).count .left + v.pathStack.length) :
    Within pr startOffset o x v := by
  constructor
  · rw [uses]
    apply within.safe.snoc inside
    · intro offset is
      rw [is] at plain
      cases plain
    · omega
  · rw [uses]
    exact depth
  · rw [uses, headers_snoc, plain]
    simpa using within.passed
  · exact offset.trans within.place

theorem count_snoc (uses : List Use) (u counted : Use) :
    (uses ++ [u]).count counted = uses.count counted + if u = counted then 1 else 0 := by
  rw [List.count_append, List.count_singleton]
  simp only [beq_iff_eq]

/-- A read or a section, which no count of folders sees. -/
theorem Within.use {u : Use} (within : Within pr startOffset o x w)
    (inside : Inside pr startOffset u) (plain : headerOf u = none) (entered : u ≠ .entered)
    (left : u ≠ .left) : Within pr startOffset o x (w.use u) := by
  apply within.logged (v := w.use u) inside plain rfl rfl
  rw [count_snoc, count_snoc, if_neg entered, if_neg left]
  exact within.depth

/-- A change to the other variables. -/
theorem Within.same {v : Walk σ} (within : Within pr startOffset o x w) (offset : v.offset = w.offset)
    (stack : v.pathStack = w.pathStack) (uses : v.uses = w.uses) :
    Within pr startOffset o x v := by
  constructor
  · exact uses ▸ within.safe
  · rw [uses, stack]
    exact within.depth
  · exact uses ▸ within.passed
  · exact offset.trans within.place

theorem Within.out (within : Within pr startOffset o x w) {exit : Exit (WalkError Err)}
    (returns : exit ≠ .panicked) : Out pr startOffset exit w :=
  ⟨within.safe, fun panicked => (returns panicked).elim⟩

theorem Within.enter (within : Within pr startOffset o x w) (subPath : Bytes) :
    Within pr startOffset o x (w.enter subPath) := by
  have depth := within.depth
  apply within.logged (u := .entered) (v := w.enter subPath) trivial rfl rfl rfl
  rw [count_snoc, count_snoc, if_pos rfl, if_neg nofun]
  show w.uses.count .entered + 1 = w.uses.count .left + 0 + (w.pathStack.length + 1)
  omega

/-- A folder is left only off the stack, and what is on the stack was entered. -/
theorem Within.leave (within : Within pr startOffset o x w) :
    Within pr startOffset o x w.leave := by
  unfold Walk.leave
  split
  · rename_i above rest stack
    have depth := within.depth
    rw [stack, List.length_cons] at depth
    apply within.logged (u := .left)
      (v := { w.use .left with pathStack := rest, currentPath := above }) trivial rfl rfl rfl
    rw [count_snoc, count_snoc, if_neg nofun, if_pos rfl]
    show w.uses.count .entered + 0 = w.uses.count .left + 1 + rest.length
    omega
  · exact within.same rfl rfl rfl

/-! The parts of a record's case. -/

theorem change_meets {f : Walk σ → Walk σ} {y : Int} (keeps : Within pr startOffset o y (f w)) :
    ((change f : Step σ Err Unit) w).Meets (fun _ => Within pr startOffset o y)
      (Out pr startOffset) :=
  .went keeps

theorem skip_meets (n y : Int) (within : Within pr startOffset o x w) (lands : int64 (x + n) = y) :
    ((skip n : Step σ Err Unit) w).Meets (fun _ => Within pr startOffset o y)
      (Out pr startOffset) := by
  apply change_meets
  exact ⟨within.safe, within.depth, within.passed, by rw [within.place, lands]⟩

theorem readAt_inside (stream : Stream) (n : Nat) (off : Int) (low : 0 ≤ off)
    (high : off + n ≤ stream.length) : stream.readAt n off = .ok (stream.bytes off.toNat n) := by
  rw [Stream.readAt, if_neg (by omega), if_neg (by omega)]

theorem readAt_short (stream : Stream) (n : Nat) (off : Int) (low : 0 ≤ off)
    (high : stream.length < off + n) : stream.readAt n off = .error .eof := by
  rw [Stream.readAt, if_neg (by omega), if_pos high]

theorem read_meets (n y : Int) (failed : ReadError → WalkError Err)
    (within : Within pr startOffset o x w) (low : 0 ≤ x) (positive : 0 ≤ n)
    (lands : x + n = y) (fits : y ≤ pr.size) :
    (pr.read n failed w).Meets (fun _ => Within pr startOffset o y) (Out pr startOffset) := by
  have small := size_lt pr
  have exact_ : int64 (w.offset + n) = y := by
    rw [within.place, lands]
    exact int64_same y (by omega) (by omega)
  have used : Within pr startOffset o x (w.use (.content w.offset n)) := by
    have inside : Inside pr startOffset (.content w.offset n) := by
      rw [Inside, within.place]
      omega
    exact within.use inside rfl nofun nofun
  unfold PXARReader.read
  rw [exact_, if_neg (by omega)]
  split
  · rename_i large
    exact .ended ⟨used.safe, fun _ => by omega⟩
  · rw [readAt_inside pr.ra n.toNat w.offset (by rw [within.place]; exact low)
      (by rw [within.place]; simp only [PXARReader.size] at fits; omega)]
    exact .went ⟨used.safe, used.depth, used.passed, rfl⟩

theorem emit_meets (cb : Callback σ Err) (entry : PXARTreeEntry) (payload : Option Section)
    (within : Within pr startOffset o x w)
    (inside : ∀ s, payload = some s → Inside pr startOffset (.handed s)) :
    (emit cb entry payload w).Meets (fun _ => Within pr startOffset o x) (Out pr startOffset) := by
  -- Nothing but what the callback has gathered and the section's use is new.
  have kept (v : Walk σ) (known : Within pr startOffset o x v) :
      (emitted cb entry payload v).Meets (fun _ => Within pr startOffset o x)
        (Out pr startOffset) := by
    unfold emitted
    split
    · exact .went (known.same rfl rfl rfl)
    · exact .ended ((known.same rfl rfl rfl).out nofun)
  cases payload with
  | none => exact kept w within
  | some s => exact kept (w.use (.handed s)) (within.use (inside s rfl) rfl nofun nofun)

theorem matchingHeader_missed (offset size : Nat) (err : ReadError) :
    PXARReader.matchingHeader offset size (.error err) = .error (.readHeader offset err) := rfl

/-- A file's header was read, so the stream has all of it. -/
theorem checked_header (p : Stream) (offset size : Nat) (low : offset ≤ p.length)
    (checked : PXARReader.checkPayloadHeader p offset size = .ok ()) :
    offset + 16 ≤ p.length := by
  have small := p.fits
  have plain : int64 (offset : Int) = offset := int64_same _ (by omega) (by omega)
  by_contra behind
  have missed : p.readAt 16 (int64 offset) = .error .eof := by
    rw [plain]
    exact readAt_short p 16 offset (by omega) (by omega)
  rw [PXARReader.checkPayloadHeader, missed, matchingHeader_missed] at checked
  cases checked

/-- Where no reference wraps around, the bounds check keeps the section in the stream. -/
theorem payloadSection_meets (path : Bytes) (offset size : Nat)
    (within : Within pr startOffset o x w) (fit : RefsFit pr) :
    (pr.payloadSection path offset size w : Turn (Walk σ) (WalkError Err) Section).Meets
      (fun s after => Within pr startOffset o x after ∧ Inside pr startOffset (.handed s))
      (Out pr startOffset) := by
  unfold PXARReader.payloadSection
  split
  · exact .ended (within.out nofun)
  rename_i p stream
  have small := p.fits
  have length : (pr.payloadRA.map Stream.length).getD 0 = p.length := by
    rw [stream]
    rfl
  split
  · exact .ended (within.out nofun)
  rename_i bounds
  obtain ⟨low, fits⟩ : offset ≤ p.length ∧ size ≤ p.length := by omega
  have plain : int64 (offset : Int) = offset := int64_same _ (by omega) (by omega)
  have whole : int64 (size : Int) = size := int64_same _ (by omega) (by omega)
  -- The sum the code compares is the real one unless it reaches 2 ^ 64.
  have sum (apart : offset + 16 + size < 2 ^ 64) : offset + 16 + size ≤ p.length := by
    rw [uint64_same _ apart] at bounds
    omega
  have inside (apart : offset + 16 + size < 2 ^ 64) (source : Source)
      (of : pr.sourceLength source = p.length) :
      Inside pr startOffset (.handed ⟨source, int64 (int64 offset + 16), int64 size⟩) := by
    have room := sum apart
    have start : int64 ((offset : Int) + 16) = offset + 16 := int64_same _ (by omega) (by omega)
    show 0 ≤ int64 (int64 offset + 16) ∧ 0 ≤ int64 size ∧
      int64 (int64 offset + 16) + int64 size ≤ pr.sourceLength source
    rw [plain, start, whole, of]
    omega
  split
  · rename_i deferred
    have short := fit deferred p stream
    exact .went ⟨within, inside (by omega) _ length⟩
  · have used : Within pr startOffset o x (w.use (.payloadHeader (int64 offset))) := by
      have read : Inside pr startOffset (.payloadHeader (int64 offset)) := by
        rw [Inside, PXARReader.sourceLength, plain, length]
        omega
      exact within.use read rfl nofun nofun
    -- Here a sum that wraps around is caught: there is no whole header at the offset.
    dsimp only
    split
    · exact .ended (used.out nofun)
    · rename_i checked
      have header := checked_header p offset size low checked
      exact .went ⟨used, inside (by omega) _ length⟩

theorem referred_meets (path : Bytes) (offset size : Nat) (within : Within pr startOffset o x w)
    (fit : RefsFit pr) :
    (pr.referred path offset size w : Turn (Walk σ) (WalkError Err) (Option Section)).Meets
      (fun payload after => Within pr startOffset o x after ∧
        ∀ s, payload = some s → Inside pr startOffset (.handed s)) (Out pr startOffset) := by
  unfold PXARReader.referred
  split
  · exact pure_meets ⟨within, nofun⟩
  · apply (payloadSection_meets path offset size within fit).bind
    intro s after both
    apply pure_meets
    refine ⟨both.1, ?_⟩
    intro s' same
    cases same
    exact both.2

/-! The cases of the switch: from the start of a record to its end. -/

section

variable {n : Nat} {cb : Callback σ Err}

def content (n : Nat) : Int := int64 (int64 n - 16)

theorem content_eq (has : HasRecord pr o n) : content n = n - 16 := by
  have small := size_lt pr
  obtain ⟨low, header, fits⟩ := has
  rw [content, int64_same n (by omega) (by omega)]
  exact int64_same _ (by omega) (by omega)

theorem after_header (has : HasRecord pr o n) (within : Within pr startOffset o o w) :
    ((skip 16 : Step σ Err Unit) w).Meets (fun _ => Within pr startOffset o (o + 16))
      (Out pr startOffset) := by
  have small := size_lt pr
  obtain ⟨low, header, fits⟩ := has
  have lands : int64 (o + 16) = o + 16 := int64_same (o + 16) (by omega) (by omega)
  exact skip_meets 16 (o + 16) within lands

theorem whole_record (has : HasRecord pr o n) (within : Within pr startOffset o o w) :
    ((skip (int64 n) : Step σ Err Unit) w).Meets (fun _ => Within pr startOffset o (o + n))
      (Out pr startOffset) := by
  have small := size_lt pr
  obtain ⟨low, header, fits⟩ := has
  have length : int64 n = n := int64_same n (by omega) (by omega)
  rw [length]
  exact skip_meets n (o + n) within (int64_same _ (by omega) (by omega))

/-- How most cases begin: over the header, then over the content. -/
theorem content_meets {α : Type} {post : α → Walk σ → Prop} (failed : ReadError → WalkError Err)
    {rest : Bytes → Step σ Err α} (has : HasRecord pr o n) (within : Within pr startOffset o o w)
    (goes_on : ∀ data after, Within pr startOffset o (o + n) after →
      (rest data after).Meets post (Out pr startOffset)) :
    ((do
      skip 16
      let data ← pr.read (content n) failed
      rest data : Step σ Err α) w).Meets post (Out pr startOffset) := by
  apply (after_header has within).bind
  intro _ after at_
  have length := content_eq has
  obtain ⟨low, header, fits⟩ := has
  apply (read_meets (content n) (o + n) failed at_ (by omega) (by omega) (by omega) fits).bind
  exact goes_on

theorem filename_meets (spanMode : Bool) (has : HasRecord pr o n)
    (within : Within pr startOffset o o w) :
    (pr.filename spanMode (content n) w : Turn (Walk σ) (WalkError Err) Unit).Meets
      (fun _ => Within pr startOffset o (o + n)) (Out pr startOffset) := by
  unfold PXARReader.filename
  apply through (fun _ => Within pr startOffset o o)
  · apply choose_meets
    · intro _
      apply (change_meets (within.same rfl rfl rfl)).bind
      intro _ after known
      exact leave_meets _ _ (fun _ => known.out nofun) fun _ => known
    · exact fun _ => pure_meets within
  intro _ after known
  apply content_meets .readFilename has known
  intro data after read
  exact change_meets (read.same rfl rfl rfl)

/-- An entry the callback has had: the reader goes on, or ends with its error. -/
theorem emit_settled (entry : PXARTreeEntry) (payload : Option Section) {y : Int}
    (within : Within pr startOffset o y w)
    (inside : ∀ s, payload = some s → Inside pr startOffset (.handed s)) (lastEmit : Int) :
    ((do
      change fun w => { w with lastEmit := lastEmit }
      emit cb entry payload
      change Walk.settled : Step σ Err Unit) w).Meets (fun _ => Within pr startOffset o y)
      (Out pr startOffset) := by
  apply (change_meets (within.same rfl rfl rfl)).bind
  intro _ emitting known
  apply (emit_meets cb entry payload known inside).bind
  intro _ after had
  exact change_meets (had.same rfl rfl rfl)

theorem directory_meets (mode mtimeSecs uid gid nanos : Nat) {y : Int}
    (within : Within pr startOffset o y w) :
    (PXARReader.directory cb mode mtimeSecs uid gid nanos w).Meets (fun _ => Within pr startOffset o y)
      (Out pr startOffset) := by
  unfold PXARReader.directory
  apply through (fun _ => Within pr startOffset o y)
  · apply choose_meets
    · intro _
      apply (change_meets (within.same rfl rfl rfl)).bind
      intro _ emitting known
      apply (emit_meets cb _ none known nofun).bind
      intro _ after had
      exact change_meets (had.enter _)
    · exact fun _ => change_meets (within.same rfl rfl rfl)
  · intro _ after known
    exact change_meets (known.same rfl rfl rfl)

theorem entry_meets (has : HasRecord pr o n) (within : Within pr startOffset o o w) :
    (pr.entry cb (content n) w).Meets (fun _ => Within pr startOffset o (o + n))
      (Out pr startOffset) := by
  unfold PXARReader.entry
  apply content_meets .readEntry has within
  intro data after read
  apply choose_meets
  · exact fun _ => directory_meets _ _ _ _ _ read
  · exact fun _ => change_meets (read.same rfl rfl rfl)

theorem payload_meets (has : HasRecord pr o n) (within : Within pr startOffset o o w) :
    (pr.payload cb (content n) w).Meets (fun _ => Within pr startOffset o (o + n))
      (Out pr startOffset) := by
  have small := size_lt pr
  have length := content_eq has
  have lands : int64 (o + 16 + content n) = o + n := by
    rw [length]
    have all : o + 16 + (n - 16) = o + n := by omega
    rw [all]
    exact int64_same (o + n) (by have := has.low; omega) (by have := has.fits; omega)
  unfold PXARReader.payload
  apply (after_header has within).bind
  intro _ after at_
  apply through (fun _ => Within pr startOffset o (o + 16))
  · exact leave_meets _ _ (fun _ => at_.out nofun) fun _ => at_
  intro _ after at_
  apply through (fun _ => Within pr startOffset o (o + 16))
  · apply choose_meets
    · intro _
      apply emit_settled _ _ at_
      intro s same
      cases same
      have low := has.low
      have header := has.header
      have fits := has.fits
      show 0 ≤ after.offset ∧ 0 ≤ content n ∧ after.offset + content n ≤ pr.ra.length
      rw [at_.place, length]
      simp only [PXARReader.size] at fits
      omega
    · exact fun _ => pure_meets at_
  · intro _ after at_
    exact skip_meets (content n) (o + n) at_ lands

theorem payloadRef_meets (fit : RefsFit pr) (has : HasRecord pr o n)
    (within : Within pr startOffset o o w) :
    (pr.payloadRef cb (content n) w).Meets (fun _ => Within pr startOffset o (o + n))
      (Out pr startOffset) := by
  unfold PXARReader.payloadRef
  apply content_meets .readReference has within
  intro data after read
  apply through (fun _ => Within pr startOffset o (o + n))
  · exact leave_meets _ _ (fun _ => read.out nofun) fun _ => read
  intro _ after read
  apply choose_meets
  · intro _
    apply (referred_meets _ _ _ read fit).bind
    intro payload resolved both
    exact emit_settled _ _ both.1 both.2 _
  · exact fun _ => pure_meets read

theorem symlink_meets (has : HasRecord pr o n) (within : Within pr startOffset o o w) :
    (pr.symlink cb (content n) w).Meets (fun _ => Within pr startOffset o (o + n))
      (Out pr startOffset) := by
  unfold PXARReader.symlink
  apply content_meets .readSymlink has within
  intro data after read
  apply choose_meets
  · exact fun _ => emit_settled _ none read nofun _
  · exact fun _ => pure_meets read

theorem goodbye_meets (spanMode : Bool) (has : HasRecord pr o n)
    (within : Within pr startOffset o o w) :
    (PXARReader.goodbye spanMode n w : Turn (Walk σ) (WalkError Err) Unit).Meets
      (fun _ => Within pr startOffset o (o + n)) (Out pr startOffset) := by
  unfold PXARReader.goodbye
  apply through (fun _ => Within pr startOffset o o)
  · exact leave_meets _ _ (fun _ => within.out nofun) fun _ => within
  intro _ after known
  apply (whole_record has known).bind
  intro _ after behind
  exact change_meets behind.leave

theorem record_meets (spanMode : Bool) (type : Nat) (fit : RefsFit pr) (has : HasRecord pr o n)
    (within : Within pr startOffset o o w) :
    (pr.record cb spanMode ⟨type, n⟩ w).Meets (fun _ => Within pr startOffset o (o + n))
      (Out pr startOffset) := by
  unfold PXARReader.record
  apply choose_meets
  · exact fun _ => filename_meets spanMode has within
  intro _
  apply choose_meets
  · exact fun _ => entry_meets has within
  intro _
  apply choose_meets
  · exact fun _ => payload_meets has within
  intro _
  apply choose_meets
  · exact fun _ => payloadRef_meets fit has within
  intro _
  apply choose_meets
  · exact fun _ => symlink_meets has within
  intro _
  apply choose_meets
  · exact fun _ => goodbye_meets spanMode has within
  · exact fun _ => whole_record has within

/-! The walk: a record at a time. -/

theorem Ready.out (ready : Ready pr startOffset w) {exit : Exit (WalkError Err)}
    (returns : exit ≠ .panicked) : Out pr startOffset exit w :=
  ⟨ready.safe, fun panicked => (returns panicked).elim⟩

theorem Ready.header (ready : Ready pr startOffset w) :
    Within pr startOffset w.offset w.offset (w.use (.header w.offset)) := by
  have entered : (w.uses ++ [Use.header w.offset]).count .entered = w.uses.count .entered := by
    rw [count_snoc, if_neg nofun, Nat.add_zero]
  have left : (w.uses ++ [Use.header w.offset]).count .left = w.uses.count .left := by
    rw [count_snoc, if_neg nofun, Nat.add_zero]
  constructor
  · apply ready.safe.snoc (u := .header w.offset) ready.place
    · intro offset is
      cases is
      exact ready.passed
    · rw [entered, left]
      exact ready.safe.nested w.uses (List.prefix_refl _)
  · show (w.uses ++ [Use.header w.offset]).count .entered =
      (w.uses ++ [Use.header w.offset]).count .left + w.pathStack.length
    rw [entered, left]
    exact ready.depth
  · show ∀ h ∈ headers (w.uses ++ [Use.header w.offset]), h ≤ w.offset
    rw [headers_snoc]
    intro h member
    cases List.mem_append.mp member with
    | inl earlier =>
        have behind := ready.passed h earlier
        omega
    | inr last =>
        have same : h = w.offset := by simpa [headerOf] using last
        omega
  · rfl

/-- A header that was read lies in the stream, wherever the walk began. -/
theorem readHeader_meets (ready : Ready pr startOffset w) :
    (pr.readHeader w : Turn (Walk σ) (WalkError Err) PXARHeader).Meets
      (fun _ after => Within pr startOffset w.offset w.offset after ∧
        0 ≤ w.offset ∧ w.offset + 16 ≤ pr.size) (Out pr startOffset) := by
  have header := ready.header
  unfold PXARReader.readHeader
  split
  · exact .ended (ready.out nofun)
  cases found : pr.ra.readAt 16 w.offset with
  | error err =>
      cases err with
      | eof => exact .ended (header.out nofun)
      | negativeOffset => exact .ended (header.out nofun)
  | ok raw =>
      -- The sum above may have wrapped around; the stream itself refuses what it lacks.
      obtain ⟨low, high⟩ : 0 ≤ w.offset ∧ w.offset + 16 ≤ pr.ra.length := by
        by_contra outside
        by_cases negative : w.offset < 0
        · rw [Stream.readAt, if_pos negative] at found
          cases found
        · rw [readAt_short pr.ra 16 w.offset (by omega) (by omega)] at found
          cases found
      exact .went ⟨header, low, high⟩

/-- How many headers there is room for from here on. -/
def room (pr : PXARReader) (w : Walk σ) : Nat := (pr.size - max 0 w.offset).toNat / 16

theorem walkStep_keeps (fit : RefsFit pr) (endOffset : Int) (spanMode : Bool)
    (ready : Ready pr startOffset w) :
    (pr.walkStep cb endOffset spanMode w).Meets
      (fun _ after => Ready pr startOffset after ∧ room pr after < room pr w)
      (Out pr startOffset) := by
  have small := size_lt pr
  unfold PXARReader.walkStep
  -- The guards in front of the switch change nothing; the header's read logs its offset.
  apply through (fun _ after => after = w)
  · exact leave_meets _ _ (fun _ => ready.out nofun) fun _ => rfl
  intro _ top is
  subst is
  apply (readHeader_meets ready).bind
  intro header read found
  obtain ⟨within, low, high⟩ := found
  apply through (fun _ after => after = read ∧ 16 ≤ header.size)
  · exact leave_meets _ _ (fun _ => within.out nofun) fun large => ⟨rfl, by omega⟩
  intro _ sized both
  obtain ⟨is, large⟩ := both
  subst is
  apply through (fun _ after => after = sized ∧ top.offset + header.size ≤ pr.size)
  · apply leave_meets
    · exact fun _ => within.out nofun
    · intro fits
      have remaining : (pr.size - sized.offset) % 2 ^ 64 = pr.size - top.offset := by
        rw [within.place]
        exact Int.emod_eq_of_lt (by omega) (by omega)
      rw [remaining] at fits
      exact ⟨rfl, by omega⟩
  intro _ bounded both
  obtain ⟨is, fits⟩ := both
  subst is
  -- Now the record is known to lie in the stream, and its case ends where it ends.
  apply (record_meets spanMode header.type fit ⟨low, large, fits⟩ within).weaken
  intro _ next behind
  have place := behind.place
  refine ⟨⟨behind.safe, behind.depth, ?_, Or.inr ⟨by omega, by omega⟩⟩, ?_⟩
  · intro h member
    have passed := behind.passed h member
    omega
  · simp only [room, place]
    omega

theorem start_ready (gathered : σ) (startOffset : Int) (initialPath : Bytes) (rootSeen : Bool) :
    Ready pr startOffset (PXARReader.start gathered startOffset initialPath rootSeen) := by
  constructor
  · constructor
    · nofun
    · exact List.Pairwise.nil
    · intro before within
      rw [List.prefix_nil.mp within]
      exact Nat.le_refl _
  · rfl
  · nofun
  · exact Or.inl rfl

theorem walkRange_holds_up (fit : RefsFit pr) (gathered : σ) (startOffset endOffset : Int)
    (initialPath : Bytes) (rootSeen : Bool) :
    HoldsUp pr startOffset
      (pr.walkRange cb gathered startOffset endOffset initialPath rootSeen) := by
  unfold PXARReader.walkRange
  have turns : room pr (PXARReader.start gathered startOffset initialPath rootSeen) <
      pr.ra.length / 16 + 1 := by
    simp only [room, PXARReader.start, PXARReader.size]
    omega
  exact loop_ends (room pr) (fun _ ready => walkStep_keeps fit endOffset _ ready) _ _
    (start_ready gathered startOffset initialPath rootSeen) turns

end

end

/-- An archive of one stream has no reference to resolve. -/
theorem one_stream_holds_up (ra : Stream) (cb : Callback σ Err) (gathered : σ) :
    HoldsUp (newPXARReaderAt ra) 0 ((newPXARReaderAt ra).walk cb gathered) := by
  have fit : RefsFit (newPXARReaderAt ra) := by
    intro deferred
    cases deferred
  exact walkRange_holds_up fit gathered 0 (newPXARReaderAt ra).size [] false

/-- Whatever archive there is in front of this payload stream, its walk holds up: from the
start of the archive or over any span that a goodbye table may have named. -/
def Survives (payloadRA : Option Stream) (lazyPayload : Bool) : Prop :=
  ∀ (ra : Stream) (metaOnly : Bool) (σ Err : Type) (cb : Callback σ Err) (gathered : σ)
    (startOffset endOffset : Int) (initialPath : Bytes) (rootSeen : Bool),
    HoldsUp ⟨ra, payloadRA, metaOnly, lazyPayload⟩ startOffset
      ((PXARReader.mk ra payloadRA metaOnly lazyPayload).walkRange cb gathered startOffset
        endOffset initialPath rootSeen)

/-- A walk that puts the header checks off sees the length of the payload stream alone. -/
theorem lazy_same (ra p q : Stream) (metaOnly : Bool) (cb : Callback σ Err) (gathered : σ)
    (same : p.length = q.length) :
    (PXARReader.mk ra (some p) metaOnly true).walk cb gathered =
      (PXARReader.mk ra (some q) metaOnly true).walk cb gathered := by
  have sections (path : Bytes) (offset size : Nat) :
      ((PXARReader.mk ra (some p) metaOnly true).payloadSection path offset size :
        Step σ Err Section) =
      (PXARReader.mk ra (some q) metaOnly true).payloadSection path offset size := by
    funext w
    simp only [PXARReader.payloadSection, same, if_true]
  have opened : ((PXARReader.mk ra (some p) metaOnly true).readHeader : Step σ Err PXARHeader) =
      (PXARReader.mk ra (some q) metaOnly true).readHeader := by
    rfl
  have reads (n : Int) (failed : ReadError → WalkError Err) :
      ((PXARReader.mk ra (some p) metaOnly true).read n failed : Step σ Err Bytes) =
      (PXARReader.mk ra (some q) metaOnly true).read n failed := by
    rfl
  simp only [PXARReader.walk, PXARReader.walkRange, PXARReader.walkStep, PXARReader.record,
    PXARReader.filename, PXARReader.entry, PXARReader.payload, PXARReader.payloadRef,
    PXARReader.referred, PXARReader.symlink, sections, opened, reads]
  rfl

/-- A file, and a reference to n bytes at n. -/
def wrappingRecords (n : Nat) : Bytes :=
  header PXAR_FORMAT_VERSION 24 ++ encode 8 2 ++ header PXAR_ENTRY 16 ++
    header PXAR_PAYLOAD_REF 32 ++ encode 8 n ++ encode 8 n

def wrappingMeta (n : Nat) : Stream := ⟨72, fun i => (wrappingRecords n).getD i 0, by decide⟩

def markedPayload (n : Nat) (fits : n < 2 ^ 63) : Stream :=
  ⟨n, fun i => (header PXAR_PAYLOAD_START_MARKER 16).getD i 0, fits⟩

theorem markedPayload_length (n : Nat) (fits : n < 2 ^ 63) : (markedPayload n fits).length = n :=
  rfl

def quiet : Callback Unit Empty := fun _ _ _ => ((), none)

/-- A section from before the start of its stream. -/
def astray : Use → Bool
  | .handed s => s.offset < 0
  | _ => false

theorem astray_breaks {pr : PXARReader} {startOffset : Int}
    {ran : Option (Exit (WalkError Err) × Walk σ)}
    (found : ran.map (fun both => both.2.uses.any astray) = some true) :
    ¬ HoldsUp pr startOffset ran := by
  intro holds
  obtain ⟨exit, after, is, safe, _⟩ := holds
  rw [is] at found
  obtain ⟨u, member, out⟩ := List.any_eq_true.mp (Option.some.inj found)
  have inside := safe.inside u member
  cases u with
  | handed s =>
      have negative : s.offset < 0 := of_decide_eq_true out
      have low : 0 ≤ s.offset := inside.1
      omega
  | _ => cases out

theorem fits_below (k : Fin 8) : 2 ^ 63 - 8 + k.val < 2 ^ 63 := by
  have small := k.isLt
  omega

theorem wrapping_astray : ∀ k : Fin 8,
    ((PXARReader.mk (wrappingMeta (2 ^ 63 - 8 + k.val))
      (some (markedPayload (2 ^ 63 - 8 + k.val) (fits_below k))) false true).walk quiet ()).map
        (fun both => both.2.uses.any astray) = some true := by
  decide +kernel

/-- From 2^63 - 8 bytes of payload on, offset + 16 + size can wrap around to less than the
stream has, and a walk that does not look at the header there hands the section out. -/
theorem walk_survives_iff (payloadRA : Option Stream) (lazyPayload : Bool) :
    Survives payloadRA lazyPayload ↔
      (lazyPayload = true → ∀ p, payloadRA = some p → p.length + 8 < 2 ^ 63) := by
  constructor
  · intro survives deferred p stream
    subst deferred
    subst stream
    by_contra long
    -- Eight lengths are left, and for each the same 72 bytes of metadata wrap around.
    have fits := p.fits
    have small : p.length - (2 ^ 63 - 8) < 8 := by omega
    have length : p.length = 2 ^ 63 - 8 + (p.length - (2 ^ 63 - 8)) := by omega
    have found := wrapping_astray ⟨p.length - (2 ^ 63 - 8), small⟩
    rw [← lazy_same _ p _ _ _ _ (length.trans (markedPayload_length _ _).symm)] at found
    exact astray_breaks found (survives _ false Unit Empty quiet () 0 _ [] false)
  · intro short ra metaOnly σ Err cb gathered startOffset endOffset initialPath rootSeen
    have fit : RefsFit ⟨ra, payloadRA, metaOnly, lazyPayload⟩ := short
    exact walkRange_holds_up fit gathered startOffset endOffset initialPath rootSeen

/-- The readers of both streams open the archive, and an extraction's walk over it hands
out a section that begins before the start of the payload stream. -/
theorem wrapping_reference : ∃ pr : PXARReader,
    newSplitPXARReaderAt (wrappingMeta (2 ^ 63 - 1)) (markedPayload (2 ^ 63 - 1) (by decide)) =
      .ok pr ∧
    ¬ HoldsUp { pr with lazyPayload := true } 0
      (({ pr with lazyPayload := true } : PXARReader).walk quiet ()) := by
  refine ⟨_, rfl, astray_breaks ?_⟩
  decide +kernel

end ProxmoxBackup.PxarWalk
