import ProxmoxBackup.ExfatListing
import ProxmoxBackup.BoundedReads

/-! The records of an NTFS volume's MFT, parseRecord of gui/imagefs/ntfs.go: the update
sequence is put back in the buffer, sector by sector, and the attributes are read one
behind another. -/

namespace ProxmoxBackup.NtfsRecord

open GoValues BoundedReads Slices LittleEndian
open ExfatListing (utf16String)

abbrev Bytes := List UInt8

structure FileName where
  parent : Nat
  parentSeq : Nat
  name : Bytes
  deriving DecidableEq

structure Stream where
  name : Bytes
  size : Nat
  deriving DecidableEq

structure Record where
  num : Nat
  base : Nat
  seq : Nat
  inUse : Bool
  isDir : Bool
  hasSI : Bool := false
  mtime : Int := 0
  created : Int := 0
  attrs : Nat := 0
  secID : Nat := 0
  names : List FileName := []
  size : Nat := 0
  hasSize : Bool := false
  streams : List Stream := []
  hasEAs : Bool := false
  deriving DecidableEq

/-- "FILE" -/
def magic : Bytes := [70, 73, 76, 69]

def units : Bytes → List Nat
  | low :: high :: rest => decode [low, high] :: units rest
  | _ => []

def decodeUTF16 (b : Bytes) : Bytes := utf16String (units b)

/-- The bytes of `b` at an index that may be negative. -/
def byteAt (b : Bytes) (p : Int) : Outcome Empty UInt8 :=
  if p < 0 then .panicked else readByte b p.toNat

/-- The fix-up of one sector whose last two bytes are at `p`: the buffer with its real
bytes, or nothing where the record is torn. -/
def fixSector (b : Bytes) (usaOff i : Nat) (p : Int) : Outcome Empty (Option Bytes) := do
  let low ← byteAt b p
  let high ← byteAt b (p + 1)
  let usnLow ← readByte b usaOff
  let usnHigh ← readByte b (usaOff + 1)
  if low ≠ usnLow ∨ high ≠ usnHigh then pure none
  else do
    let realLow ← readByte b (usaOff + 2 * i)
    let realHigh ← readByte b (usaOff + 2 * i + 1)
    pure (some ((b.set p.toNat realLow).set (p.toNat + 1) realHigh))

/-- The fix-ups from the i-th on, `left` of them; nothing where the record is torn. -/
def fixups (usaOff : Nat) (stride : Nat) : Nat → Nat → Bytes → Outcome Empty (Option Bytes)
  | 0, _, b => .ok (some b)
  | left + 1, i, b =>
      let p : Int := i * stride - 2
      if p + 2 > b.length then .ok (some b)
      else fixSector b usaOff i p >>= fun fixed =>
        match fixed with
        | none => .ok none
        | some b => fixups usaOff stride left (i + 1) b

/-- The content of a resident attribute that has one inside it. -/
def contentOf (a : Bytes) (nonResident : Bool) : Outcome Empty Bytes :=
  if !nonResident && a.length ≥ 24 then do
    let cl ← readNumber a 16 4
    let co ← readNumber a 20 2
    if co + cl ≤ a.length then cut a co (co + cl) else pure []
  else pure []

def securityID (content : Bytes) (r : Record) : Outcome Empty Record :=
  if content.length ≥ 56 then do
    let secID ← readNumber content 52 4
    pure { r with secID := secID }
  else pure r

/-- $STANDARD_INFORMATION -/
def standardInformation (content : Bytes) (r : Record) : Outcome Empty Record :=
  if content.length ≥ 36 then do
    let created ← readNumber content 0 8
    let mtime ← readNumber content 8 8
    let attrs ← readNumber content 32 4
    securityID content
      { r with hasSI := true, created := int64 created, mtime := int64 mtime, attrs := attrs }
  else pure r

/-- $FILE_NAME, but not the DOS 8.3 alias of a long name. -/
def fileName (content : Bytes) (r : Record) : Outcome Empty Record :=
  if content.length ≥ 66 then do
    let n ← readByte content 64
    let ns ← readByte content 65
    if ns = 2 ∨ 66 + 2 * n.toNat > content.length then pure r
    else do
      let ref ← readNumber content 0 8
      let name ← cut content 66 (66 + 2 * n.toNat)
      pure { r with
        names := r.names ++ [⟨ref % 2 ^ 48, ref / 2 ^ 48, decodeUTF16 name⟩] }
  else pure r

/-- The size of a stream that this attribute tells, none for a later extent. -/
def streamSize (a : Bytes) (nonResident : Bool) (content : Bytes) : Outcome Empty (Option Nat) :=
  if !nonResident then pure (some content.length)
  else if a.length ≥ 56 then do
    let first ← readNumber a 16 8
    if first = 0 then do
      let size ← readNumber a 48 8
      pure (some size)
    else pure none
  else pure none

/-- A named $DATA is an alternate data stream. -/
def namedStream (a : Bytes) (nonResident : Bool) (nameLen : Nat) (content : Bytes) (r : Record) :
    Outcome Empty Record := do
  let nameOff ← readNumber a 10 2
  if nameOff + 2 * nameLen > a.length then pure r
  else do
    let name ← cut a nameOff (nameOff + 2 * nameLen)
    let size ← streamSize a nonResident content
    match size with
    | some size => pure { r with streams := r.streams ++ [⟨decodeUTF16 name, size⟩] }
    | none => pure r

/-- The unnamed $DATA gives the file size. -/
def unnamedStream (a : Bytes) (nonResident : Bool) (content : Bytes) (r : Record) :
    Outcome Empty Record := do
  let size ← streamSize a nonResident content
  match size with
  | some size => pure { r with size := size, hasSize := true }
  | none => pure r

def readAttribute (typ : Nat) (a : Bytes) (r : Record) : Outcome Empty Record := do
  let nonResident ← readByte a 8
  let nameLen ← readByte a 9
  let content ← contentOf a (nonResident ≠ 0)
  if typ = 0x10 then standardInformation content r
  else if typ = 0x30 then fileName content r
  else if typ = 0x80 then
    if nameLen ≠ 0 then namedStream a (nonResident ≠ 0) nameLen.toNat content r
    else unnamedStream a (nonResident ≠ 0) content r
  else if typ = 0xE0 then pure { r with hasEAs := true }
  else pure r

/-- The attributes from an offset on. -/
def attributes (b : Bytes) (used off : Nat) (r : Record) : Outcome Empty Record :=
  if _ : off + 16 ≤ used then
    readNumber b off 4 >>= fun typ =>
      if typ = 0xFFFFFFFF then .ok r
      else readNumber b (off + 4) 4 >>= fun length =>
        if _ : length < 16 ∨ off + length > used then .ok r
        else cut b off (off + length) >>= fun a =>
          readAttribute typ a r >>= fun r => attributes b used (off + length) r
  else .ok r
termination_by used - off
decreasing_by omega

/-- What the header of a record says. -/
def headerOf (num flags seq ref : Nat) : Record where
  num := num
  seq := seq
  inUse := flags % 2 = 1
  isDir := flags / 2 % 2 = 1
  base := if ref % 2 ^ 48 = 0 then num else ref % 2 ^ 48

def ownAttributes (b : Bytes) (r : Record) : Outcome Empty Record := do
  let off ← readNumber b 20 2
  let used ← readNumber b 24 4
  attributes b (min used b.length) off r

/-- The record behind its fix-ups. -/
def fixedRecord (b : Bytes) (num : Nat) : Outcome Empty (Option Record) := do
  let flags ← readNumber b 22 2
  let seq ← readNumber b 16 2
  let ref ← readNumber b 32 8
  if !(headerOf num flags seq ref).inUse then pure (some (headerOf num flags seq ref))
  else do
    let r ← ownAttributes b (headerOf num flags seq ref)
    pure (some r)

def parseRecord (b : Bytes) (num : Nat) : Outcome Empty (Option Record) :=
  if b.length < 48 ∨ b.take 4 ≠ magic then .ok none
  else do
    let usaOff ← readNumber b 4 2
    let usaCount ← readNumber b 6 2
    if usaCount < 2 ∨ usaOff + 2 * usaCount > b.length then pure none
    else do
      let fixed ← fixups usaOff (b.length / (usaCount - 1)) (usaCount - 1) 1 b
      match fixed with
      | none => pure none
      | some b => fixedRecord b num

/-! No bytes make the parser read outside them. -/

theorem byteAt_meets {b : Bytes} {p : Int} (low : 0 ≤ p) (high : p < b.length) :
    (byteAt b p).Meets (fun _ => True) := by
  unfold byteAt
  rw [if_neg (by omega)]
  exact readByte_meets (by omega)

theorem fixSector_meets {b : Bytes} {usaOff i : Nat} {p : Int} (low : 0 ≤ p)
    (high : p + 2 ≤ b.length) (area : usaOff + 2 * i + 2 ≤ b.length) :
    (fixSector b usaOff i p).Meets (fun fixed => ∀ after, fixed = some after →
      after.length = b.length) := by
  refine (byteAt_meets low (by omega)).bind fun first _ => ?_
  refine (byteAt_meets (by omega) (by omega)).bind fun second _ => ?_
  refine (readByte_meets (by omega)).bind fun usnLow _ => ?_
  refine (readByte_meets (by omega)).bind fun usnHigh _ => ?_
  split
  · exact .ok (fun after is => by cases is)
  · refine (readByte_meets (by omega)).bind fun realLow _ => ?_
    refine (readByte_meets (by omega)).bind fun realHigh _ => ?_
    refine .ok (fun after is => ?_)
    cases is
    simp

theorem fixups_meets {usaOff stride : Nat} (wide : 2 ≤ stride) (left i : Nat) (first : 1 ≤ i)
    (b : Bytes) (area : usaOff + 2 * (i + left) ≤ b.length) :
    (fixups usaOff stride left i b).Meets (fun fixed => ∀ after, fixed = some after →
      after.length = b.length) := by
  induction left generalizing i b with
  | zero => exact .ok (fun after is => by cases is; rfl)
  | succ left ih =>
      have place : 2 ≤ i * stride := Nat.le_trans wide (Nat.le_mul_of_pos_left stride first)
      simp only [fixups]
      split
      · exact .ok (fun after is => by cases is; rfl)
      · refine (fixSector_meets (by omega) (by omega) (by omega)).bind fun fixed same => ?_
        cases fixed with
        | none => exact .ok (fun after is => by cases is)
        | some after =>
            have length := same after rfl
            have rest := ih (i + 1) (by omega) after (by omega)
            exact rest.weaken fun fixed keeps last is => (keeps last is).trans length

theorem contentOf_meets (a : Bytes) (nonResident : Bool) :
    (contentOf a nonResident).Meets (fun _ => True) := by
  unfold contentOf
  split
  · next long =>
      simp only [Bool.and_eq_true, decide_eq_true_eq] at long
      refine (readNumber_meets (by omega)).bind fun cl _ => ?_
      refine (readNumber_meets (by omega)).bind fun co _ => ?_
      split
      · next fits => exact (cut_meets (by omega) fits).weaken fun _ _ => trivial
      · exact .ok trivial
  · exact .ok trivial

theorem standardInformation_meets (content : Bytes) (r : Record) :
    (standardInformation content r).Meets (fun _ => True) := by
  unfold standardInformation
  split
  · refine (readNumber_meets (by omega)).bind fun created _ => ?_
    refine (readNumber_meets (by omega)).bind fun mtime _ => ?_
    refine (readNumber_meets (by omega)).bind fun attrs _ => ?_
    unfold securityID
    split
    · refine (readNumber_meets (by omega)).bind fun secID _ => ?_
      exact .ok trivial
    · exact .ok trivial
  · exact .ok trivial

theorem fileName_meets (content : Bytes) (r : Record) :
    (fileName content r).Meets (fun _ => True) := by
  unfold fileName
  split
  · refine (readByte_meets (by omega)).bind fun n _ => ?_
    refine (readByte_meets (by omega)).bind fun ns _ => ?_
    split
    · exact .ok trivial
    · refine (readNumber_meets (by omega)).bind fun ref _ => ?_
      refine (cut_meets (by omega) (by omega)).bind fun name _ => ?_
      exact .ok trivial
  · exact .ok trivial

theorem streamSize_meets (a : Bytes) (nonResident : Bool) (content : Bytes) :
    (streamSize a nonResident content).Meets (fun _ => True) := by
  unfold streamSize
  split
  · exact .ok trivial
  · split
    · refine (readNumber_meets (by omega)).bind fun first _ => ?_
      split
      · refine (readNumber_meets (by omega)).bind fun size _ => ?_
        exact .ok trivial
      · exact .ok trivial
    · exact .ok trivial

theorem readAttribute_meets (typ : Nat) {a : Bytes} (long : 16 ≤ a.length) (r : Record) :
    (readAttribute typ a r).Meets (fun _ => True) := by
  refine (readByte_meets (by omega)).bind fun nonResident _ => ?_
  refine (readByte_meets (by omega)).bind fun nameLen _ => ?_
  refine (contentOf_meets a _).bind fun content _ => ?_
  split
  · exact standardInformation_meets content r
  · split
    · exact fileName_meets content r
    · split
      · split
        · refine (readNumber_meets (by omega)).bind fun nameOff _ => ?_
          split
          · exact .ok trivial
          · refine (cut_meets (by omega) (by omega)).bind fun name _ => ?_
            refine (streamSize_meets a _ content).bind fun size _ => ?_
            cases size with
            | some size => exact .ok trivial
            | none => exact .ok trivial
        · refine (streamSize_meets a _ content).bind fun size _ => ?_
          cases size with
          | some size => exact .ok trivial
          | none => exact .ok trivial
      · split
        · exact .ok trivial
        · exact .ok trivial

theorem attributes_meets {b : Bytes} {used : Nat} (inside : used ≤ b.length) (off : Nat)
    (r : Record) : (attributes b used off r).Meets (fun _ => True) := by
  induction off, r using attributes.induct used with
  | case1 off r room step =>
      rw [attributes, dif_pos room]
      refine (readNumber_meets (by omega)).bind fun typ _ => ?_
      split
      · exact .ok trivial
      · refine (readNumber_meets (by omega)).bind fun length _ => ?_
        split
        · exact .ok trivial
        · next fits =>
            refine (cut_meets (by omega) (by omega)).bind fun a long => ?_
            refine (readAttribute_meets typ (by omega) r).bind fun after _ => ?_
            exact step length fits after
  | case2 off r full =>
      rw [attributes, dif_neg full]
      exact .ok trivial

theorem ownAttributes_meets {b : Bytes} (long : 48 ≤ b.length) (r : Record) :
    (ownAttributes b r).Meets (fun _ => True) := by
  refine (readNumber_meets (by omega)).bind fun off _ => ?_
  refine (readNumber_meets (by omega)).bind fun used _ => ?_
  exact attributes_meets (Nat.min_le_right _ _) off r

theorem fixedRecord_meets {b : Bytes} (long : 48 ≤ b.length) (num : Nat) :
    (fixedRecord b num).Meets (fun _ => True) := by
  refine (readNumber_meets (by omega)).bind fun flags _ => ?_
  refine (readNumber_meets (by omega)).bind fun seq _ => ?_
  refine (readNumber_meets (by omega)).bind fun ref _ => ?_
  cases (headerOf num flags seq ref).inUse with
  | false => exact .ok trivial
  | true => exact (ownAttributes_meets long _).bind fun r _ => .ok trivial

theorem parseRecord_meets (b : Bytes) (num : Nat) : (parseRecord b num).Meets (fun _ => True) := by
  unfold parseRecord
  split
  · exact .ok trivial
  · refine (readNumber_meets (by omega)).bind fun usaOff _ => ?_
    refine (readNumber_meets (by omega)).bind fun usaCount _ => ?_
    split
    · exact .ok trivial
    · next fits =>
        have wide : 2 ≤ b.length / (usaCount - 1) := by
          rw [Nat.le_div_iff_mul_le (by omega)]
          omega
        refine (fixups_meets wide (usaCount - 1) 1 (Nat.le_refl 1) b (by omega)).bind
          fun fixed same => ?_
        cases fixed with
        | none => exact .ok trivial
        | some after =>
            have length := same after rfl
            exact fixedRecord_meets (by omega) num

end ProxmoxBackup.NtfsRecord
