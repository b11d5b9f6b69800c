import ProxmoxBackup.BoundedReads

/-! The extended attributes of an NTFS file, parseEAs of gui/imagefs/ntfs_ea.go: entries
of a stored next offset, flags, the lengths of the name and the value, the name, a NUL
and the value. -/

namespace ProxmoxBackup.ExtendedAttributes

open GoValues BoundedReads Slices LittleEndian

structure EA where
  name : List UInt8
  flags : UInt8
  value : List UInt8
  deriving DecidableEq

/-- The fixed part of an entry. -/
structure Header where
  next : Nat
  flags : UInt8
  nameLen : Nat
  valLen : Nat
  deriving DecidableEq

def Header.size (h : Header) : Nat := 8 + h.nameLen + 1 + h.valLen

def headerAt (b : List UInt8) (off : Nat) : Outcome Empty Header := do
  let next ← readNumber b off 4
  let flags ← readByte b (off + 4)
  let nameLen ← readByte b (off + 5)
  let valLen ← readNumber b (off + 6) 2
  pure ⟨next, flags, nameLen.toNat, valLen⟩

def upper (c : UInt8) : UInt8 := if 97 ≤ c ∧ c ≤ 122 then c - 32 else c

/-- "$KERNEL." -/
def kernelPrefix : List UInt8 := [36, 75, 69, 82, 78, 69, 76, 46]

/-- Whether ToUpper of the name has the prefix: only ASCII letters have its letters as
their upper case. -/
def isKernel (name : List UInt8) : Bool := (name.take 8).map upper == kernelPrefix

/-- An entry's attribute, unless only Windows itself may set it. -/
def attributeAt (b : List UInt8) (off : Nat) (h : Header) : Outcome Empty (List EA) := do
  let name ← cut b (off + 8) (off + 8 + h.nameLen)
  if isKernel name then pure []
  else do
    let value ← cut b (off + 8 + h.nameLen + 1) (off + 8 + h.nameLen + 1 + h.valLen)
    pure [⟨name, h.flags, value⟩]

/-- The content's end stops the walk, and a zero offset or an entry that runs past it. -/
def parseFrom (b : List UInt8) (off : Nat) (out : List EA) : Outcome Empty (List EA) :=
  if _ : off + 8 ≤ b.length then
    headerAt b off >>= fun h =>
      if h.nameLen = 0 ∨ off + h.size > b.length then .ok out
      else attributeAt b off h >>= fun eas =>
        if _ : h.next = 0 then .ok (out ++ eas) else parseFrom b (off + h.next) (out ++ eas)
  else .ok out
termination_by b.length - off
decreasing_by omega

def parseEAs (b : List UInt8) : Outcome Empty (List EA) := parseFrom b 0 []

def valueBytes (eas : List EA) : Nat := (eas.flatMap (·.value)).length

/-! What the walk goes over. -/

/-- The header at an offset, where the walk takes an entry there. -/
def entryAt (b : List UInt8) (off : Nat) : Option Header :=
  if off + 8 ≤ b.length then
    let h : Header := ⟨decode (slice b off 4), b.getD (off + 4) 0, (b.getD (off + 5) 0).toNat,
      decode (slice b (off + 6) 2)⟩
    if h.nameLen = 0 ∨ off + h.size > b.length then none else some h
  else none

/-- The offsets the stored next offsets lead to. -/
inductive Visits (b : List UInt8) : Nat → Prop where
  | first : Visits b 0
  | next {off : Nat} {h : Header} (visited : Visits b off) (here : entryAt b off = some h)
      (more : h.next ≠ 0) : Visits b (off + h.next)

/-- No entry starts inside the one before it. -/
def Apart (b : List UInt8) : Prop :=
  ∀ off h, Visits b off → entryAt b off = some h → h.next = 0 ∨ h.size ≤ h.next

theorem headerAt_entry {b : List UInt8} {off : Nat} (inside : off + 8 ≤ b.length) :
    ∃ h, headerAt b off = .ok h ∧
      entryAt b off = if h.nameLen = 0 ∨ off + h.size > b.length then none else some h := by
  have flags : b.getD (off + 4) 0 = b.get ⟨off + 4, by omega⟩ := by
    simp [List.getD, List.getElem?_eq_getElem (show off + 4 < b.length by omega)]
  have name : b.getD (off + 5) 0 = b.get ⟨off + 5, by omega⟩ := by
    simp [List.getD, List.getElem?_eq_getElem (show off + 5 < b.length by omega)]
  refine ⟨⟨decode (slice b off 4), b.getD (off + 4) 0, (b.getD (off + 5) 0).toNat,
    decode (slice b (off + 6) 2)⟩, ?_, by rw [entryAt, if_pos inside]⟩
  rw [headerAt, readNumber_inside (by omega), Outcome.ok_bind, readByte_inside (by omega),
    Outcome.ok_bind, readByte_inside (by omega), Outcome.ok_bind, readNumber_inside (by omega),
    Outcome.ok_bind, flags, name]
  rfl

/-- An entry that fits gives no more value bytes than it says. -/
theorem attributeAt_fits {b : List UInt8} {off : Nat} {h : Header}
    (fits : off + h.size ≤ b.length) :
    ∃ eas, attributeAt b off h = .ok eas ∧ valueBytes eas ≤ h.valLen := by
  unfold Header.size at fits
  unfold attributeAt
  rw [cut_inside (by omega) (by omega), Outcome.ok_bind]
  split
  · exact ⟨[], rfl, Nat.zero_le _⟩
  · rw [cut_inside (by omega) (by omega), Outcome.ok_bind]
    refine ⟨_, rfl, ?_⟩
    simp only [valueBytes, List.flatMap_cons, List.flatMap_nil, List.append_nil]
    rw [slice_length (by omega)]
    omega

theorem valueBytes_append (first second : List EA) :
    valueBytes (first ++ second) = valueBytes first + valueBytes second := by
  simp [valueBytes]

/-- From any offset the walk ends inside the buffer; over entries that are apart, with no
more value bytes than the buffer holds behind it. -/
theorem parseFrom_spec (b : List UInt8) (off : Nat) (out : List EA) :
    ∃ eas, parseFrom b off out = .ok (out ++ eas) ∧
      (Apart b → Visits b off → valueBytes eas ≤ b.length - off) := by
  induction off, out using parseFrom.induct b with
  | case1 off out inside step =>
      obtain ⟨h, header, entry⟩ := headerAt_entry inside
      rw [parseFrom, dif_pos inside, header, Outcome.ok_bind]
      by_cases stops : h.nameLen = 0 ∨ off + h.size > b.length
      · exact ⟨[], by rw [if_pos stops, List.append_nil], fun _ _ => Nat.zero_le _⟩
      · rw [if_neg stops] at entry
        have fits : off + h.size ≤ b.length := by omega
        have size : h.valLen + 9 ≤ h.size := by
          unfold Header.size
          omega
        obtain ⟨eas, given, bytes⟩ := attributeAt_fits fits
        rw [if_neg stops, given, Outcome.ok_bind]
        by_cases last : h.next = 0
        · exact ⟨eas, by rw [dif_pos last], fun _ _ => by omega⟩
        · obtain ⟨rest, walked, bound⟩ := step h eas last
          refine ⟨eas ++ rest, by rw [dif_neg last, walked, List.append_assoc], ?_⟩
          intro apart visited
          have behind := bound apart (.next visited entry last)
          have past := apart off h visited entry
          rw [valueBytes_append]
          omega
  | case2 off out outside =>
      rw [parseFrom, dif_neg outside]
      exact ⟨[], by rw [List.append_nil], fun _ _ => Nat.zero_le _⟩

end ProxmoxBackup.ExtendedAttributes
