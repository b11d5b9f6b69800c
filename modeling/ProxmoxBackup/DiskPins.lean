import Mathlib.Data.List.Forall2
import Mathlib.Tactic.Common

/-! The disks of a machine set (gui/diskpin.go): where a run finds each of them among the disks
present now, and of which disk it leaves partitions out. -/
namespace ProxmoxBackup.DiskPins

abbrev Bytes := List UInt8

def ascii (s : String) : Bytes := s.toList.map fun c => c.toNat.toUInt8

structure PhysicalDiskInfo where
  DevicePath : Bytes
  UniqueID : Bytes
  OtherIDs : List Bytes

def stableDiskIDPrefixes : List Bytes := [ascii "serial:", ascii "guid:", ascii "sig:", ascii "byid:"]

def isStableDiskID (id : Bytes) : Bool :=
  stableDiskIDPrefixes.any fun p => p.isPrefixOf id && decide (p.length < id.length)

def diskIDsOf (d : PhysicalDiskInfo) : List Bytes :=
  (if d.UniqueID ≠ [] then [d.UniqueID] else []) ++ d.OtherIDs

section

variable (trim : Bytes → Bytes)

/-- strings.EqualFold, for text of ASCII. -/
def equalFold (a b : Bytes) : Bool :=
  let fold : Bytes → Bytes := List.map fun c => if 65 ≤ c ∧ c ≤ 90 then c + 32 else c
  fold a = fold b

def driveNumber (s : Bytes) : Option Bytes :=
  let marker := ascii "PhysicalDrive"
  if s.length ≤ marker.length ∨ ¬ equalFold (s.take marker.length) marker then none
  else if (s.drop marker.length).all fun c => decide (48 ≤ c ∧ c ≤ 57) then
    some (s.drop marker.length)
  else none

/-- The prefixes `\\\\.\\`, `\\\\?\\`, `//./` and `//?/`. -/
def devicePrefixes : List Bytes :=
  [[92, 92, 46, 92], [92, 92, 63, 92], [47, 47, 46, 47], [47, 47, 63, 47]]

def normalizePhysicalDrivePath (ref : Bytes) : Option Bytes := do
  let s := trim ref
  let s := match devicePrefixes.find? (·.isPrefixOf s) with
    | some p => s.drop p.length
    | none => s
  let number ← driveNumber s
  return [92, 92, 46, 92] ++ ascii "PhysicalDrive" ++ number

/-- The form two device paths are compared in. -/
def canonicalDevicePath (p : Bytes) : Bytes :=
  (normalizePhysicalDrivePath trim p).getD (trim p)

/-- The disk of each identity: the first that has it. -/
def addID (path : Bytes) (byID : List (Bytes × Bytes)) (id : Bytes) : List (Bytes × Bytes) :=
  if isStableDiskID id ∧ (byID.lookup id).isNone then byID ++ [(id, path)] else byID

def diskByID (present : List PhysicalDiskInfo) : List (Bytes × Bytes) :=
  present.foldl (fun byID d => (diskIDsOf d).foldl (addID d.DevicePath) byID) []

/-- The identity recorded for the disk at an index; none where it was saved without one. -/
def idAt (ids : List Bytes) (i : Nat) : Bytes := ids[i]?.getD []

/-- A disk that is not connected. -/
structure Missing where
  dev : Bytes
  id : Bytes

structure Moved where
  dev : Bytes
  id : Bytes
  cur : Bytes

structure Resolved where
  paths : List Bytes
  moved : List Moved
  checked : Bool

/-- The loop over the saved disks, from an index. -/
def resolveFrom (ids : List Bytes) (byID : List (Bytes × Bytes)) :
    Nat → List Bytes → Except Missing Resolved
  | _, [] => .ok ⟨[], [], true⟩
  | i, dev :: devices => do
      let id := idAt ids i
      if isStableDiskID id then
        match byID.lookup id with
        | none => .error ⟨dev, id⟩
        | some cur =>
            let rest ← resolveFrom ids byID (i + 1) devices
            let moved := if canonicalDevicePath trim cur ≠ canonicalDevicePath trim dev then
              [⟨dev, id, cur⟩] else []
            return ⟨cur :: rest.paths, moved ++ rest.moved, true⟩
      else
        let rest ← resolveFrom ids byID (i + 1) devices
        return ⟨dev :: rest.paths, rest.moved, true⟩

def resolveSetDiskPaths (devices ids : List Bytes) (present : List PhysicalDiskInfo) :
    Except Missing Resolved :=
  let byID := diskByID present
  if ¬ ids.any isStableDiskID ∨ byID = [] then .ok ⟨devices, [], false⟩
  else resolveFrom trim ids byID 0 devices

/-- Drops a disk given twice. -/
def uniqueDevicePaths : List Bytes → List Bytes → List Bytes
  | _, [] => []
  | seen, path :: rest =>
      let key := canonicalDevicePath trim path
      if seen.contains key then uniqueDevicePaths seen rest
      else path :: uniqueDevicePaths (key :: seen) rest

/-- The devices that a run reads. -/
def resolvedDisks (r : Resolved) : List Bytes :=
  if r.checked then uniqueDevicePaths trim [] r.paths else r.paths

/-! The partitions that are left out. -/

structure Part where
  Start : Nat
  Size : Nat
  Number : Int
  Label : Bytes
  deriving DecidableEq

structure PartitionSkip where
  DiskID : Bytes
  Device : Bytes
  part : Part
  deriving DecidableEq

def skipDiskIndex (skip : PartitionSkip) (devices ids : List Bytes) : Option Nat :=
  (List.range devices.length).find? fun i =>
    (skip.DiskID ≠ [] ∧ idAt ids i = skip.DiskID) ∨
      (skip.DiskID = [] ∧ idAt ids i = [] ∧
        canonicalDevicePath trim (devices[i]?.getD []) = canonicalDevicePath trim skip.Device)

/-- The path that the partition of a skip is left out of. -/
def skipPath (skip : PartitionSkip) (devices ids paths : List Bytes) : Option Bytes := do
  let i ← skipDiskIndex trim skip devices ids
  paths[i]?

def skipsByDevice (devices ids paths : List Bytes) :
    List PartitionSkip → (Bytes → List Part) × List Bytes
  | [] => (fun _ => [], [])
  | s :: skips =>
      let (byDev, dropped) := skipsByDevice devices ids paths skips
      match skipPath trim s devices ids paths with
      | none => (byDev, (s.part.Label ++ ascii " on " ++ s.Device) :: dropped)
      | some path => (Function.update byDev path (s.part :: byDev path), dropped)

end

/-! What a run does. -/

/-- The disk saved at an index carries this identity. -/
def Pinned (ids : List Bytes) (i : Nat) : Prop := isStableDiskID (idAt ids i) = true

/-- A disk with the identity is present at the path. -/
def Carries (present : List PhysicalDiskInfo) (id path : Bytes) : Prop :=
  ∃ d ∈ present, id ∈ diskIDsOf d ∧ d.DevicePath = path

/-- Left-out partitions follow their disk: those of a path are the parts of the skips that go
there, and each disk and each skip goes where the identity is. A skip without one goes to no
disk found by its identity, of those whose path is `free`. -/
structure Follows (trim : Bytes → Bytes) (free : Bytes → Prop) (devices ids : List Bytes)
    (present : List PhysicalDiskInfo) (skips : List PartitionSkip) (r : Resolved) : Prop where
  read : ∀ i < devices.length, Pinned ids i → ∃ path, Carries present (idAt ids i) path ∧
    r.paths[i]? = some path ∧ ∃ q ∈ resolvedDisks trim r,
      canonicalDevicePath trim q = canonicalDevicePath trim path
  parts : ∀ path, (skipsByDevice trim devices ids r.paths skips).1 path =
    (skips.filter fun s => skipPath trim s devices ids r.paths = some path).map (·.part)
  own : ∀ s ∈ skips, isStableDiskID s.DiskID = true → ∀ path,
    skipPath trim s devices ids r.paths = some path → Carries present s.DiskID path
  other : ∀ s ∈ skips, s.DiskID = [] → ∀ path, skipPath trim s devices ids r.paths = some path →
    ∀ i cur, Pinned ids i → r.paths[i]? = some cur → free cur →
      canonicalDevicePath trim path ≠ canonicalDevicePath trim cur

/-- No disk saved without an identity is saved at the path. -/
def Apart (trim : Bytes → Bytes) (devices ids : List Bytes) (cur : Bytes) : Prop :=
  ∀ i dev, devices[i]? = some dev → idAt ids i = [] →
    canonicalDevicePath trim dev ≠ canonicalDevicePath trim cur

variable {trim : Bytes → Bytes} {devices ids : List Bytes} {present : List PhysicalDiskInfo}
  {skips : List PartitionSkip} {r : Resolved}

theorem addID_mem {path : Bytes} {byID : List (Bytes × Bytes)} {id : Bytes} {found : Bytes × Bytes}
    (member : found ∈ addID path byID id) : found ∈ byID ∨ found = (id, path) := by
  rw [addID] at member
  split at member
  · exact (List.mem_append.mp member).imp_right List.mem_singleton.mp
  · exact .inl member

theorem addIDs_mem {path : Bytes} {known : List Bytes} {byID : List (Bytes × Bytes)}
    {found : Bytes × Bytes} (member : found ∈ known.foldl (addID path) byID) :
    found ∈ byID ∨ found.1 ∈ known ∧ found.2 = path := by
  induction known generalizing byID with
  | nil => exact .inl member
  | cons id rest ih =>
      obtain earlier | ⟨listed, same⟩ := ih member
      · obtain before | rfl := addID_mem earlier
        · exact .inl before
        · exact .inr ⟨List.mem_cons_self, rfl⟩
      · exact .inr ⟨List.mem_cons_of_mem _ listed, same⟩

/-- What is found of an identity is the path of a disk that carries it. -/
theorem diskByID_carries {id path : Bytes} (found : (diskByID present).lookup id = some path) :
    Carries present id path := by
  have member : (id, path) ∈ diskByID present := by
    obtain ⟨before, after, same, -⟩ := List.lookup_eq_some_iff.mp found
    rw [same]
    exact List.mem_append_right _ List.mem_cons_self
  -- The identities of the disks before are in the map already.
  have spread (disks : List PhysicalDiskInfo) (byID : List (Bytes × Bytes))
      (listed : (id, path) ∈
        disks.foldl (fun byID d => (diskIDsOf d).foldl (addID d.DevicePath) byID) byID) :
      (id, path) ∈ byID ∨ Carries disks id path := by
    induction disks generalizing byID with
    | nil => exact .inl listed
    | cons d rest ih =>
        obtain earlier | ⟨other, member, carries, same⟩ := ih _ listed
        · obtain before | ⟨carries, same⟩ := addIDs_mem earlier
          · exact .inl before
          · exact .inr ⟨d, List.mem_cons_self, carries, same.symm⟩
        · exact .inr ⟨other, List.mem_cons_of_mem _ member, carries, same⟩
  obtain missing | carries := spread present [] member
  · cases missing
  · exact carries

/-- The path of a saved disk: that of its identity, or the one it was saved with. -/
def Placed (ids : List Bytes) (byID : List (Bytes × Bytes)) (i : Nat) (dev path : Bytes) : Prop :=
  if isStableDiskID (idAt ids i) then byID.lookup (idAt ids i) = some path else path = dev

theorem resolveFrom_ok {byID : List (Bytes × Bytes)} {i : Nat}
    (ran : resolveFrom trim ids byID i devices = .ok r) :
    r.checked = true ∧ List.Forall₂ (fun n path => Placed ids byID n.1 n.2 path)
      ((List.range' i devices.length).zip devices) r.paths := by
  induction devices generalizing i r with
  | nil =>
      obtain rfl := Except.ok.inj ran
      exact ⟨rfl, .nil⟩
  | cons dev rest ih =>
      rw [resolveFrom] at ran
      simp only at ran
      split at ran
      · rename_i stable
        split at ran
        · cases ran
        · rename_i cur found
          match later : resolveFrom trim ids byID (i + 1) rest with
          | .error missing =>
              rw [later] at ran
              cases ran
          | .ok after =>
              rw [later] at ran
              obtain rfl := Except.ok.inj ran
              refine ⟨rfl, .cons ?_ (ih later).2⟩
              rw [Placed, if_pos stable]
              exact found
      · rename_i unstable
        match later : resolveFrom trim ids byID (i + 1) rest with
        | .error missing =>
            rw [later] at ran
            cases ran
        | .ok after =>
            rw [later] at ran
            obtain rfl := Except.ok.inj ran
            refine ⟨rfl, .cons ?_ (ih later).2⟩
            rw [Placed, if_neg unstable]

/-- In a checked run, every saved disk has its path. -/
theorem resolveSetDiskPaths_placed (started : resolveSetDiskPaths trim devices ids present = .ok r)
    (checked : r.checked = true) : r.paths.length = devices.length ∧
      ∀ i dev path, devices[i]? = some dev → r.paths[i]? = some path →
        Placed ids (diskByID present) i dev path := by
  rw [resolveSetDiskPaths] at started
  split at started
  · obtain rfl := Except.ok.inj started
    cases checked
  · have placed := (resolveFrom_ok started).2
    have length := placed.length_eq
    rw [List.length_zip, List.length_range', Nat.min_self] at length
    refine ⟨length.symm, fun i dev path saved found => ?_⟩
    have zipped : ((List.range' 0 devices.length).zip devices)[i]? = some (i, dev) := by
      have inside := (List.getElem?_eq_some_iff.mp saved).1
      rw [List.getElem?_zip_eq_some]
      refine ⟨?_, saved⟩
      rw [List.getElem?_range' inside]
      simp
    have both := List.forall₂_iff_get.mp placed
    obtain ⟨insideZip, hereZip⟩ := List.getElem?_eq_some_iff.mp zipped
    obtain ⟨inside, here⟩ := List.getElem?_eq_some_iff.mp found
    have got := both.2 i insideZip inside
    rw [List.get_eq_getElem, List.get_eq_getElem, hereZip, here] at got
    exact got

theorem uniqueDevicePaths_covers {path : Bytes} {paths : List Bytes} (listed : path ∈ paths)
    (seen : List Bytes) : canonicalDevicePath trim path ∈ seen ∨
      ∃ q ∈ uniqueDevicePaths trim seen paths,
        canonicalDevicePath trim q = canonicalDevicePath trim path := by
  induction paths generalizing seen with
  | nil => cases listed
  | cons first rest ih =>
      rw [uniqueDevicePaths]
      split
      · rename_i known
        obtain rfl | later := List.mem_cons.mp listed
        · exact .inl (List.contains_iff_mem.mp known)
        · exact ih later seen
      · obtain rfl | later := List.mem_cons.mp listed
        · exact .inr ⟨path, List.mem_cons_self, rfl⟩
        · obtain known | ⟨q, member, same⟩ := ih later (canonicalDevicePath trim first :: seen)
          · obtain same | known := List.mem_cons.mp known
            · exact .inr ⟨first, List.mem_cons_self, same.symm⟩
            · exact .inl known
          · exact .inr ⟨q, List.mem_cons_of_mem _ member, same⟩

theorem skipsByDevice_parts (paths : List Bytes) (skips : List PartitionSkip) (path : Bytes) :
    (skipsByDevice trim devices ids paths skips).1 path =
      (skips.filter fun s => skipPath trim s devices ids paths = some path).map (·.part) := by
  induction skips with
  | nil => rfl
  | cons s rest ih =>
      rw [skipsByDevice]
      match goes : skipPath trim s devices ids paths with
      | none =>
          rw [List.filter_cons_of_neg (by simp [goes])]
          exact ih
      | some other =>
          by_cases same : path = other
          · subst same
            rw [List.filter_cons_of_pos (by simp [goes]), List.map_cons, ← ih]
            exact Function.update_self ..
          · rw [List.filter_cons_of_neg (by simp [goes, Ne.symm same])]
            exact (Function.update_of_ne same ..).trans ih

/-- The saved disk that a skip belongs to, and its path. -/
theorem skipPath_some {s : PartitionSkip} {paths : List Bytes} {path : Bytes}
    (goes : skipPath trim s devices ids paths = some path) :
    ∃ i dev, devices[i]? = some dev ∧ paths[i]? = some path ∧ idAt ids i = s.DiskID := by
  obtain ⟨i, found, here⟩ := Option.bind_eq_some_iff.mp goes
  have inside := List.mem_range.mp (List.mem_of_find?_eq_some found)
  refine ⟨i, devices.get ⟨i, inside⟩, List.getElem?_eq_getElem inside, here, ?_⟩
  have kept := List.find?_some found
  rw [decide_eq_true_eq] at kept
  obtain ⟨-, same⟩ | ⟨empty, unsaved, -⟩ := kept
  · exact same
  · exact unsaved.trans empty.symm

theorem not_stable_nil : isStableDiskID [] = false := rfl

/-- strings.TrimSpace, for text with no other blanks than spaces. -/
def trimSpaces (s : Bytes) : Bytes :=
  ((s.dropWhile (· = 32)).reverse.dropWhile (· = 32)).reverse

def sda : Bytes := ascii "/dev/sda"
def sdb : Bytes := ascii "/dev/sdb"
def sdc : Bytes := ascii "/dev/sdc"
def serial : Bytes := ascii "serial:A"

/-- A skip of the disk with the serial number, and one of the disk that has no identity. -/
def skipBoth : List PartitionSkip :=
  [⟨serial, sda, ⟨2048, 4096, 1, []⟩⟩, ⟨[], sdb, ⟨1024, 512, 2, []⟩⟩]

end ProxmoxBackup.DiskPins
