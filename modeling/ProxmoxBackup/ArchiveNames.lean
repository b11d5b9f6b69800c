import Mathlib.Data.List.Nodup
import Mathlib.Data.List.Perm.Basic
import Mathlib.Logic.Function.Basic
import ProxmoxBackup.LexicalPath

/-! archiveBaseName of gui/backup_inline.go: the archive names of a run's
folders. A path is the list of its runes. filepath.Clean differs between the
operating systems and is a parameter, as is SHA-256. -/

namespace ProxmoxBackup.ArchiveNames

abbrev Text := List Char

def maxLen : Nat := 80

/-- What the loop over the cleaned path writes for a rune. -/
def nameRune (r : Char) : Char :=
  if r.isLower || r.isDigit || r == '_' || r == '-' then r
  else if r.isUpper then r.toLower
  else '_'

/-- strings.Trim(name, "_"). -/
def trimUnderscores (name : Text) : Text :=
  ((name.dropWhile (· == '_')).reverse.dropWhile (· == '_')).reverse

def hexDigit (n : Nat) : Char := "0123456789abcdef".toList.getD n '0'

def hexEncode (bytes : List UInt8) : Text :=
  bytes.flatMap fun b => [hexDigit (b.toNat / 16), hexDigit (b.toNat % 16)]

/-- The names given so far, each with the number of its last use. -/
abbrev Used := Text → Option Nat

def Used.none : Used := fun _ => Option.none

section

variable (clean : Text → Text) (sum256 : Text → List UInt8)

/-- The name before `used` is asked. -/
def sanitized (dir : Text) : Text :=
  let trimmed := trimUnderscores ((clean dir).map nameRune)
  let name := if trimmed = [] then "archive".toList else trimmed
  if name.length > maxLen then
    let suffix := hexEncode ((sum256 (clean dir)).take 4)
    name.take (maxLen - suffix.length - 1) ++ '_' :: suffix
  else name

def archiveBaseName (dir : Text) (used : Used) : Text × Used :=
  let name := sanitized clean sum256 dir
  match used name with
  | some n => (name ++ '-' :: Nat.toDigits 10 (n + 1), Function.update used name (some (n + 1)))
  | none => (name, Function.update used name (some 1))

/-- The folders of a run in their order, each with its archive's name. -/
def baseNames (used : Used) : List Text → List (Text × Text)
  | [] => []
  | dir :: rest =>
      let named := archiveBaseName clean sum256 dir used
      (dir, named.1) :: baseNames named.2 rest

def runNames (dirs : List Text) : List (Text × Text) := baseNames clean sum256 Used.none dirs

/-- setFoldersOf of gui/set_index.go, for a set of folders. -/
def setFoldersOf (trimSpace : Text → Text) (backupDirs : List Text) : List (Text × Text) :=
  runNames clean sum256 ((backupDirs.map trimSpace).filter (· ≠ []))

/-- Undelete and Roll back compute the names a run with the same folders gave. -/
theorem setFoldersOf_run (trimSpace : Text → Text) (dirs : List Text)
    (trimmed : ∀ dir ∈ dirs, trimSpace dir = dir ∧ dir ≠ []) :
    setFoldersOf clean sum256 trimSpace dirs = runNames clean sum256 dirs := by
  have same : dirs.map trimSpace = dirs := by
    rw [List.map_congr_left fun dir member => (trimmed dir member).1, List.map_id']
  rw [setFoldersOf, same, List.filter_eq_self.mpr]
  intro dir member
  exact decide_eq_true (trimmed dir member).2

/-- No two folders share a name, and no folder's name depends on the order. -/
structure Settled (dirs : List Text) : Prop where
  apart : ((runNames clean sum256 dirs).map Prod.snd).Nodup
  stable : ∀ other, other.Perm dirs →
    (runNames clean sum256 other).Perm (runNames clean sum256 dirs)

theorem archiveBaseName_fresh (dir : Text) (used : Used)
    (fresh : used (sanitized clean sum256 dir) = none) :
    archiveBaseName clean sum256 dir used =
      (sanitized clean sum256 dir,
        Function.update used (sanitized clean sum256 dir) (some 1)) := by
  simp only [archiveBaseName, fresh]

/-- Whichever folder comes first has its sanitized name to itself. -/
theorem runNames_cons (dir : Text) (rest : List Text) :
    (dir, sanitized clean sum256 dir) ∈ runNames clean sum256 (dir :: rest) := by
  rw [runNames, baseNames, archiveBaseName_fresh clean sum256 dir Used.none rfl]
  exact List.mem_cons_self

theorem baseNames_plain (used : Used) (dirs : List Text)
    (fresh : ∀ dir ∈ dirs, used (sanitized clean sum256 dir) = none)
    (apart : (dirs.map (sanitized clean sum256)).Nodup) :
    baseNames clean sum256 used dirs = dirs.map fun dir => (dir, sanitized clean sum256 dir) := by
  induction dirs generalizing used with
  | nil => rfl
  | cons dir rest ih =>
      obtain ⟨other, restApart⟩ := List.nodup_cons.mp apart
      rw [baseNames, archiveBaseName_fresh clean sum256 dir used (fresh dir List.mem_cons_self)]
      have later : ∀ next ∈ rest, Function.update used (sanitized clean sum256 dir) (some 1)
          (sanitized clean sum256 next) = none := by
        intro next member
        have differs : sanitized clean sum256 next ≠ sanitized clean sum256 dir :=
          fun same => other (same ▸ List.mem_map_of_mem member)
        rw [Function.update_of_ne differs]
        exact fresh next (List.mem_cons_of_mem dir member)
      exact congrArg _ (ih _ later restApart)

theorem runNames_plain (dirs : List Text) (apart : (dirs.map (sanitized clean sum256)).Nodup) :
    runNames clean sum256 dirs = dirs.map fun dir => (dir, sanitized clean sum256 dir) :=
  baseNames_plain clean sum256 Used.none dirs (fun _ _ => rfl) apart

theorem settled_of_apart (dirs : List Text) (apart : (dirs.map (sanitized clean sum256)).Nodup) :
    Settled clean sum256 dirs := by
  refine ⟨?_, ?_⟩
  · rw [runNames_plain clean sum256 dirs apart, List.map_map]
    exact apart
  · intro other perm
    have otherApart := (perm.map (sanitized clean sum256)).nodup_iff.mpr apart
    rw [runNames_plain clean sum256 dirs apart, runNames_plain clean sum256 other otherApart]
    exact perm.map _

/-- A settled name is the sanitized one: the folder could have come first. -/
theorem Settled.named {dirs : List Text} (settled : Settled clean sum256 dirs) (dir : Text)
    (member : dir ∈ dirs) : (dir, sanitized clean sum256 dir) ∈ runNames clean sum256 dirs :=
  (settled.stable (dir :: dirs.erase dir) (List.perm_cons_erase member).symm).subset
    (runNames_cons clean sum256 dir (dirs.erase dir))

/-- Distinct folders get distinct names that do not depend on the order exactly
if their sanitized names are distinct. -/
theorem archive_names_settled_iff (dirs : List Text) (distinct : dirs.Nodup) :
    Settled clean sum256 dirs ↔ (dirs.map (sanitized clean sum256)).Nodup := by
  constructor
  · intro settled
    refine distinct.map_on ?_
    intro first firstMember second secondMember same
    have both := List.inj_on_of_nodup_map settled.apart
      (settled.named clean sum256 first firstMember)
      (settled.named clean sum256 second secondMember) same
    exact congrArg Prod.fst both
  · exact settled_of_apart clean sum256 dirs

end

/-- filepath.Clean where "/" is the separator. -/
def cleanSlash (text : Text) : Text :=
  let place := (⟨(· == '/'), '.'⟩ : LexicalPath.Lexis Char).join ⟨text.head? == some '/', 0, []⟩ text
  let segments := List.replicate place.ups ['.', '.'] ++ place.names
  if place.rooted then '/' :: ['/'].intercalate segments
  else if segments = [] then ['.'] else ['/'].intercalate segments

theorem archive_names_settled_here :
    Settled cleanSlash (fun _ => []) ["/home/ann".toList, "/srv/data".toList] ↔
      (["/home/ann".toList, "/srv/data".toList].map (sanitized cleanSlash fun _ => [])).Nodup :=
  archive_names_settled_iff cleanSlash (fun _ => []) ["/home/ann".toList, "/srv/data".toList]
    (by decide)

/-- The suffix of the second folder is the third one's own name. -/
theorem archive_names_collide :
    ["/a b".toList, "/a_b".toList, "/a_b-2".toList].Nodup ∧
      ¬Settled cleanSlash (fun _ => []) ["/a b".toList, "/a_b".toList, "/a_b-2".toList] := by
  refine ⟨by decide, fun settled => ?_⟩
  have apart := settled.apart
  revert apart
  decide +kernel

end ProxmoxBackup.ArchiveNames
