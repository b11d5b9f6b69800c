import Mathlib.Data.List.Induction
import Mathlib.Logic.Function.Iterate
import ProxmoxBackup.LexicalPath

/-! checkRollbackRecord of gui/rollback_safety.go, and the paths UndoRollback and
DeleteRollbackCopies of gui/undelete_rollback.go act on with the record it has
accepted. Paths are texts with "/" as the separator (not Windows); a cleaned
path is a `Place`. Where a set keeps its roll backs depends on the volumes and
home directories and is a parameter; what each call answers is one too. -/

namespace ProxmoxBackup.RecordCheck

open LexicalPath

abbrev Text := List Char

abbrev Folder := Place Char

def slash : Lexis Char := ⟨(· == '/'), '.'⟩

def start (path : Text) : Folder := ⟨path.head? == some '/', 0, []⟩

/-- filepath.Clean. -/
def clean (path : Text) : Folder := (slash.segments path).foldl slash.enter (start path)

/-- filepath.Dir: the path up to its last separator, cleaned. -/
def dir (path : Text) : Folder := (slash.segments path).dropLast.foldl slash.enter (start path)

/-- What follows the last separator. -/
def last (path : Text) : Text := ((slash.segments path).getLast?).getD []

def child (here : Folder) (name : Text) : Folder := { here with names := here.names ++ [name] }

/-- The segments of a cleaned path's text; the root "/" ends in its separator. -/
def cleanedSegments (here : Folder) : List Text :=
  if here.rooted then [] :: here.names
  else if here.ups = 0 ∧ here.names = [] then [['.']]
  else List.replicate here.ups ['.', '.'] ++ here.names

def samePath (a b : Folder) : Bool := a = b

/-- pathWithin: with the separator behind it the text of the root begins the
other's exactly if its segments do. -/
def pathWithin (p root : Folder) : Bool :=
  samePath p root || (cleanedSegments root).isPrefixOf (cleanedSegments p)

def safetyFolder : Text := ".pbs-rollback".toList

def recordName : Text := "rollback.json".toList

/-- unsafeNameChars.ReplaceAllString: each run of other characters is one "_". -/
def replaceUnsafe : Bool → Text → Text
  | _, [] => []
  | within, c :: rest =>
      if c.isAlphanum || c == '.' || c == '_' || c == ' ' || c == '-' then
        c :: replaceUnsafe false rest
      else if within then replaceUnsafe true rest
      else '_' :: replaceUnsafe true rest

def trimSpaces (name : Text) : Text :=
  ((name.dropWhile (· == ' ')).reverse.dropWhile (· == ' ')).reverse

def safetyName (setName : Text) : Text :=
  let n := trimSpaces (replaceUnsafe false setName)
  (if n = [] ∨ n = ['.'] ∨ n = ['.', '.'] then "set".toList else n).take 60

structure SetJob where
  id : String
  name : Text
  folders : List Text

structure RollbackMove where
  source : Text
  target : Text
  deriving DecidableEq

structure Record where
  jobId : String
  status : String
  moved : List RollbackMove
  restored : List Text
  createdDirs : List Text
  removedDirs : List Text
  safetyRoots : List Text

inductive RecordError
  | otherSet
  | noSafetyFolder
  | notKeptHere (root : Text)
  | notItsOwn
  | outsideSet (path : Text)
  | outsideSafety (path : Text)
  deriving DecidableEq

/-- The calls of the two functions that change or walk the disk. -/
inductive Op
  | remove (path : Text)
  | mkdirAll (folder : Folder)
  | rename (source target : Text)
  | write (path temp : Text)
  | walk (root : Text)
  | removeAll (root : Text)
  deriving DecidableEq

/-- What the disk answers: which calls go through, which kept copies are there,
which safety folders hold no file but the record, and whether a roll back of
the set is running; and the name a record is first written under. -/
structure Answers where
  ok : Op → Bool
  kept : Text → Bool
  emptied : Text → Bool
  held : Bool
  temp : Text

section

variable (safetyRoots : Text → List Folder)

/-- A set's own safety folders. -/
def bases (job : SetJob) : List Folder :=
  job.folders.flatMap fun d => (safetyRoots d).map fun r => child r (safetyName job.name)

def inSet (job : SetJob) (p : Text) : Bool :=
  job.folders.any fun f => pathWithin (clean p) (clean f)

def inSafety (m : Record) (p : Text) : Bool :=
  m.safetyRoots.any fun r => pathWithin (clean p) (clean r)

def safetyOK (job : SetJob) (root : Text) : Bool :=
  (bases safetyRoots job).any fun b => samePath (dir root) b

def checkMove (job : SetJob) (m : Record) (mv : RollbackMove) : Option RecordError :=
  if !inSet job mv.source then some (.outsideSet mv.source)
  else if !inSafety m mv.target then some (.outsideSafety mv.target)
  else none

def checkInSet (job : SetJob) (paths : List Text) : Option RecordError :=
  (paths.find? fun p => !inSet job p).map .outsideSet

def checkRollbackRecord (job : SetJob) (manifestPath : Text) (m : Record) : Option RecordError :=
  if m.jobId ≠ job.id then some .otherSet
  else if m.safetyRoots = [] then some .noSafetyFolder
  else match m.safetyRoots.find? fun r => !safetyOK safetyRoots job r with
    | some r => some (.notKeptHere r)
    | none =>
        if !m.safetyRoots.any fun r => samePath (dir manifestPath) (clean r) then some .notItsOwn
        else (checkInSet job m.restored).or <|
          (m.moved.findSome? (checkMove job m)).or <|
            (checkInSet job m.createdDirs).or (checkInSet job m.removedDirs)

/-- The cleaned path is a rollback.json below a safety folder. -/
def checkManifestPath (path : Folder) : Bool :=
  path.names.getLast? == some recordName &&
    (if path.rooted || 0 < path.ups then path.names else path.names.drop 1).dropLast.contains
      safetyFolder

/-- Longest first; the order of those of one length is any. -/
def longestFirst (dirs : List Text) : List Text :=
  dirs.mergeSort fun a b => b.length ≤ a.length

/-- Putting one file back, and whether that left a problem. -/
def putBack (answers : Answers) (mv : RollbackMove) : List Op × Bool :=
  let make := Op.mkdirAll (dir mv.source)
  let clear := Op.remove mv.source
  let move := Op.rename mv.target mv.source
  if !answers.kept mv.target then ([], true)
  else if !answers.ok make then ([make], true)
  else if !answers.ok clear then ([make, clear], true)
  else ([make, clear, move], !answers.ok move)

def removeEmptyTree (answers : Answers) (root : Text) : List Op :=
  .walk root :: if answers.emptied root then [.removeAll root] else []

def undoRollback (answers : Answers) (job : SetJob) (manifestPath : Text) (m : Record) : List Op :=
  if !checkManifestPath (clean manifestPath) then []
  else if (checkRollbackRecord safetyRoots job manifestPath m).isSome then []
  else if m.status = "undone" ∨ answers.held then []
  else
    let movedFrom := m.moved.map RollbackMove.source
    let deletes := (m.restored.filter (· ∉ movedFrom)).map Op.remove
    let back := m.moved.map (putBack answers)
    let problems := deletes.any (fun op => !answers.ok op) || back.any (·.2)
    deletes ++ back.flatMap (·.1) ++ m.removedDirs.map (fun d => .mkdirAll (clean d)) ++
      (longestFirst m.createdDirs).map Op.remove ++ [.write manifestPath answers.temp] ++
      if problems then [] else m.safetyRoots.flatMap (removeEmptyTree answers)

/-- os.RemoveAll refuses a path whose last segment is ".". -/
def endsWithDot (root : Text) : Bool := last root = ['.']

def deleteRoots (answers : Answers) : List Text → List Op
  | [] => []
  | r :: rest =>
      if !checkManifestPath (child (clean r) recordName) then []
      else .walk r :: .removeAll r ::
        if endsWithDot r || !answers.ok (.removeAll r) then [] else deleteRoots answers rest

def deleteRollbackCopies (answers : Answers) (job : SetJob) (manifestPath : Text) (m : Record) :
    List Op :=
  if !checkManifestPath (clean manifestPath) then []
  else if (checkRollbackRecord safetyRoots job manifestPath m).isSome then []
  else deleteRoots answers m.safetyRoots

/-! What the check is for. -/

/-- `p` is `root` or below it: leaving `p` folder by folder comes to `root`. -/
def Inside (root p : Folder) : Prop := ∃ n, Place.parent^[n] p = root

/-- One of the set's folders or below it, or a folder of one of its safety
folders or below that. -/
def Allowed (job : SetJob) (p : Folder) : Prop :=
  (∃ f ∈ job.folders, Inside (clean f) p) ∨
    ∃ b ∈ bases safetyRoots job, ∃ name, Inside (child b name) p

/-- One of the set's safety folders or above it. -/
def AboveSafety (job : SetJob) (p : Folder) : Prop :=
  ∃ b ∈ bases safetyRoots job, Inside p b

/-- The paths a call names, cleaned; a record is written beside itself first. -/
def Op.folders : Op → List Folder
  | .remove p => [clean p]
  | .mkdirAll d => [d]
  | .rename p q => [clean p, clean q]
  | .write p temp => [child (dir p) temp, clean p]
  | .walk r => [clean r]
  | .removeAll r => [clean r]

/-- What a call takes away with all it holds, or if it is empty. -/
def Op.removed : Op → Option Folder
  | .remove p => some (clean p)
  | .removeAll r => if endsWithDot r then none else some (clean r)
  | _ => none

structure OpInside (job : SetJob) (op : Op) : Prop where
  allowed : ∀ p ∈ op.folders, Allowed safetyRoots job p
  spared : ∀ p, op.removed = some p → ¬AboveSafety safetyRoots job p

/-- Whatever the disk answers, both functions stay inside the set. -/
def StaysInside (job : SetJob) (manifestPath : Text) (m : Record) : Prop :=
  ∀ answers, ∀ op ∈ undoRollback safetyRoots answers job manifestPath m ++
    deleteRollbackCopies safetyRoots answers job manifestPath m, OpInside safetyRoots job op

/-- Above a set folder given as dot-dots only, and nowhere the set may be: the
text of such a folder begins those of the folders above it. -/
def Climbs (job : SetJob) (p : Text) : Prop :=
  ¬Allowed safetyRoots job (clean p) ∧ ∃ f ∈ job.folders, (clean f).rooted = false ∧
    (clean f).names = [] ∧ 0 < (clean f).ups ∧ (clean f).ups < (clean p).ups

def Named (path : Text) : Prop := ¬slash.idle (last path) ∧ last path ≠ ['.', '.']

/-- A listed safety folder that ends in a name of its own and has none of the
set's safety folders in it, or ends in "." where its parent would do. -/
def RootTame (job : SetJob) (r : Text) : Prop :=
  Named r ∧ ¬AboveSafety safetyRoots job (clean r) ∨
    endsWithDot r = true ∧ Allowed safetyRoots job (dir r)

/-- What the check leaves open. -/
structure Tame (job : SetJob) (manifestPath : Text) (m : Record) : Prop where
  roots : ∀ r ∈ m.safetyRoots, RootTame safetyRoots job r
  parents : ∀ mv ∈ m.moved, Allowed safetyRoots job (dir mv.source)
  record : Allowed safetyRoots job (clean manifestPath)
  spared : ∀ p ∈ m.restored ++ m.moved.map RollbackMove.source ++ m.createdDirs,
    ¬AboveSafety safetyRoots job (clean p)
  level : ∀ p ∈ m.restored ++ m.moved.map RollbackMove.source ++ m.createdDirs ++ m.removedDirs,
    ¬Climbs safetyRoots job p

/-- The listed folders a deletion comes to while every call goes through. -/
def reached : List Text → List Text
  | [] => []
  | r :: rest =>
      if !checkManifestPath (child (clean r) recordName) then []
      else r :: if endsWithDot r then [] else reached rest

/-- Of a record at a path no safety folder has, nothing is undone or deleted; of
one that is undone already, copies are deleted and nothing else. -/
def Harmless (job : SetJob) (manifestPath : Text) (m : Record) : Prop :=
  checkManifestPath (clean manifestPath) = true →
    (∀ r ∈ reached m.safetyRoots, RootTame safetyRoots job r) ∧
      (m.status ≠ "undone" → Tame safetyRoots job manifestPath m)

end

/-! Cleaned paths. -/

structure Proper (here : Folder) : Prop where
  rooted : here.rooted = true → here.ups = 0
  names : ∀ name ∈ here.names, ¬slash.idle name ∧ name ≠ ['.', '.']

theorem parent_proper (here : Folder) (proper : Proper here) : Proper here.parent := by
  unfold Place.parent
  split
  · split
    · exact proper
    · next free => exact ⟨fun rooted => absurd rooted free, proper.names⟩
  · exact ⟨proper.rooted, fun name member => proper.names name (List.dropLast_subset _ member)⟩

theorem enter_proper (here : Folder) (segment : Text) (proper : Proper here) :
    Proper (slash.enter here segment) := by
  unfold Lexis.enter
  split
  · exact proper
  · next busy =>
      split
      · exact parent_proper here proper
      · next enters =>
          refine ⟨proper.rooted, ?_⟩
          intro name member
          rcases List.mem_append.mp member with member | member
          · exact proper.names name member
          · rw [List.mem_singleton.mp member]
            exact ⟨busy, enters⟩

theorem foldl_proper (segments : List Text) (here : Folder) (proper : Proper here) :
    Proper (segments.foldl slash.enter here) := by
  induction segments generalizing here with
  | nil => exact proper
  | cons segment rest ih => exact ih _ (enter_proper here segment proper)

theorem start_proper (path : Text) : Proper (start path) :=
  ⟨fun _ => rfl, fun _ member => absurd member List.not_mem_nil⟩

theorem clean_proper (path : Text) : Proper (clean path) :=
  foldl_proper _ _ (start_proper path)

theorem clean_eq (path : Text) : clean path = slash.enter (dir path) (last path) := by
  have some : slash.segments path ≠ [] := List.splitOnP_ne_nil _ _
  have split : slash.segments path = (slash.segments path).dropLast ++ [last path] := by
    rw [last, List.getLast?_eq_some_getLast some, Option.getD_some, List.dropLast_append_getLast]
  rw [clean, split, List.foldl_append, dir, List.foldl_cons, List.foldl_nil]

theorem child_parent (here : Folder) (name : Text) : (child here name).parent = here := by
  simp [Place.parent, child]

theorem inside_refl (p : Folder) : Inside p p := ⟨0, rfl⟩

theorem inside_child (here : Folder) (name : Text) : Inside here (child here name) :=
  ⟨1, child_parent here name⟩

theorem Inside.trans {a b c : Folder} (upper : Inside a b) (lower : Inside b c) : Inside a c := by
  obtain ⟨m, first⟩ := upper
  obtain ⟨n, second⟩ := lower
  exact ⟨m + n, by rw [Function.iterate_add_apply, second, first]⟩

theorem names_begin {root p : Folder} (inside : Inside root p) : root.names <+: p.names := by
  obtain ⟨n, rfl⟩ := inside
  induction n with
  | zero => exact List.prefix_refl _
  | succ n ih =>
      rw [Function.iterate_succ_apply']
      refine List.IsPrefix.trans ?_ ih
      generalize Place.parent^[n] p = here
      unfold Place.parent
      split
      · split <;> exact List.prefix_refl _
      · exact List.dropLast_prefix _

theorem inside_of_names (rooted : Bool) (ups : Nat) (names more : List Text) :
    Inside ⟨rooted, ups, names⟩ ⟨rooted, ups, names ++ more⟩ := by
  induction more using List.reverseRecOn with
  | nil => exact ⟨0, by simp⟩
  | append_singleton front name ih =>
      rw [← List.append_assoc]
      exact ih.trans (inside_child ⟨rooted, ups, names ++ front⟩ name)

theorem prefix_of_dots {u v : Nat} {names more : List Text} (nameless : ['.', '.'] ∉ names)
    (others : ['.', '.'] ∉ more)
    (begins : List.replicate u ['.', '.'] ++ names <+: List.replicate v ['.', '.'] ++ more) :
    u = v ∧ names <+: more ∨ u < v ∧ names = [] := by
  rcases Nat.lt_trichotomy u v with less | same | greater
  · obtain ⟨k, rfl⟩ : ∃ k, v = u + (k + 1) := ⟨v - u - 1, by omega⟩
    rw [List.replicate_add, List.append_assoc, List.prefix_append_right_inj] at begins
    refine Or.inr ⟨less, ?_⟩
    cases names with
    | nil => rfl
    | cons first rest =>
        rw [List.replicate_succ, List.cons_append, List.cons_prefix_cons] at begins
        exact absurd (begins.1 ▸ List.mem_cons_self) nameless
  · subst same
    rw [List.prefix_append_right_inj] at begins
    exact Or.inl ⟨rfl, begins⟩
  · obtain ⟨k, rfl⟩ : ∃ k, u = v + (k + 1) := ⟨u - v - 1, by omega⟩
    rw [List.replicate_add, List.append_assoc, List.prefix_append_right_inj,
      List.replicate_succ, List.cons_append] at begins
    exact absurd (begins.subset List.mem_cons_self) others

theorem dots_busy {ups : Nat} {names : List Text} (busy : ∀ name ∈ names, ¬slash.idle name)
    (segment : Text) (member : segment ∈ List.replicate ups ['.', '.'] ++ names) :
    ¬slash.idle segment := by
  rcases List.mem_append.mp member with dots | name
  · rw [List.eq_of_mem_replicate dots]
    decide
  · exact busy segment name

theorem front_empty {first : Text} {rest front : List Text} (idle : slash.idle first)
    (busy : ∀ segment ∈ front, ¬slash.idle segment) (begins : front <+: first :: rest) :
    front = [] := by
  cases front with
  | nil => rfl
  | cons head tail =>
      rw [List.cons_prefix_cons] at begins
      exact absurd (begins.1 ▸ idle) (busy head List.mem_cons_self)

/-- The text comparison is right but for folders of dot-dots only. -/
theorem inside_of_pathWithin {p root : Folder} (own : Proper p) (other : Proper root)
    (within : pathWithin p root = true) :
    Inside root p ∨ root.rooted = false ∧ root.names = [] ∧ 0 < root.ups ∧ root.ups < p.ups := by
  rw [pathWithin, Bool.or_eq_true, List.isPrefixOf_iff_prefix] at within
  rcases within with same | begins
  · rw [of_decide_eq_true same]
    exact Or.inl (inside_refl _)
  · obtain ⟨rooted, ups, names⟩ := root
    obtain ⟨pRooted, pUps, pNames⟩ := p
    have pBusy := @dots_busy pUps pNames fun name member => (own.names name member).1
    have busy := @dots_busy ups names fun name member => (other.names name member).1
    have nothing : slash.idle [] := Or.inl rfl
    have here : slash.idle ['.'] := Or.inr rfl
    cases rooted with
    | true =>
        obtain rfl : ups = 0 := other.rooted rfl
        cases pRooted with
        | true =>
            obtain rfl : pUps = 0 := own.rooted rfl
            simp only [cleanedSegments, if_true, List.cons_prefix_cons, true_and] at begins
            obtain ⟨more, rfl⟩ := begins
            exact Or.inl (inside_of_names true 0 names more)
        | false =>
            simp only [cleanedSegments, if_true, Bool.false_eq_true, if_false] at begins
            split at begins
            -- a rooted path begins with an empty segment, which no other has
            · exact absurd (begins.subset List.mem_cons_self) (by decide)
            · exact absurd nothing (pBusy [] (begins.subset List.mem_cons_self))
    | false =>
        simp only [cleanedSegments, Bool.false_eq_true, if_false] at begins
        split at begins
        -- the root is ".", and "." leads another path only if that is "." too
        · next dot =>
            obtain ⟨rfl, rfl⟩ := dot
            cases pRooted with
            | true =>
                rw [if_pos rfl, List.cons_prefix_cons] at begins
                exact absurd begins.1 (by decide)
            | false =>
                rw [if_neg (by decide)] at begins
                split at begins
                · next same =>
                    obtain ⟨rfl, rfl⟩ := same
                    exact Or.inl (inside_refl _)
                · exact absurd here (pBusy ['.'] (begins.subset List.mem_cons_self))
        · next some =>
            have filled : List.replicate ups ['.', '.'] ++ names ≠ [] := by
              intro empty
              rw [List.append_eq_nil_iff, List.replicate_eq_nil_iff] at empty
              exact some empty
            cases pRooted with
            | true =>
                rw [if_pos rfl] at begins
                exact absurd (front_empty nothing busy begins) filled
            | false =>
                rw [if_neg (by decide)] at begins
                split at begins
                · exact absurd (front_empty here busy begins) filled
                · rcases prefix_of_dots (fun member => (other.names _ member).2 rfl)
                    (fun member => (own.names _ member).2 rfl) begins with
                    -- fewer dot-dots without a name: the text is a front, the folder is below
                    ⟨rfl, more, rfl⟩ | ⟨less, rfl⟩
                  · exact Or.inl (inside_of_names false ups names more)
                  · refine Or.inr ⟨rfl, rfl, ?_, less⟩
                    exact Nat.pos_of_ne_zero fun zero => some ⟨zero, rfl⟩

section

variable (safetyRoots : Text → List Folder)

/-- What an accepted record has passed. -/
structure Accepted (job : SetJob) (manifestPath : Text) (m : Record) : Prop where
  kept : ∀ r ∈ m.safetyRoots, dir r ∈ bases safetyRoots job
  own : ∃ r ∈ m.safetyRoots, dir manifestPath = clean r
  inSet : ∀ p ∈ m.restored ++ m.moved.map RollbackMove.source ++ m.createdDirs ++ m.removedDirs,
    inSet job p = true
  inSafety : ∀ mv ∈ m.moved, inSafety m mv.target = true

theorem checkInSet_passed (job : SetJob) (paths : List Text) (passed : checkInSet job paths = none) :
    ∀ p ∈ paths, inSet job p = true := by
  rw [checkInSet, Option.map_eq_none_iff, List.find?_eq_none] at passed
  intro p member
  simpa using passed p member

theorem checkMove_passed (job : SetJob) (m : Record) (mv : RollbackMove)
    (passed : checkMove job m mv = none) :
    inSet job mv.source = true ∧ inSafety m mv.target = true := by
  unfold checkMove at passed
  split at passed
  · cases passed
  · next source =>
      split at passed
      · cases passed
      · next target => exact ⟨by simpa using source, by simpa using target⟩

theorem accepted_of_check (job : SetJob) (manifestPath : Text) (m : Record)
    (passed : checkRollbackRecord safetyRoots job manifestPath m = none) :
    Accepted safetyRoots job manifestPath m := by
  unfold checkRollbackRecord at passed
  split at passed
  · cases passed
  · split at passed
    · cases passed
    · split at passed
      · cases passed
      · next all =>
          split at passed
          · cases passed
          · next own =>
              simp only [Option.or_eq_none_iff] at passed
              obtain ⟨restored, moved, created, removed⟩ := passed
              rw [List.findSome?_eq_none_iff] at moved
              rw [List.find?_eq_none] at all
              refine ⟨?_, ?_, ?_, fun mv member => (checkMove_passed job m mv (moved mv member)).2⟩
              · intro r member
                have ok : safetyOK safetyRoots job r = true := by simpa using all r member
                obtain ⟨b, inside, same⟩ := List.any_eq_true.mp ok
                exact of_decide_eq_true same ▸ inside
              · obtain ⟨r, member, same⟩ := List.any_eq_true.mp (by simpa using own)
                exact ⟨r, member, of_decide_eq_true same⟩
              · intro p member
                simp only [List.mem_append, List.mem_map] at member
                rcases member with ((member | ⟨mv, member, rfl⟩) | member) | member
                · exact checkInSet_passed job _ restored p member
                · exact (checkMove_passed job m mv (moved mv member)).1
                · exact checkInSet_passed job _ created p member
                · exact checkInSet_passed job _ removed p member

theorem allowed_below {job : SetJob} {p q : Folder} (upper : Allowed safetyRoots job p)
    (lower : Inside p q) : Allowed safetyRoots job q := by
  rcases upper with ⟨f, member, inside⟩ | ⟨b, member, name, inside⟩
  · exact Or.inl ⟨f, member, inside.trans lower⟩
  · exact Or.inr ⟨b, member, name, inside.trans lower⟩

theorem allowed_of_inSet {job : SetJob} {p : Text} (inSet_ : inSet job p = true)
    (level : ¬Climbs safetyRoots job p) : Allowed safetyRoots job (clean p) := by
  obtain ⟨f, member, within⟩ := List.any_eq_true.mp inSet_
  rcases inside_of_pathWithin (clean_proper p) (clean_proper f) within with inside | above
  · exact Or.inl ⟨f, member, inside⟩
  · by_contra astray
    exact level ⟨astray, f, member, above⟩

theorem clean_named {path : Text} (named : Named path) : clean path = child (dir path) (last path) := by
  rw [clean_eq, Lexis.enter, if_neg named.1]
  exact if_neg named.2

theorem clean_dot {path : Text} (dot : endsWithDot path = true) : clean path = dir path := by
  rw [clean_eq, of_decide_eq_true dot]
  rfl

theorem base_names {job : SetJob} {b : Folder} (member : b ∈ bases safetyRoots job) :
    b.names ≠ [] := by
  obtain ⟨d, -, inside⟩ := List.mem_flatMap.mp member
  obtain ⟨r, -, rfl⟩ := List.mem_map.mp inside
  simp [child]

theorem root_allowed {job : SetJob} {r : Text} (kept : dir r ∈ bases safetyRoots job)
    (tame : RootTame safetyRoots job r) :
    Allowed safetyRoots job (clean r) ∧ (clean r).names ≠ [] ∧
      (endsWithDot r = false → ¬AboveSafety safetyRoots job (clean r)) := by
  rcases tame with ⟨named, spared⟩ | ⟨dot, allowed⟩
  · rw [clean_named named] at spared ⊢
    refine ⟨Or.inr ⟨dir r, kept, last r, inside_refl _⟩, by simp [child], fun _ => spared⟩
  · rw [clean_dot dot]
    refine ⟨allowed, base_names safetyRoots kept, fun other => ?_⟩
    rw [dot] at other
    cases other

theorem target_allowed {job : SetJob} {manifestPath : Text} {m : Record}
    (accepted : Accepted safetyRoots job manifestPath m) (tame : Tame safetyRoots job manifestPath m)
    (mv : RollbackMove) (member : mv ∈ m.moved) : Allowed safetyRoots job (clean mv.target) := by
  obtain ⟨r, root, within⟩ := List.any_eq_true.mp (accepted.inSafety mv member)
  obtain ⟨allowed, filled, -⟩ := root_allowed safetyRoots (accepted.kept r root) (tame.roots r root)
  rcases inside_of_pathWithin (clean_proper mv.target) (clean_proper r) within with inside | above
  · exact allowed_below safetyRoots allowed inside
  · exact absurd above.2.1 filled

/-- The calls either function can come to make. -/
inductive Made (manifestPath : Text) (m : Record) : Op → Prop
  | delete {p : Text} : p ∈ m.restored → Made manifestPath m (.remove p)
  | parent {mv : RollbackMove} : mv ∈ m.moved → Made manifestPath m (.mkdirAll (dir mv.source))
  | clear {mv : RollbackMove} : mv ∈ m.moved → Made manifestPath m (.remove mv.source)
  | back {mv : RollbackMove} : mv ∈ m.moved → Made manifestPath m (.rename mv.target mv.source)
  | remake {d : Text} : d ∈ m.removedDirs → Made manifestPath m (.mkdirAll (clean d))
  | unmake {d : Text} : d ∈ m.createdDirs → Made manifestPath m (.remove d)
  | record (temp : Text) : Made manifestPath m (.write manifestPath temp)
  | walk {r : Text} : r ∈ m.safetyRoots → Made manifestPath m (.walk r)
  | removeAll {r : Text} : r ∈ m.safetyRoots → Made manifestPath m (.removeAll r)

theorem putBack_made (answers : Answers) (manifestPath : Text) (m : Record) (mv : RollbackMove)
    (member : mv ∈ m.moved) : ∀ op ∈ (putBack answers mv).1, Made manifestPath m op := by
  intro op inside
  unfold putBack at inside
  dsimp only at inside
  have all : op ∈ [Op.mkdirAll (dir mv.source), .remove mv.source, .rename mv.target mv.source] := by
    split at inside
    · exact absurd inside List.not_mem_nil
    · split at inside
      · exact List.mem_of_mem_take (i := 1) inside
      · split at inside
        · exact List.mem_of_mem_take (i := 2) inside
        · exact inside
  simp only [List.mem_cons, List.not_mem_nil, or_false] at all
  rcases all with rfl | rfl | rfl
  · exact Made.parent member
  · exact Made.clear member
  · exact Made.back member

theorem undo_made (answers : Answers) (job : SetJob) (manifestPath : Text) (m : Record) :
    ∀ op ∈ undoRollback safetyRoots answers job manifestPath m, Made manifestPath m op := by
  intro op member
  unfold undoRollback at member
  split at member
  · exact absurd member List.not_mem_nil
  · split at member
    · exact absurd member List.not_mem_nil
    · split at member
      · exact absurd member List.not_mem_nil
      · simp only [List.mem_append, List.mem_map, List.mem_flatMap, List.mem_singleton] at member
        rcases member with ((((⟨p, listed, rfl⟩ | ⟨entry, ⟨mv, moved, rfl⟩, inside⟩) |
          ⟨d, removed, rfl⟩) | ⟨d, created, rfl⟩) | rfl) | tidied
        · exact Made.delete (List.mem_of_mem_filter listed)
        · exact putBack_made answers manifestPath m mv moved op inside
        · exact Made.remake removed
        · exact Made.unmake ((List.mergeSort_perm _ _).subset created)
        · exact Made.record _
        · split at tidied
          · exact absurd tidied List.not_mem_nil
          · obtain ⟨r, root, inside⟩ := List.mem_flatMap.mp tidied
            unfold removeEmptyTree at inside
            split at inside
            · rcases List.mem_pair.mp inside with rfl | rfl
              · exact Made.walk root
              · exact Made.removeAll root
            · rw [List.mem_singleton.mp inside]
              exact Made.walk root

theorem reached_listed (roots : List Text) : ∀ r ∈ reached roots, r ∈ roots := by
  induction roots with
  | nil => exact fun r member => member
  | cons first rest ih =>
      intro r member
      unfold reached at member
      split at member
      · exact absurd member List.not_mem_nil
      · rcases List.mem_cons.mp member with rfl | member
        · exact List.mem_cons_self
        · split at member
          · exact absurd member List.not_mem_nil
          · exact List.mem_cons_of_mem first (ih r member)

theorem deleteRoots_calls (answers : Answers) (roots : List Text) :
    ∀ op ∈ deleteRoots answers roots, ∃ r ∈ reached roots, op = .walk r ∨ op = .removeAll r := by
  induction roots with
  | nil => exact fun op member => absurd member List.not_mem_nil
  | cons r rest ih =>
      intro op member
      unfold deleteRoots at member
      unfold reached
      split at member
      · exact absurd member List.not_mem_nil
      · next record =>
          rw [if_neg record]
          rcases List.mem_cons.mp member with same | member
          · exact ⟨r, List.mem_cons_self, Or.inl same⟩
          · rcases List.mem_cons.mp member with same | member
            · exact ⟨r, List.mem_cons_self, Or.inr same⟩
            · split at member
              · exact absurd member List.not_mem_nil
              -- the loop goes on past this root, so the next one is reached
              · next on =>
                  rw [Bool.or_eq_true, not_or] at on
                  obtain ⟨next, inside, calls⟩ := ih op member
                  rw [if_neg on.1]
                  exact ⟨next, List.mem_cons_of_mem r inside, calls⟩

theorem root_inside {job : SetJob} {r : Text} (kept : dir r ∈ bases safetyRoots job)
    (tame : RootTame safetyRoots job r) (op : Op) (calls : op = .walk r ∨ op = .removeAll r) :
    OpInside safetyRoots job op := by
  obtain ⟨allowed, -, spared⟩ := root_allowed safetyRoots kept tame
  rcases calls with rfl | rfl
  · refine ⟨fun q named => ?_, fun q taken => nomatch taken⟩
    rw [List.mem_singleton.mp named]
    exact allowed
  · refine ⟨fun q named => ?_, fun q taken => ?_⟩
    · rw [List.mem_singleton.mp named]
      exact allowed
    · rw [Op.removed] at taken
      split at taken
      · cases taken
      · next other =>
          cases taken
          exact spared (by simpa using other)

theorem made_inside {job : SetJob} {manifestPath : Text} {m : Record}
    (accepted : Accepted safetyRoots job manifestPath m) (tame : Tame safetyRoots job manifestPath m)
    (op : Op) (made : Made manifestPath m op) : OpInside safetyRoots job op := by
  have listed (p : Text) (member : p ∈ m.restored ++ m.moved.map RollbackMove.source ++
      m.createdDirs ++ m.removedDirs) : Allowed safetyRoots job (clean p) :=
    allowed_of_inSet safetyRoots (accepted.inSet p member) (tame.level p member)
  have removed (p : Text) (member : p ∈ m.restored ++ m.moved.map RollbackMove.source ++
      m.createdDirs) : OpInside safetyRoots job (.remove p) := by
    refine ⟨fun q named => ?_, fun q taken => ?_⟩
    · rw [List.mem_singleton.mp named]
      exact listed p (List.mem_append_left _ member)
    · cases taken
      exact tame.spared p member
  have named (mv : RollbackMove) (member : mv ∈ m.moved) :
      mv.source ∈ m.moved.map RollbackMove.source := List.mem_map_of_mem member
  cases made with
  | delete member => exact removed _ (by simp [member])
  | parent member =>
      refine ⟨fun q named => ?_, fun q taken => nomatch taken⟩
      rw [List.mem_singleton.mp named]
      exact tame.parents _ member
  | clear member =>
      exact removed _ (List.mem_append_left _ (List.mem_append_right _ (named _ member)))
  | @back mv member =>
      refine ⟨fun q either => ?_, fun q taken => nomatch taken⟩
      rcases List.mem_pair.mp either with rfl | rfl
      · exact target_allowed safetyRoots accepted tame mv member
      · exact listed mv.source (List.mem_append_left _ (List.mem_append_left _
          (List.mem_append_right _ (named mv member))))
  | remake member =>
      refine ⟨fun q named => ?_, fun q taken => nomatch taken⟩
      rw [List.mem_singleton.mp named]
      exact listed _ (List.mem_append_right _ member)
  | unmake member => exact removed _ (List.mem_append_right _ member)
  | record temp =>
      refine ⟨fun q either => ?_, fun q taken => nomatch taken⟩
      rcases List.mem_pair.mp either with rfl | rfl
      · obtain ⟨r, root, same⟩ := accepted.own
        rw [same]
        exact allowed_below safetyRoots (root_allowed safetyRoots (accepted.kept r root) (tame.roots r root)).1
          (inside_child _ _)
      · exact tame.record
  | @walk r root =>
      exact root_inside safetyRoots (accepted.kept r root) (tame.roots r root) _ (Or.inl rfl)
  | @removeAll r root =>
      exact root_inside safetyRoots (accepted.kept r root) (tame.roots r root) _ (Or.inr rfl)

/-- A disk on which every call goes through. -/
def willing : Answers := ⟨fun _ => true, fun _ => true, fun _ => true, false, []⟩

/-- On such a disk an undo makes all its calls. -/
theorem undo_makes {job : SetJob} {manifestPath : Text} {m : Record}
    (passed : checkRollbackRecord safetyRoots job manifestPath m = none)
    (own : checkManifestPath (clean manifestPath) = true) (open_ : m.status ≠ "undone") (op : Op)
    (made : Made manifestPath m op) (temp : ∀ name, op = .write manifestPath name → name = []) :
    op ∈ undoRollback safetyRoots willing job manifestPath m := by
  have back (mv : RollbackMove) : putBack willing mv =
      ([.mkdirAll (dir mv.source), .remove mv.source, .rename mv.target mv.source], false) := rfl
  have agrees (call : Op) : willing.ok call = true := rfl
  have shape : undoRollback safetyRoots willing job manifestPath m =
      (m.restored.filter (· ∉ m.moved.map RollbackMove.source)).map Op.remove ++
        (m.moved.map (putBack willing)).flatMap (·.1) ++
        m.removedDirs.map (fun d => .mkdirAll (clean d)) ++
        (longestFirst m.createdDirs).map Op.remove ++ [.write manifestPath []] ++
        m.safetyRoots.flatMap (removeEmptyTree willing) := by
    have untroubled : (((m.restored.filter (· ∉ m.moved.map RollbackMove.source)).map
        Op.remove).any (fun op => !willing.ok op) || (m.moved.map (putBack willing)).any (·.2)) =
        false := by
      simp [agrees, back]
    have still : ¬(m.status = "undone" ∨ willing.held = true) := by
      rintro (undone | running)
      · exact open_ undone
      · cases running
    unfold undoRollback
    dsimp only
    rw [if_neg (by rw [own]; decide), if_neg (by rw [passed]; decide), if_neg still, untroubled]
    rfl
  have moved (mv : RollbackMove) (member : mv ∈ m.moved) :
      ∀ op ∈ [Op.mkdirAll (dir mv.source), .remove mv.source, .rename mv.target mv.source],
        op ∈ (m.moved.map (putBack willing)).flatMap (·.1) := by
    intro op inside
    exact List.mem_flatMap.mpr ⟨putBack willing mv, List.mem_map_of_mem member, inside⟩
  rw [shape]
  simp only [List.mem_append]
  cases made with
  | @delete p member =>
      by_cases aside : p ∈ m.moved.map RollbackMove.source
      · obtain ⟨mv, source, rfl⟩ := List.mem_map.mp aside
        exact Or.inl (Or.inl (Or.inl (Or.inl (Or.inr (moved mv source _ (by simp))))))
      · refine Or.inl (Or.inl (Or.inl (Or.inl (Or.inl (List.mem_map_of_mem ?_)))))
        exact List.mem_filter.mpr ⟨member, decide_eq_true aside⟩
  | @parent mv member =>
      exact Or.inl (Or.inl (Or.inl (Or.inl (Or.inr (moved mv member _ (by simp))))))
  | @clear mv member =>
      exact Or.inl (Or.inl (Or.inl (Or.inl (Or.inr (moved mv member _ (by simp))))))
  | @back mv member =>
      exact Or.inl (Or.inl (Or.inl (Or.inl (Or.inr (moved mv member _ (by simp))))))
  | @remake d member =>
      exact Or.inl (Or.inl (Or.inl (Or.inr (List.mem_map.mpr ⟨d, member, rfl⟩))))
  | @unmake d member =>
      exact Or.inl (Or.inl (Or.inr
        (List.mem_map_of_mem ((List.mergeSort_perm _ _).symm.subset member))))
  | record name =>
      rw [temp name rfl]
      exact Or.inl (Or.inr List.mem_cons_self)
  | @walk r root =>
      exact Or.inr (List.mem_flatMap.mpr ⟨r, root, List.mem_cons_self⟩)
  | @removeAll r root =>
      refine Or.inr (List.mem_flatMap.mpr ⟨r, root, ?_⟩)
      exact List.mem_cons_of_mem _ List.mem_cons_self

theorem reached_deletes (roots : List Text) :
    ∀ r ∈ reached roots, .removeAll r ∈ deleteRoots willing roots := by
  induction roots with
  | nil => exact fun r member => absurd member List.not_mem_nil
  | cons first rest ih =>
      intro r member
      unfold reached at member
      unfold deleteRoots
      split at member
      · exact absurd member List.not_mem_nil
      · next record =>
          rw [if_neg record]
          rcases List.mem_cons.mp member with rfl | member
          · exact List.mem_cons_of_mem _ List.mem_cons_self
          · split at member
            · exact absurd member List.not_mem_nil
            · next on =>
                have agrees : willing.ok (.removeAll first) = true := rfl
                rw [agrees, Bool.not_true, Bool.or_false, if_neg on]
                exact List.mem_cons_of_mem _ (List.mem_cons_of_mem _ (ih r member))

theorem rootTame_of_inside {job : SetJob} {r : Text} (kept : dir r ∈ bases safetyRoots job)
    (taken : OpInside safetyRoots job (.removeAll r)) : RootTame safetyRoots job r := by
  by_cases dot : endsWithDot r = true
  · refine Or.inr ⟨dot, ?_⟩
    rw [← clean_dot dot]
    exact taken.allowed _ List.mem_cons_self
  · have spared : ¬AboveSafety safetyRoots job (clean r) := taken.spared _ (if_neg dot)
    have busy : last r ≠ ['.'] := fun same => dot (decide_eq_true same)
    refine Or.inl ⟨⟨?_, ?_⟩, spared⟩
    · rintro (empty | same)
      · refine spared ⟨dir r, kept, ?_⟩
        rw [clean_eq, empty]
        exact inside_refl _
      · exact busy same
    · intro up
      refine spared ⟨dir r, kept, 1, ?_⟩
      rw [clean_eq, up]
      rfl

theorem tame_of_inside {job : SetJob} {manifestPath : Text} {m : Record}
    (passed : checkRollbackRecord safetyRoots job manifestPath m = none)
    (own : checkManifestPath (clean manifestPath) = true) (open_ : m.status ≠ "undone")
    (stays : StaysInside safetyRoots job manifestPath m) :
    Tame safetyRoots job manifestPath m := by
  have accepted := accepted_of_check safetyRoots job manifestPath m passed
  have each (op : Op) (made : Made manifestPath m op)
      (temp : ∀ name, op = .write manifestPath name → name = []) : OpInside safetyRoots job op :=
    stays willing op (List.mem_append_left _
      (undo_makes safetyRoots passed own open_ op made temp))
  have removed (p : Text) (member : p ∈ m.restored ++ m.moved.map RollbackMove.source ++
      m.createdDirs) : OpInside safetyRoots job (.remove p) := by
    simp only [List.mem_append, List.mem_map] at member
    rcases member with (member | ⟨mv, member, rfl⟩) | member
    · exact each _ (Made.delete member) fun _ other => nomatch other
    · exact each _ (Made.clear member) fun _ other => nomatch other
    · exact each _ (Made.unmake member) fun _ other => nomatch other
  refine ⟨?_, ?_, ?_, ?_, ?_⟩
  · intro r root
    exact rootTame_of_inside safetyRoots (accepted.kept r root)
      (each _ (Made.removeAll root) fun _ other => nomatch other)
  · intro mv member
    exact (each _ (Made.parent member) fun _ other => nomatch other).allowed _ List.mem_cons_self
  · refine (each _ (Made.record []) fun _ same => ?_).allowed _ (List.mem_cons_of_mem _
      List.mem_cons_self)
    cases same
    rfl
  · intro p member
    exact (removed p member).spared _ rfl
  · intro p member climbs
    rcases List.mem_append.mp member with member | member
    · exact climbs.1 ((removed p member).allowed _ List.mem_cons_self)
    · exact climbs.1 ((each _ (Made.remake member) fun _ other => nomatch other).allowed _
        List.mem_cons_self)

theorem undoRollback_undone (answers : Answers) (job : SetJob) (manifestPath : Text) (m : Record)
    (undone : m.status = "undone") :
    undoRollback safetyRoots answers job manifestPath m = [] := by
  unfold undoRollback
  rw [if_pos (Or.inl undone)]
  split
  · rfl
  · exact ite_self _

theorem undoRollback_elsewhere (answers : Answers) (job : SetJob) (manifestPath : Text) (m : Record)
    (elsewhere : ¬checkManifestPath (clean manifestPath) = true) :
    undoRollback safetyRoots answers job manifestPath m = [] := by
  unfold undoRollback
  rw [if_pos (by simpa using elsewhere)]

theorem deleteRollbackCopies_elsewhere (answers : Answers) (job : SetJob) (manifestPath : Text)
    (m : Record) (elsewhere : ¬checkManifestPath (clean manifestPath) = true) :
    deleteRollbackCopies safetyRoots answers job manifestPath m = [] := by
  unfold deleteRollbackCopies
  rw [if_pos (by simpa using elsewhere)]

theorem deleteRollbackCopies_accepted (answers : Answers) {job : SetJob} {manifestPath : Text}
    {m : Record} (passed : checkRollbackRecord safetyRoots job manifestPath m = none)
    (own : checkManifestPath (clean manifestPath) = true) :
    deleteRollbackCopies safetyRoots answers job manifestPath m =
      deleteRoots answers m.safetyRoots := by
  unfold deleteRollbackCopies
  rw [if_neg (by rw [own]; decide), if_neg (by rw [passed]; decide)]

end

def dataSet : SetJob := ⟨"s1", "Set".toList, ["/data".toList]⟩

def besideData (_ : Text) : List Folder := [⟨true, 0, [safetyFolder]⟩]

def firstRecord : Text := "/.pbs-rollback/Set/1/rollback.json".toList

def keptFolder : Text := "/.pbs-rollback/Set/1".toList

def movedAside : Record where
  jobId := "s1"
  status := "ok"
  moved := [⟨"/data/b".toList, "/.pbs-rollback/Set/1/b".toList⟩]
  restored := ["/data/a".toList]
  createdDirs := ["/data/new".toList]
  removedDirs := []
  safetyRoots := [keptFolder]

/-- The same record with the folder above its own listed as one more. -/
def climbing : Record := { movedAside with
  safetyRoots := [keptFolder, "/.pbs-rollback/Set/..".toList] }

end ProxmoxBackup.RecordCheck
