import Mathlib.Logic.Function.Basic
import Mathlib.Data.List.Nodup

/-! The listing of an NTFS volume, buildEntries of gui/imagefs/ntfs.go: from the
records of the MFT to paths, through a cache of folder paths that all lookups
share. A map of records is a partial function of the record number, and the order
Go ranges over it in is any list of its numbers. The recursion is 257 folders
deep at most; `budget` is what is left of that. -/

namespace ProxmoxBackup.NtfsListing

structure FileName where
  parent : Nat
  parentSeq : Nat
  name : String
  deriving DecidableEq

structure Stream where
  name : String
  size : Nat
  deriving DecidableEq

structure Record where
  seq : Nat
  inUse : Bool
  isDir : Bool
  names : List FileName
  mtime : Int := 0
  created : Int := 0
  attrs : Nat := 0
  secID : Nat := 0
  size : Nat := 0
  streams : List Stream := []
  hasEAs : Bool := false
  deriving DecidableEq

abbrev Files := Nat → Option Record

structure Entry where
  path : String
  isDir : Bool
  mtime : Int
  created : Int
  attrs : Nat
  record : Nat
  securityID : Nat
  streams : List Stream
  hasEAs : Bool
  size : Nat
  deriving DecidableEq

/-- The record of the root folder. -/
def rootRecord : Nat := 5

/-- $Extend: $Quota, $ObjId, $Reparse, $UsnJrnl... -/
def extend : Nat := 11

/-- The first record that is not a metafile's, and the first past the reserved ones. -/
def firstFile : Nat := 16

def pastReserved : Nat := 64

def maxDepth : Nat := 257

def joinPath (dir name : String) : String := if dir = "" then name else dir ++ "/" ++ name

/-- The name a folder is known by, if the reference to it holds. -/
def folderName (files : Files) (num seq : Nat) : Option FileName :=
  match files num with
  | none => none
  | some f =>
      if !f.inUse || !f.isDir || num = extend || (seq ≠ 0 && f.seq ≠ seq) then none
      else f.names.head?

/-- The map dirPath: nothing yet, not resolved, or a path. -/
abbrev Cache := Nat → Option (Option String)

def Cache.first : Cache := fun num => if num = rootRecord then some (some "") else none

def resolve (files : Files) : Nat → Cache → Nat → Nat → Option String × Cache
  | budget, dirPath, num, seq =>
      match dirPath num with
      | some known => (known, dirPath)
      | none =>
          match budget with
          | 0 => (none, dirPath)
          | budget + 1 =>
              match folderName files num seq with
              | none => (none, dirPath)
              | some n =>
                  let (parent, dirPath) := resolve files budget dirPath n.parent n.parentSeq
                  let path := parent.map (joinPath · n.name)
                  (path, Function.update dirPath num (some path))

def entryOf (num : Nat) (f : Record) (parent : String) (n : FileName) : Entry where
  path := joinPath parent n.name
  isDir := f.isDir
  mtime := f.mtime
  created := f.created
  attrs := f.attrs
  record := num
  securityID := f.secID
  streams := f.streams
  hasEAs := f.hasEAs
  size := if f.isDir then 0 else f.size

/-- A reserved metafile in the root. -/
def reserved (num : Nat) (parent : String) (n : FileName) : Bool :=
  parent = "" && n.name.startsWith "$" && num < pastReserved

def shown (num : Nat) (f : Record) (n : FileName) : Option String → List Entry
  | none => []
  | some parent => if reserved num parent n then [] else [entryOf num f parent n]

structure Listing where
  dirPath : Cache
  entries : List Entry

def visitName (files : Files) (num : Nat) (f : Record) (s : Listing) (n : FileName) : Listing :=
  let (parent, dirPath) := resolve files maxDepth s.dirPath n.parent n.parentSeq
  ⟨dirPath, s.entries ++ shown num f n parent⟩

/-- Unused and nameless records, metafiles and the root itself are passed over. -/
def visitRecord (files : Files) (s : Listing) (num : Nat) : Listing :=
  match files num with
  | none => s
  | some f =>
      if !f.inUse || num < firstFile then s
      else f.names.foldl (visitName files num f) s

def buildEntries (files : Files) (order : List Nat) : List Entry :=
  (order.foldl (visitRecord files) ⟨Cache.first, []⟩).entries.mergeSort
    fun a b => !decide (b.path < a.path)

/-! What a listing should hold. -/

/-- An order Go may range over the map in. -/
structure RangesOver (files : Files) (order : List Nat) : Prop where
  once : order.Nodup
  all : ∀ num, num ∈ order ↔ (files num).isSome

/-- The chain of parent references from a reference to the root, through `k`
folders, and the path it spells. -/
inductive Leads (files : Files) : Nat → Nat → Nat → String → Prop where
  | root (seq : Nat) : Leads files rootRecord seq 0 ""
  | folder {num seq k : Nat} {n : FileName} {path : String} : num ≠ rootRecord →
      folderName files num seq = some n → Leads files n.parent n.parentSeq k path →
      Leads files num seq (k + 1) (joinPath path n.name)

/-- A name of a file or folder in use, NTFS's own left out. -/
structure Named (files : Files) (num : Nat) (f : Record) (n : FileName) : Prop where
  found : files num = some f
  inUse : f.inUse = true
  own : firstFile ≤ num
  name : n ∈ f.names

def Listed (files : Files) (e : Entry) : Prop :=
  ∃ num f n k path, Named files num f n ∧ Leads files n.parent n.parentSeq k path ∧
    reserved num path n = false ∧ e = entryOf num f path n

/-- The listing does not depend on the order, and holds what it should. -/
structure Exact (files : Files) : Prop where
  unordered : ∀ first second, RangesOver files first → RangesOver files second →
    ∀ e, e ∈ buildEntries files first ↔ e ∈ buildEntries files second
  listed : ∀ order, RangesOver files order → ∀ e, e ∈ buildEntries files order ↔ Listed files e

/-! What goes wrong: a chain too long to follow, and a reference to a folder
number that was used again, when the folder now there is known already. -/

/-- The chain goes wrong at a folder, reached after `j` others, that has another
sequence number now. -/
inductive Strays (files : Files) : Nat → Nat → Nat → Nat → Prop where
  | here {num seq : Nat} {n : FileName} : num ≠ rootRecord → folderName files num seq = none →
      folderName files num 0 = some n → Strays files num seq 0 num
  | later {num seq j q : Nat} {n : FileName} : num ≠ rootRecord → folderName files num seq = some n →
      Strays files n.parent n.parentSeq j q → Strays files num seq (j + 1) q

/-- The chain passes a folder. -/
inductive Passes (files : Files) : Nat → Nat → Nat → Prop where
  | here {num seq : Nat} {n : FileName} : num ≠ rootRecord → folderName files num seq = some n →
      Passes files num seq num
  | later {num seq q : Nat} {n : FileName} : num ≠ rootRecord → folderName files num seq = some n →
      Passes files n.parent n.parentSeq q → Passes files num seq q

/-- A folder on the way of something the volume lists. -/
def Resolved (files : Files) (q : Nat) : Prop :=
  ∃ num f n k path, Named files num f n ∧ Leads files n.parent n.parentSeq k path ∧
    Passes files n.parent n.parentSeq q

structure Followable (files : Files) : Prop where
  short : ∀ num f n k path, Named files num f n → Leads files n.parent n.parentSeq k path →
    k ≤ maxDepth
  fresh : ∀ num f n j q, Named files num f n → Strays files n.parent n.parentSeq j q →
    j ≤ maxDepth → ¬ Resolved files q

theorem folderName_any {files : Files} {num seq : Nat} {n : FileName}
    (found : folderName files num seq = some n) : folderName files num 0 = some n := by
  unfold folderName at found ⊢
  cases record : files num with
  | none => simp [record] at found
  | some f =>
      simp only [record] at found ⊢
      split at found
      · cases found
      · next usable =>
          rw [← found]
          simp only [Bool.or_eq_true, not_or] at usable
          simp [usable.1.1.1, usable.1.1.2, usable.1.2]

theorem Leads.any {files : Files} {num seq k : Nat} {path : String}
    (leads : Leads files num seq k path) : Leads files num 0 k path := by
  cases leads with
  | root => exact Leads.root 0
  | folder away found later => exact Leads.folder away (folderName_any found) later

theorem Leads.by_ref {files : Files} {num seq k : Nat} {path : String} {n : FileName}
    (leads : Leads files num 0 k path) (found : folderName files num seq = some n)
    (away : num ≠ rootRecord) : Leads files num seq k path := by
  cases leads with
  | root => exact (away rfl).elim
  | folder _ here later =>
      rw [folderName_any found] at here
      cases here
      exact Leads.folder away found later

theorem Leads.unique {files : Files} {num seq k k' : Nat} {path path' : String}
    (leads : Leads files num seq k path) (again : Leads files num seq k' path') :
    k = k' ∧ path = path' := by
  induction leads generalizing k' path' with
  | root =>
      cases again with
      | root => exact ⟨rfl, rfl⟩
      | folder away => exact (away rfl).elim
  | folder away found later ih =>
      cases again with
      | root => exact (away rfl).elim
      | folder _ foundToo laterToo =>
          rw [found] at foundToo
          cases foundToo
          obtain ⟨same, text⟩ := ih laterToo
          exact ⟨by rw [same], by rw [text]⟩

/-! The cache. -/

/-- What the cache says is so, and of folders on the way of what is listed only. -/
structure Sound (files : Files) (dirPath : Cache) : Prop where
  top : dirPath rootRecord = some (some "")
  path : ∀ q path, dirPath q = some (some path) → q ≠ rootRecord →
    Resolved files q ∧ ∃ k, Leads files q 0 k path
  lost : ∀ q, dirPath q = some none → ∀ k path, ¬ Leads files q 0 k path

/-- A lookup the cache cannot lead astray. -/
structure Askable (files : Files) (budget num seq : Nat) : Prop where
  short : ∀ k path, Leads files num seq k path → k ≤ budget
  fresh : ∀ j q, Strays files num seq j q → j ≤ budget → ¬ Resolved files q
  passes : ∀ k path q, Leads files num seq k path → Passes files num seq q → Resolved files q

theorem Askable.parent {files : Files} {budget num seq : Nat} {n : FileName}
    (askable : Askable files (budget + 1) num seq) (away : num ≠ rootRecord)
    (found : folderName files num seq = some n) :
    Askable files budget n.parent n.parentSeq where
  short k path leads := by
    have bound := askable.short (k + 1) _ (Leads.folder away found leads)
    omega
  fresh j q strays near := askable.fresh (j + 1) q (Strays.later away found strays) (by omega)
  passes k path q leads passes :=
    askable.passes (k + 1) _ q (Leads.folder away found leads) (Passes.later away found passes)

theorem Sound.known {files : Files} {dirPath : Cache} (sound : Sound files dirPath)
    {budget num seq : Nat} {known : Option String} (askable : Askable files budget num seq)
    (cached : dirPath num = some known) (path : String) :
    known = some path ↔ ∃ k, Leads files num seq k path := by
  by_cases away : num = rootRecord
  · subst away
    rw [sound.top] at cached
    cases cached
    constructor
    · intro same
      cases same
      exact ⟨0, Leads.root seq⟩
    · rintro ⟨k, leads⟩
      rw [((Leads.root seq).unique leads).2]
  · cases known with
    | none =>
        constructor
        · exact fun same => by cases same
        · rintro ⟨k, leads⟩
          exact (sound.lost num cached k path leads.any).elim
    | some text =>
        obtain ⟨resolved, k, leads⟩ := sound.path num text cached away
        -- a folder known already is the one meant, or the reference strays to it
        have here : Leads files num seq k text := by
          cases found : folderName files num seq with
          | some n => exact leads.by_ref found away
          | none =>
              cases leads with
              | root => exact (away rfl).elim
              | folder _ now later =>
                  have strays := Strays.here away found now
                  exact (askable.fresh 0 num strays (Nat.zero_le _) resolved).elim
        constructor
        · intro same
          cases same
          exact ⟨k, here⟩
        · rintro ⟨k', again⟩
          rw [(here.unique again).2]

theorem Sound.store {files : Files} {dirPath : Cache} (sound : Sound files dirPath) {num : Nat}
    {found : Option String} (away : num ≠ rootRecord)
    (path : ∀ path, found = some path → Resolved files num ∧ ∃ k, Leads files num 0 k path)
    (lost : found = none → ∀ k path, ¬ Leads files num 0 k path) :
    Sound files (Function.update dirPath num (some found)) where
  top := by rw [Function.update_of_ne (Ne.symm away), sound.top]
  path q text cached other := by
    by_cases same : q = num
    · subst q
      rw [Function.update_self, Option.some.injEq] at cached
      exact path text cached
    · rw [Function.update_of_ne same] at cached
      exact sound.path q text cached other
  lost q cached := by
    by_cases same : q = num
    · subst q
      rw [Function.update_self, Option.some.injEq] at cached
      exact lost cached
    · rw [Function.update_of_ne same] at cached
      exact sound.lost q cached

/-- resolve answers what the chain says, and leaves the cache sound. -/
theorem resolve_spec (files : Files) (budget : Nat) (dirPath : Cache) (num seq : Nat)
    (sound : Sound files dirPath) (askable : Askable files budget num seq) :
    Sound files (resolve files budget dirPath num seq).2 ∧
      ∀ path, (resolve files budget dirPath num seq).1 = some path ↔
        ∃ k, Leads files num seq k path := by
  induction budget generalizing dirPath num seq with
  | zero =>
      unfold resolve
      cases cached : dirPath num with
      | some known => exact ⟨sound, sound.known askable cached⟩
      | none =>
          have away : num ≠ rootRecord := by
            intro same
            rw [same, sound.top] at cached
            cases cached
          refine ⟨sound, fun path => ⟨fun same => (by cases same), ?_⟩⟩
          rintro ⟨k, leads⟩
          have bound := askable.short k path leads
          cases leads with
          | root => exact (away rfl).elim
          | folder => omega
  | succ budget ih =>
      unfold resolve
      cases cached : dirPath num with
      | some known => exact ⟨sound, sound.known askable cached⟩
      | none =>
          have away : num ≠ rootRecord := by
            intro same
            rw [same, sound.top] at cached
            cases cached
          cases found : folderName files num seq with
          | none =>
              refine ⟨sound, fun path => ⟨fun same => (by cases same), ?_⟩⟩
              rintro ⟨k, leads⟩
              cases leads with
              | root => exact (away rfl).elim
              | folder _ here => rw [found] at here; cases here
          | some n =>
              obtain ⟨next, answers⟩ := ih dirPath n.parent n.parentSeq sound
                (askable.parent away found)
              have spec : ∀ path,
                  (resolve files budget dirPath n.parent n.parentSeq).1.map (joinPath · n.name) =
                    some path ↔ ∃ k, Leads files num seq k path := by
                intro path
                rw [Option.map_eq_some_iff]
                constructor
                · rintro ⟨parent, answer, rfl⟩
                  obtain ⟨k, leads⟩ := (answers parent).mp answer
                  exact ⟨k + 1, Leads.folder away found leads⟩
                · rintro ⟨k, leads⟩
                  cases leads with
                  | root => exact (away rfl).elim
                  | folder _ here later =>
                      rw [found] at here
                      cases here
                      exact ⟨_, (answers _).mpr ⟨_, later⟩, rfl⟩
              refine ⟨?_, spec⟩
              apply next.store away
              · intro path same
                obtain ⟨k, leads⟩ := (spec path).mp same
                exact ⟨askable.passes k path num leads (Passes.here away found), k, leads.any⟩
              · intro none_ k path leads
                have answer := (spec path).mpr ⟨k, leads.by_ref found away⟩
                rw [none_] at answer
                cases answer

/-! The listing of a volume all of whose references can be followed. -/

/-- The entry a name is listed as. -/
def Shows (files : Files) (num : Nat) (f : Record) (n : FileName) (e : Entry) : Prop :=
  ∃ k path, Leads files n.parent n.parentSeq k path ∧ reserved num path n = false ∧
    e = entryOf num f path n

theorem Followable.askable {files : Files} (followable : Followable files) {num : Nat}
    {f : Record} {n : FileName} (named : Named files num f n) :
    Askable files maxDepth n.parent n.parentSeq where
  short k path leads := followable.short num f n k path named leads
  fresh j q strays near := followable.fresh num f n j q named strays near
  passes k path _ leads passes := ⟨num, f, n, k, path, named, leads, passes⟩

theorem mem_shown (num : Nat) (f : Record) (n : FileName) (parent : Option String) (e : Entry) :
    e ∈ shown num f n parent ↔
      ∃ path, parent = some path ∧ reserved num path n = false ∧ e = entryOf num f path n := by
  cases parent with
  | none => simp [shown]
  | some path =>
      cases hidden : reserved num path n with
      | false => simp [shown, hidden]
      | true => simp [shown, hidden]

theorem visitName_spec {files : Files} (followable : Followable files) {num : Nat} {f : Record}
    {n : FileName} (named : Named files num f n) (s : Listing) (sound : Sound files s.dirPath) :
    Sound files (visitName files num f s n).dirPath ∧
      ∀ e, e ∈ (visitName files num f s n).entries ↔ e ∈ s.entries ∨ Shows files num f n e := by
  obtain ⟨next, answers⟩ := resolve_spec files maxDepth s.dirPath n.parent n.parentSeq sound
    (followable.askable named)
  refine ⟨next, fun e => ?_⟩
  have entries : (visitName files num f s n).entries = s.entries ++
      shown num f n (resolve files maxDepth s.dirPath n.parent n.parentSeq).1 := rfl
  rw [entries, List.mem_append, mem_shown]
  apply or_congr_right
  constructor
  · rintro ⟨path, answer, visible, same⟩
    obtain ⟨k, leads⟩ := (answers path).mp answer
    exact ⟨k, path, leads, visible, same⟩
  · rintro ⟨k, path, leads, visible, same⟩
    exact ⟨path, (answers path).mpr ⟨k, leads⟩, visible, same⟩

theorem visitNames_spec {files : Files} (followable : Followable files) {num : Nat} {f : Record}
    (names : List FileName) (named : ∀ n ∈ names, Named files num f n) (s : Listing)
    (sound : Sound files s.dirPath) :
    Sound files (names.foldl (visitName files num f) s).dirPath ∧
      ∀ e, e ∈ (names.foldl (visitName files num f) s).entries ↔
        e ∈ s.entries ∨ ∃ n ∈ names, Shows files num f n e := by
  induction names generalizing s with
  | nil => exact ⟨sound, fun e => by simp⟩
  | cons n rest ih =>
      obtain ⟨next, first⟩ := visitName_spec followable (named n (List.mem_cons_self ..)) s sound
      obtain ⟨last, later⟩ := ih (fun m listed => named m (List.mem_cons_of_mem _ listed)) _ next
      refine ⟨last, fun e => ?_⟩
      rw [List.foldl_cons, later, first, or_assoc, List.exists_mem_cons_iff]

theorem visitRecord_spec {files : Files} (followable : Followable files) (s : Listing) (num : Nat)
    (sound : Sound files s.dirPath) :
    Sound files (visitRecord files s num).dirPath ∧
      ∀ e, e ∈ (visitRecord files s num).entries ↔
        e ∈ s.entries ∨ ∃ f n, Named files num f n ∧ Shows files num f n e := by
  unfold visitRecord
  cases record : files num with
  | none =>
      refine ⟨sound, fun e => ⟨Or.inl, ?_⟩⟩
      rintro (known | ⟨f, n, named, _⟩)
      · exact known
      · rw [named.found] at record
        cases record
  | some f =>
      simp only
      split
      · next passed =>
          refine ⟨sound, fun e => ⟨Or.inl, ?_⟩⟩
          rintro (known | ⟨g, n, named, _⟩)
          · exact known
          · have same := named.found
            rw [record, Option.some.injEq] at same
            subst g
            have own := named.own
            rw [Bool.or_eq_true, named.inUse, decide_eq_true_eq] at passed
            rcases passed with unused | metafile
            · cases unused
            · omega
      · next used =>
          rw [Bool.or_eq_true, not_or, decide_eq_true_eq] at used
          have named : ∀ n ∈ f.names, Named files num f n := fun n listed =>
            ⟨record, by simpa using used.1, by omega, listed⟩
          obtain ⟨next, all⟩ := visitNames_spec followable f.names named s sound
          refine ⟨next, fun e => ?_⟩
          rw [all]
          apply or_congr_right
          constructor
          · rintro ⟨n, listed, shows⟩
            exact ⟨f, n, named n listed, shows⟩
          · rintro ⟨g, n, it, shows⟩
            have same := it.found
            rw [record, Option.some.injEq] at same
            subst g
            exact ⟨n, it.name, shows⟩

theorem visitRecords_spec {files : Files} (followable : Followable files) (order : List Nat)
    (s : Listing) (sound : Sound files s.dirPath) :
    ∀ e, e ∈ (order.foldl (visitRecord files) s).entries ↔
      e ∈ s.entries ∨ ∃ num ∈ order, ∃ f n, Named files num f n ∧ Shows files num f n e := by
  induction order generalizing s with
  | nil => exact fun e => by simp
  | cons num rest ih =>
      obtain ⟨next, first⟩ := visitRecord_spec followable s num sound
      intro e
      rw [List.foldl_cons, ih _ next, first, or_assoc, List.exists_mem_cons_iff]

theorem sound_first (files : Files) : Sound files Cache.first where
  top := if_pos rfl
  path _ path cached away := by
    unfold Cache.first at cached
    rw [if_neg away] at cached
    cases cached
  lost _ cached := by
    unfold Cache.first at cached
    split at cached
    · cases cached
    · cases cached

theorem mem_buildEntries (files : Files) (order : List Nat) (e : Entry) :
    e ∈ buildEntries files order ↔
      e ∈ (order.foldl (visitRecord files) ⟨Cache.first, []⟩).entries := by
  unfold buildEntries
  rw [List.mem_mergeSort]

theorem exact_of_followable (files : Files) (followable : Followable files) : Exact files := by
  have listed : ∀ order, RangesOver files order → ∀ e,
      e ∈ buildEntries files order ↔ Listed files e := by
    intro order ranges e
    rw [mem_buildEntries, visitRecords_spec followable order _ (sound_first files)]
    constructor
    · rintro (none_ | ⟨num, _, f, n, named, k, path, leads, visible, same⟩)
      · exact (List.not_mem_nil none_).elim
      · exact ⟨num, f, n, k, path, named, leads, visible, same⟩
    · rintro ⟨num, f, n, k, path, named, leads, visible, same⟩
      refine .inr ⟨num, ?_, f, n, named, k, path, leads, visible, same⟩
      rw [ranges.all, named.found]
      rfl
  refine ⟨fun first second one two e => ?_, listed⟩
  rw [listed first one, listed second two]

/-! The other way, where every record has one name at most: an order that goes
wrong is one that starts with the records concerned. -/

structure Plain (files : Files) : Prop where
  single : ∀ num f, files num = some f → f.names.length ≤ 1
  names : ∀ num f n, files num = some f → n ∈ f.names → n.name ≠ ""

theorem Strays.not_leads {files : Files} {num seq j q k : Nat} {path : String}
    (strays : Strays files num seq j q) : ¬ Leads files num seq k path := by
  intro leads
  induction strays generalizing k path with
  | here away broken =>
      cases leads with
      | root => exact away rfl
      | folder _ found => rw [broken] at found; cases found
  | later away found _ ih =>
      cases leads with
      | root => exact away rfl
      | folder _ here later =>
          rw [found] at here
          cases here
          exact ih later

theorem Passes.leads {files : Files} {num seq q k : Nat} {path : String}
    (passes : Passes files num seq q) (leads : Leads files num seq k path) :
    ∃ k path, Leads files q 0 k path := by
  induction passes generalizing k path with
  | here => exact ⟨k, path, leads.any⟩
  | later away found _ ih =>
      cases leads with
      | root => exact (away rfl).elim
      | folder _ here later =>
          rw [found] at here
          cases here
          exact ih later

theorem folderName_mem {files : Files} {num seq : Nat} {n : FileName}
    (found : folderName files num seq = some n) : ∃ f, files num = some f ∧ n ∈ f.names := by
  unfold folderName at found
  cases record : files num with
  | none => simp [record] at found
  | some f =>
      simp only [record] at found
      split at found
      · cases found
      · exact ⟨f, rfl, List.mem_of_head? found⟩

theorem joinPath_filled (dir name : String) (filled : name ≠ "") : joinPath dir name ≠ "" := by
  unfold joinPath
  split
  · exact filled
  · intro blank
    have chars := congrArg String.toList blank
    simp [String.toList_append] at chars

theorem Plain.filled {files : Files} (plain : Plain files) {num seq : Nat} {n : FileName}
    (found : folderName files num seq = some n) (dir : String) : joinPath dir n.name ≠ "" := by
  obtain ⟨f, record, listed⟩ := folderName_mem found
  exact joinPath_filled dir n.name (plain.names num f n record listed)

theorem Plain.path_filled {files : Files} (plain : Plain files) {num seq k : Nat} {path : String}
    (leads : Leads files num seq k path) (some_ : 0 < k) : path ≠ "" := by
  cases leads with
  | root => exact (Nat.lt_irrefl 0 some_).elim
  | folder _ found _ => exact plain.filled found _

theorem first_away {num : Nat} (away : num ≠ rootRecord) : Cache.first num = none := if_neg away

/-- A lookup that nothing cached helps gives up on a chain past its budget. -/
theorem resolve_deep {files : Files} {num seq k : Nat} {path : String}
    (leads : Leads files num seq k path) (budget : Nat) (deep : budget < k) :
    (resolve files budget Cache.first num seq).1 = none := by
  induction leads generalizing budget with
  | root => exact (Nat.not_lt_zero budget deep).elim
  | folder away found _ ih =>
      unfold resolve
      rw [first_away away]
      cases budget with
      | zero => rfl
      | succ budget =>
          simp only [found]
          rw [ih budget (by omega)]
          rfl

/-- A lookup on its own caches the folders of its chain, and no others. -/
theorem resolve_alone {files : Files} (plain : Plain files) {num seq k : Nat} {path : String}
    (leads : Leads files num seq k path) (budget : Nat) (short : k ≤ budget) :
    (∀ q, Passes files num seq q → ∃ text, text ≠ "" ∧
      (resolve files budget Cache.first num seq).2 q = some (some text)) ∧
    (∀ q, ¬ Passes files num seq q →
      (resolve files budget Cache.first num seq).2 q = Cache.first q) ∧
    (resolve files budget Cache.first num seq).1 = some path := by
  induction leads generalizing budget with
  | root seq =>
      have alone : resolve files budget Cache.first rootRecord seq = (some "", Cache.first) := by
        unfold resolve
        rfl
      rw [alone]
      refine ⟨fun q passes => ?_, fun _ _ => rfl, rfl⟩
      cases passes with
      | here away => exact (away rfl).elim
      | later away => exact (away rfl).elim
  | @folder num seq k n path away found _ ih =>
      cases budget with
      | zero => omega
      | succ budget =>
          obtain ⟨passed, aside, answer⟩ := ih budget (by omega)
          have whole : resolve files (budget + 1) Cache.first num seq =
              (some (joinPath path n.name),
                Function.update (resolve files budget Cache.first n.parent n.parentSeq).2 num
                  (some (some (joinPath path n.name)))) := by
            conv_lhs => unfold resolve
            rw [first_away away]
            simp only [found, answer, Option.map_some]
          rw [whole]
          refine ⟨fun q passes => ?_, fun q others => ?_, rfl⟩
          · by_cases same : q = num
            · subst q
              exact ⟨_, plain.filled found path, Function.update_self ..⟩
            · simp only [Function.update_of_ne same]
              cases passes with
              | here => exact (same rfl).elim
              | later _ here later =>
                  rw [found] at here
                  cases here
                  exact passed q later
          · have other : q ≠ num := fun same => others (same.symm ▸ Passes.here away found)
            simp only [Function.update_of_ne other]
            exact aside q fun later => others (Passes.later away found later)

/-- A reference strays into the cache once the folder is there. -/
theorem resolve_astray {files : Files} (plain : Plain files) {num seq j q : Nat}
    (strays : Strays files num seq j q) (dirPath : Cache) (budget : Nat) (near : j ≤ budget)
    (known : ∃ text, text ≠ "" ∧ dirPath q = some (some text))
    (unled : ∀ num, (∀ k path, ¬ Leads files num 0 k path) → dirPath num = none) :
    ∃ text, text ≠ "" ∧ (resolve files budget dirPath num seq).1 = some text := by
  induction strays generalizing budget with
  | here =>
      obtain ⟨text, filled, cached⟩ := known
      refine ⟨text, filled, ?_⟩
      unfold resolve
      rw [cached]
  | @later num seq j q n away found strays ih =>
      cases budget with
      | zero => omega
      | succ budget =>
          have blank : dirPath num = none := by
            apply unled
            intro k path leads
            cases leads.by_ref found away with
            | root => exact away rfl
            | folder _ here later =>
                rw [found] at here
                cases here
                exact strays.not_leads later
          obtain ⟨text, _, answer⟩ := ih budget (by omega) known
          refine ⟨joinPath text n.name, plain.filled found text, ?_⟩
          unfold resolve
          rw [blank]
          simp only [found, answer, Option.map_some]

theorem entries_grow (files : Files) (order : List Nat) (s : Listing) (e : Entry)
    (known : e ∈ s.entries) : e ∈ (order.foldl (visitRecord files) s).entries := by
  have name : ∀ num f (names : List FileName) (s : Listing), e ∈ s.entries →
      e ∈ (names.foldl (visitName files num f) s).entries := by
    intro num f names
    induction names with
    | nil => exact fun _ known => known
    | cons n rest ih => exact fun s known => ih _ (List.mem_append_left _ known)
  induction order generalizing s with
  | nil => exact known
  | cons num rest ih =>
      apply ih
      unfold visitRecord
      split
      · exact known
      · split
        · exact known
        · exact name _ _ _ s known

/-- A record's entries carry its number. -/
theorem entries_from (files : Files) (order : List Nat) (s : Listing) (e : Entry)
    (listed : e ∈ (order.foldl (visitRecord files) s).entries) :
    e ∈ s.entries ∨ e.record ∈ order := by
  have name : ∀ num f (names : List FileName) (s : Listing),
      e ∈ (names.foldl (visitName files num f) s).entries → e ∈ s.entries ∨ e.record = num := by
    intro num f names
    induction names with
    | nil => exact fun _ known => .inl known
    | cons n rest ih =>
        intro s listed
        rcases ih _ listed with earlier | own
        · rcases List.mem_append.mp earlier with known | new
          · exact .inl known
          · obtain ⟨path, _, _, same⟩ := (mem_shown num f n _ e).mp new
            rw [same]
            exact .inr rfl
        · exact .inr own
  induction order generalizing s with
  | nil => exact .inl listed
  | cons num rest ih =>
      rcases ih _ listed with earlier | later
      · unfold visitRecord at earlier
        split at earlier
        · exact .inl earlier
        · split at earlier
          · exact .inl earlier
          · rcases name _ _ _ s earlier with known | own
            · exact .inl known
            · exact .inr (own ▸ List.mem_cons_self ..)
      · exact .inr (List.mem_cons_of_mem _ later)

theorem Plain.names_eq {files : Files} (plain : Plain files) {num : Nat} {f : Record}
    {n : FileName} (named : Named files num f n) : f.names = [n] := by
  have short := plain.single num f named.found
  have listed := named.name
  match names : f.names with
  | [] =>
      rw [names] at listed
      exact (List.not_mem_nil listed).elim
  | [m] =>
      rw [names, List.mem_singleton] at listed
      rw [listed]
  | _ :: _ :: _ =>
      rw [names] at short
      simp at short

/-- Visiting a record with one name asks once. -/
theorem visitRecord_single {files : Files} (plain : Plain files) {num : Nat} {f : Record}
    {n : FileName} (named : Named files num f n) (s : Listing) :
    visitRecord files s num = visitName files num f s n := by
  have own := named.own
  unfold visitRecord
  simp only [named.found, named.inUse, Bool.not_true, Bool.false_or, decide_eq_true_eq]
  rw [if_neg (by omega), plain.names_eq named]
  rfl

theorem ranges_first {files : Files} {order : List Nat} (ranges : RangesOver files order)
    {num : Nat} (member : num ∈ order) : RangesOver files (num :: order.erase num) := by
  have perm := List.perm_cons_erase member
  exact ⟨(perm.nodup_iff.mp ranges.once), fun other => by rw [← perm.mem_iff, ranges.all]⟩

theorem Named.member {files : Files} {order : List Nat} (ranges : RangesOver files order)
    {num : Nat} {f : Record} {n : FileName} (named : Named files num f n) : num ∈ order := by
  rw [ranges.all, named.found]
  rfl

/-- A chain too long is not followed from the first record ranged over. -/
theorem short_of_exact {files : Files} {order : List Nat} (ranges : RangesOver files order)
    (plain : Plain files) (exact_ : Exact files) {num : Nat} {f : Record} {n : FileName} {k : Nat}
    {path : String} (named : Named files num f n) (leads : Leads files n.parent n.parentSeq k path) :
    k ≤ maxDepth := by
  by_contra deep
  have filled : path ≠ "" := plain.path_filled leads (by omega)
  have visible : reserved num path n = false := by simp [reserved, filled]
  have first := ranges_first ranges (named.member ranges)
  have there := (exact_.listed _ first (entryOf num f path n)).mpr
    ⟨num, f, n, k, path, named, leads, visible, rfl⟩
  rw [mem_buildEntries, List.foldl_cons, visitRecord_single plain named] at there
  rcases entries_from files _ _ _ there with own | later
  · have lost := resolve_deep leads maxDepth (by omega)
    have entries : (visitName files num f ⟨Cache.first, []⟩ n).entries =
        [] ++ shown num f n (resolve files maxDepth Cache.first n.parent n.parentSeq).1 := rfl
    rw [entries, lost] at own
    exact List.not_mem_nil own
  · have once := first.once
    exact (List.nodup_cons.mp once).1 later

theorem fresh_of_exact {files : Files} {order : List Nat} (ranges : RangesOver files order)
    (plain : Plain files) (exact_ : Exact files) {num : Nat} {f : Record} {n : FileName} {j q : Nat}
    (named : Named files num f n) (strays : Strays files n.parent n.parentSeq j q)
    (near : j ≤ maxDepth) : ¬ Resolved files q := by
  rintro ⟨other, g, m, k, path, namedToo, leads, passes⟩
  have apart : num ≠ other := by
    intro same
    subst other
    have record := namedToo.found
    rw [named.found, Option.some.injEq] at record
    subst g
    have one := plain.names_eq named
    rw [plain.names_eq namedToo, List.singleton_inj] at one
    subst m
    exact strays.not_leads leads
  -- the folder's own way is ranged over first, then the name that strays to it
  have ahead := ranges_first ranges (named.member ranges)
  have first := ranges_first ahead (namedToo.member ahead)
  have short := short_of_exact ranges plain exact_ namedToo leads
  obtain ⟨passed, aside, _⟩ := resolve_alone plain leads maxDepth short
  have unled : ∀ num, (∀ k path, ¬ Leads files num 0 k path) →
      (resolve files maxDepth Cache.first m.parent m.parentSeq).2 num = none := by
    intro num unled
    rw [aside num fun through => (by
      obtain ⟨k, path, there⟩ := through.leads leads
      exact unled k path there)]
    apply first_away
    intro same
    subst num
    exact unled 0 "" (Leads.root 0)
  obtain ⟨text, filled, answer⟩ := resolve_astray plain strays _ maxDepth near (passed q passes) unled
  have visible : reserved num text n = false := by simp [reserved, filled]
  have erased : (num :: order.erase num).erase other = num :: (order.erase num).erase other := by
    rw [List.erase_cons_tail]
    simpa using apart
  rw [erased] at first
  have there : entryOf num f text n ∈ buildEntries files
      (other :: num :: (order.erase num).erase other) := by
    rw [mem_buildEntries, List.foldl_cons, List.foldl_cons]
    apply entries_grow
    rw [visitRecord_single plain namedToo, visitRecord_single plain named]
    apply List.mem_append_right
    rw [mem_shown]
    exact ⟨text, answer, visible, rfl⟩
  obtain ⟨number, g', n', k', path', it, leads', _, same⟩ := (exact_.listed _ first _).mp there
  have own : num = number := congrArg Entry.record same
  subst number
  have record := it.found
  rw [named.found, Option.some.injEq] at record
  subst g'
  have one := plain.names_eq named
  rw [plain.names_eq it, List.singleton_inj] at one
  subst n'
  exact strays.not_leads leads'

def reusedFolder : Files
  | 20 => some { seq := 2, inUse := true, isDir := true, names := [⟨5, 5, "a"⟩] }
  | 30 => some { seq := 1, inUse := true, isDir := false, names := [⟨20, 2, "x"⟩] }
  | 40 => some { seq := 1, inUse := true, isDir := false, names := [⟨20, 1, "lost"⟩] }
  | _ => none

def lostFile : Entry where
  path := "a/lost"
  isDir := false
  mtime := 0
  created := 0
  attrs := 0
  record := 40
  securityID := 0
  streams := []
  hasEAs := false
  size := 0

theorem reusedFolder_ranges (order : List Nat) (same : order.Perm [20, 30, 40]) :
    RangesOver reusedFolder order := by
  refine ⟨same.nodup_iff.mpr (by decide), fun num => ?_⟩
  rw [same.mem_iff]
  unfold reusedFolder
  split <;> simp_all

/-- A file in a folder of the root. -/
def oneFolder : Files
  | 20 => some { seq := 2, inUse := true, isDir := true, names := [⟨5, 5, "a"⟩] }
  | 30 => some { seq := 1, inUse := true, isDir := false, names := [⟨20, 2, "x"⟩] }
  | _ => none

theorem followable_of_leads (files : Files)
    (leads : ∀ num f n, Named files num f n → ∃ k path,
      Leads files n.parent n.parentSeq k path ∧ k ≤ maxDepth) : Followable files where
  short num f n k path named chain := by
    obtain ⟨k', path', there, short⟩ := leads num f n named
    rw [(chain.unique there).1]
    exact short
  fresh num f n j q named strays := by
    obtain ⟨k, path, there, _⟩ := leads num f n named
    exact (strays.not_leads there).elim

end ProxmoxBackup.NtfsListing
