import ProxmoxBackup.GoValues
import ProxmoxBackup.ByteOrder
import Mathlib.Data.List.Basic
import Mathlib.Data.List.TakeWhile

/-! A folder of an image's volume as the comparison sees it: the part of the flat listing
below a path, without what a walk of the live folder leaves out. The walk goes down
folder by folder and prunes; the listing is gone over twice, folders before files. -/
namespace ProxmoxBackup.FolderEntries

open GoValues ByteOrder

abbrev Bytes := List UInt8

def slash : UInt8 := 47

/-- A listed entry; `mtime` is what `imagefs.UnixSeconds` makes of its time. -/
structure Entry where
  path : Bytes
  isDir : Bool
  symlink : Bool
  size : Nat
  mtime : Int
  deriving DecidableEq

structure IndexEntry where
  path : Bytes
  isDir : Bool
  size : Nat
  mtime : Int
  deriving DecidableEq

/-- The rules both sides ask. `patterns` is `IsExcludedByPatterns` with the set's list and
root, false for an empty list; `volumeRoot` is `IsVolumeRoot` of the root. -/
structure Rules where
  patterns : Bytes → Bytes → Bool
  autoFolder : Bytes → Bool → Bool
  autoFile : Bytes → Bool
  volumeRoot : Bool

/-- What stands behind the last slash. -/
def baseName (path : Bytes) : Bytes := (path.reverse.takeWhile (· ≠ slash)).reverse

/-- What stands before the last slash, nothing where there is none. -/
def dirName (path : Bytes) : Bytes := ((path.reverse.dropWhile (· ≠ slash)).drop 1).reverse

def hasSlash (path : Bytes) : Bool := slash ∈ path

def norm (lower : Bytes → Bytes) (caseless : Bool) (s : Bytes) : Bytes :=
  if caseless then lower s else s

/-- What the entries of folder `sub` start with, in lower case on a caseless volume. -/
def subPrefix (lower : Bytes → Bytes) (caseless : Bool) (sub : Bytes) : Bytes :=
  if sub = [] then [] else norm lower caseless (sub ++ [slash])

/-- `under`: one of the folders above `rel` is excluded. -/
def under (excludedDirs : List Bytes) : Nat → Bytes → Bool
  | 0, _ => false
  | fuel + 1, rel =>
      if dirName rel = [] then false
      else excludedDirs.contains (dirName rel) || under excludedDirs fuel (dirName rel)

structure Pass where
  excludedDirs : List Bytes
  out : List IndexEntry

def indexEntry (rel : Bytes) (e : Entry) : IndexEntry where
  path := rel
  isDir := e.isDir
  size := if e.isDir then 0 else e.size
  mtime := e.mtime

/-- The entry's own name or path is excluded, as the listing asks it. -/
def Rules.listed (rules : Rules) (e : Entry) (rel : Bytes) : Bool :=
  rules.patterns rel (baseName rel) ||
    (e.isDir && rules.autoFolder (baseName rel) (!hasSlash e.path)) ||
    (!e.isDir && rules.autoFile (baseName rel))

def visit (rules : Rules) (rel : Bytes) (e : Entry) (s : Pass) : Pass :=
  if rel = [] then s
  else if rules.listed e rel || under s.excludedDirs rel.length rel then
    if e.isDir then { s with excludedDirs := rel :: s.excludedDirs } else s
  else { s with out := s.out ++ [indexEntry rel e] }

/-- One pass over the listing; cutting a path shorter than the prefix panics. -/
def passOver (lower : Bytes → Bytes) (caseless : Bool) (sub : Bytes) (rules : Rules)
    (dirs : Bool) : List Entry → Pass → Outcome Empty Pass
  | [], s => .ok s
  | e :: rest, s =>
      if e.isDir ≠ dirs then passOver lower caseless sub rules dirs rest s
      else if ¬ (subPrefix lower caseless sub).isPrefixOf (norm lower caseless e.path) then
        passOver lower caseless sub rules dirs rest s
      else if e.symlink then passOver lower caseless sub rules dirs rest s
      else if e.path.length < (subPrefix lower caseless sub).length then .panicked
      else
        passOver lower caseless sub rules dirs rest
          (visit rules (e.path.drop (subPrefix lower caseless sub).length) e s)

/-- The entries before they are sorted. -/
def folderEntries (lower : Bytes → Bytes) (caseless : Bool) (all : List Entry) (sub : Bytes)
    (rules : Rules) : Outcome Empty (List IndexEntry) := do
  let folders ← passOver lower caseless sub rules true all { excludedDirs := [], out := [] }
  let files ← passOver lower caseless sub rules false all folders
  return files.out

/-! The walk. -/

def join (dir name : Bytes) : Bytes := if dir = [] then name else dir ++ slash :: name

/-- What the walk asks of an entry at `rel`. -/
def Rules.walked (rules : Rules) (e : Entry) (rel : Bytes) : Bool :=
  rules.patterns rel (baseName rel) ||
    (e.isDir && rules.autoFolder (baseName rel) (!hasSlash rel && rules.volumeRoot)) ||
    (!e.isDir && rules.autoFile (baseName rel))

/-- `walk` on the tree of the listing, links left out; `dir` is the folder's path in the
volume and `rel` its path below the root. -/
def walk (all : List Entry) (rules : Rules) : Nat → Bytes → Bytes → List IndexEntry
  | 0, _, _ => []
  | fuel + 1, dir, rel =>
      (all.filter fun e => dirName e.path = dir).flatMap fun e =>
        let name := baseName e.path
        let childRel := join rel name
        if rules.patterns childRel name then []
        else if e.symlink then []
        else if e.isDir then
          if rules.autoFolder name (rel = [] && rules.volumeRoot) then []
          else indexEntry childRel e :: walk all rules fuel e.path childRel
        else if rules.autoFile name then []
        else [indexEntry childRel e]

/-- More levels than any path has. -/
def depthOf : List Entry → Nat
  | [] => 1
  | e :: rest => e.path.length + depthOf rest

def walkLiveFolder (all : List Entry) (dir : Bytes) (rules : Rules) : List IndexEntry :=
  walk all rules (depthOf all) dir []

/-! Paths. -/

theorem base_dir (a : Bytes) {n : Bytes} (plain : slash ∉ n) :
    baseName (a ++ slash :: n) = n ∧ dirName (a ++ slash :: n) = a := by
  have back : (a ++ slash :: n).reverse = n.reverse ++ slash :: a.reverse := by simp
  have other : ∀ c ∈ n.reverse, decide (c ≠ slash) = true := by
    intro c inside
    refine decide_eq_true (fun same => plain ?_)
    rw [← same]
    exact List.mem_reverse.mp inside
  constructor
  · rw [baseName, back, List.takeWhile_append_of_pos other]
    simp
  · rw [dirName, back, List.dropWhile_append_of_pos other]
    simp

theorem base_plain {n : Bytes} (plain : slash ∉ n) : baseName n = n ∧ dirName n = [] := by
  have other : ∀ c ∈ n.reverse, decide (c ≠ slash) = true := by
    intro c inside
    refine decide_eq_true (fun same => plain ?_)
    rw [← same]
    exact List.mem_reverse.mp inside
  constructor
  · rw [baseName, List.takeWhile_eq_self_iff.mpr other, List.reverse_reverse]
  · rw [dirName, List.dropWhile_eq_nil_iff.mpr other]
    rfl

theorem last_slash {p : Bytes} (inside : slash ∈ p) :
    p = dirName p ++ slash :: baseName p ∧ slash ∉ baseName p := by
  obtain ⟨n, a, back, plain⟩ := List.eq_append_cons_of_mem (List.mem_reverse.mpr inside)
  have split : p = a.reverse ++ slash :: n.reverse := by
    rw [← List.reverse_reverse p, back]
    simp
  have other : slash ∉ n.reverse := fun listed => plain (List.mem_reverse.mp listed)
  obtain ⟨base, dir⟩ := base_dir a.reverse other
  rw [split, base, dir]
  exact ⟨rfl, other⟩

/-- `u` is a folder above `t`. -/
def Above (u t : Bytes) : Prop := ∃ b, t = u ++ slash :: b

theorem above_trans {u v t : Bytes} (first : Above u v) (second : Above v t) : Above u t := by
  obtain ⟨b, rfl⟩ := first
  obtain ⟨c, rfl⟩ := second
  exact ⟨b ++ slash :: c, by simp⟩

theorem above_longer {u t : Bytes} (above : Above u t) : u.length < t.length := by
  obtain ⟨b, rfl⟩ := above
  simp

/-- The nearest folder above, and those above that one. -/
theorem above_iff {u t : Bytes} (some_name : u ≠ []) :
    Above u t ↔ dirName t ≠ [] ∧ (u = dirName t ∨ Above u (dirName t)) := by
  constructor
  · rintro ⟨b, rfl⟩
    by_cases plain : slash ∈ b
    · obtain ⟨split, base⟩ := last_slash plain
      have whole : u ++ slash :: b = (u ++ slash :: dirName b) ++ slash :: baseName b := by
        rw [List.append_assoc, List.cons_append, ← split]
      rw [whole, (base_dir _ base).2]
      exact ⟨by simp, .inr ⟨dirName b, rfl⟩⟩
    · rw [(base_dir u plain).2]
      exact ⟨some_name, .inl rfl⟩
  · rintro ⟨some_dir, near⟩
    have inside : slash ∈ t := by
      by_contra plain
      exact some_dir (base_plain plain).2
    have split := (last_slash inside).1
    have parent : Above (dirName t) t := ⟨baseName t, split⟩
    obtain rfl | above := near
    · exact parent
    · exact above_trans above parent

theorem under_iff (excludedDirs : List Bytes) {fuel : Nat} {rel : Bytes}
    (enough : rel.length ≤ fuel) :
    under excludedDirs fuel rel = true ↔ ∃ u ∈ excludedDirs, u ≠ [] ∧ Above u rel := by
  induction fuel generalizing rel with
  | zero =>
      have empty : rel = [] := List.length_eq_zero_iff.mp (Nat.le_zero.mp enough)
      subst empty
      refine ⟨fun yes => absurd yes Bool.false_ne_true, ?_⟩
      rintro ⟨u, -, -, b, same⟩
      simp at same
  | succ fuel ih =>
      rw [under]
      by_cases top : dirName rel = []
      · rw [if_pos top]
        refine ⟨fun yes => absurd yes Bool.false_ne_true, ?_⟩
        rintro ⟨u, -, some_name, above⟩
        exact absurd top ((above_iff some_name).mp above).1
      · have inside : slash ∈ rel := by
          by_contra plain
          exact top (base_plain plain).2
        have shorter := above_longer ⟨_, (last_slash inside).1⟩
        rw [if_neg top, Bool.or_eq_true, List.contains_iff_mem, ih (by omega)]
        constructor
        · rintro (here | ⟨u, listed, some_name, above⟩)
          · exact ⟨dirName rel, here, top, (above_iff top).mpr ⟨top, .inl rfl⟩⟩
          · exact ⟨u, listed, some_name, (above_iff some_name).mpr ⟨top, .inr above⟩⟩
        · rintro ⟨u, listed, some_name, above⟩
          obtain ⟨-, rfl | higher⟩ := (above_iff some_name).mp above
          · exact .inl listed
          · exact .inr ⟨u, listed, some_name, higher⟩

theorem join_some {d : Bytes} (some_dir : d ≠ []) (t : Bytes) : join d t = d ++ slash :: t := by
  rw [join, if_neg some_dir]

theorem join_join {d name : Bytes} (some_name : name ≠ []) (t : Bytes) :
    join (join d name) t = join d (name ++ slash :: t) := by
  by_cases top : d = []
  · subst top
    simp [join, some_name]
  · simp [join, top]

theorem join_base (d : Bytes) {n : Bytes} (plain : slash ∉ n) :
    baseName (join d n) = n ∧ dirName (join d n) = d := by
  by_cases top : d = []
  · subst top
    simpa [join] using base_plain plain
  · rw [join_some top]
    exact base_dir d plain

theorem join_above {d u t : Bytes} (above : Above u t) :
    Above (join d u) (join d t) := by
  obtain ⟨b, rfl⟩ := above
  by_cases top : d = []
  · subst top
    exact ⟨b, by simp [join]⟩
  · exact ⟨b, by simp [join, top]⟩

theorem hasSlash_join (r : Bytes) {n : Bytes} (plain : slash ∉ n) :
    hasSlash (join r n) = decide (r ≠ []) := by
  by_cases top : r = []
  · subst top
    simp [join, hasSlash, plain]
  · simp [join, hasSlash, top]

/-- The folders above `name/t`. -/
theorem above_under {name t u : Bytes} (plain : slash ∉ name) :
    Above u (name ++ slash :: t) ↔ u = name ∨ ∃ v, u = name ++ slash :: v ∧ Above v t := by
  constructor
  · rintro ⟨b, same⟩
    obtain ⟨c, left, right⟩ | ⟨c, left, right⟩ := List.append_eq_append_iff.mp same
    · cases c with
      | nil =>
          rw [List.append_nil] at left
          exact .inl left
      | cons x v =>
          obtain ⟨rfl, rest⟩ := List.cons.inj right
          exact .inr ⟨v, left, b, rest⟩
    · cases c with
      | nil =>
          rw [List.append_nil] at left
          exact .inl left.symm
      | cons x v =>
          obtain ⟨rfl, -⟩ := List.cons.inj right
          exact absurd (left ▸ List.mem_append_right u List.mem_cons_self) plain
  · rintro (rfl | ⟨v, rfl, b, rfl⟩)
    · exact ⟨t, rfl⟩
    · exact ⟨b, by simp⟩

/-- What the listing of a volume is: distinct paths, no empty name, each below a listed
folder that is no link. -/
structure Tree (all : List Entry) : Prop where
  distinct : ∀ a ∈ all, ∀ b ∈ all, a.path = b.path → a = b
  named : ∀ e ∈ all, baseName e.path ≠ []
  relative : ∀ e ∈ all, ∀ b, e.path ≠ slash :: b
  parents : ∀ e ∈ all, slash ∈ e.path →
    ∃ d ∈ all, d.path = dirName e.path ∧ d.isDir = true ∧ d.symlink = false

theorem Tree.some_path {all : List Entry} (tree : Tree all) {e : Entry} (listed : e ∈ all) :
    e.path ≠ [] := by
  intro empty
  exact tree.named e listed (by rw [empty]; rfl)

theorem Tree.some_dir {all : List Entry} (tree : Tree all) {e : Entry} (listed : e ∈ all)
    (inside : slash ∈ e.path) : dirName e.path ≠ [] := by
  obtain ⟨d, held, same, -⟩ := tree.parents e listed inside
  rw [← same]
  exact tree.some_path held

theorem Tree.above {all : List Entry} (tree : Tree all) (n : Nat) {e : Entry} (listed : e ∈ all)
    (short : e.path.length ≤ n) {u : Bytes} (some_name : u ≠ []) (above : Above u e.path) :
    ∃ d ∈ all, d.path = u ∧ d.isDir = true ∧ d.symlink = false := by
  induction n generalizing e with
  | zero =>
      have empty : e.path = [] := List.length_eq_zero_iff.mp (Nat.le_zero.mp short)
      exact absurd empty (tree.some_path listed)
  | succ n ih =>
      obtain ⟨some_dir, near⟩ := (above_iff some_name).mp above
      have inside : slash ∈ e.path := by
        by_contra plain
        exact some_dir (base_plain plain).2
      obtain ⟨d, held, same, folder⟩ := tree.parents e listed inside
      obtain rfl | higher := near
      · exact ⟨d, held, same, folder⟩
      · have shorter := above_longer ⟨_, (last_slash inside).1⟩
        rw [← same] at higher shorter
        exact ih held (by omega) higher

theorem join_ne {d n : Bytes} (some_name : n ≠ []) : join d n ≠ [] := by
  rw [join]
  split
  · exact some_name
  · simp

theorem Tree.first_name {all : List Entry} (tree : Tree all) {e : Entry} {d n b : Bytes}
    (listed : e ∈ all) (path : e.path = join d (n ++ slash :: b)) : n ≠ [] := by
  rintro rfl
  by_cases top : d = []
  · subst top
    exact tree.relative e listed b (by simpa [join] using path)
  · have split : e.path = (d ++ [slash]) ++ slash :: b := by
      rw [path, join_some top]
      simp
    obtain ⟨c, held, same, -⟩ := tree.above _ listed (Nat.le_refl _)
      (by simp : d ++ [slash] ≠ []) ⟨b, split⟩
    have base : baseName c.path = [] := by
      rw [same]
      exact (base_dir d List.not_mem_nil).1
    exact tree.named c held base

/-- The entry at `t` below folder `d` is kept at `r/t`, and so are the folders between. -/
structure Shown (all : List Entry) (rules : Rules) (d r : Bytes) (e : Entry) (t : Bytes) : Prop where
  listed : e ∈ all
  plain : e.symlink = false
  path : e.path = join d t
  kept : rules.walked e (join r t) = false
  between : ∀ a ∈ all, ∀ u, a.path = join d u → Above u t → rules.walked a (join r u) = false

theorem child_path {all : List Entry} (tree : Tree all) {e : Entry} (listed : e ∈ all) :
    e.path = join (dirName e.path) (baseName e.path) ∧ slash ∉ baseName e.path := by
  by_cases inside : slash ∈ e.path
  · obtain ⟨split, plain⟩ := last_slash inside
    exact ⟨by rw [join_some (tree.some_dir listed inside)]; exact split, plain⟩
  · obtain ⟨base, dir⟩ := base_plain inside
    rw [base, dir]
    exact ⟨rfl, inside⟩

theorem walked_child (rules : Rules) (e : Entry) (r : Bytes) {n : Bytes} (plain : slash ∉ n) :
    rules.walked e (join r n) =
      (rules.patterns (join r n) n ||
        (e.isDir && rules.autoFolder n (decide (r = []) && rules.volumeRoot)) ||
        (!e.isDir && rules.autoFile n)) := by
  have top : (!hasSlash (join r n)) = decide (r = []) := by
    rw [hasSlash_join r plain]
    by_cases empty : r = [] <;> simp [empty]
  rw [Rules.walked, (join_base r plain).1, top]

/-- What the walk makes of one child. -/
theorem mem_child (rules : Rules) (all : List Entry) (fuel : Nat) (r : Bytes) (e : Entry)
    {n : Bytes} (plain : slash ∉ n) (x : IndexEntry) :
    x ∈ (if rules.patterns (join r n) n then []
        else if e.symlink then []
        else if e.isDir then
          if rules.autoFolder n (decide (r = []) && rules.volumeRoot) then []
          else indexEntry (join r n) e :: walk all rules fuel e.path (join r n)
        else if rules.autoFile n then []
        else [indexEntry (join r n) e]) ↔
      e.symlink = false ∧ rules.walked e (join r n) = false ∧
        (x = indexEntry (join r n) e ∨
          e.isDir = true ∧ x ∈ walk all rules fuel e.path (join r n)) := by
  rw [walked_child rules e r plain]
  cases rules.patterns (join r n) n <;> cases e.symlink <;> cases e.isDir <;>
    cases rules.autoFolder n (decide (r = []) && rules.volumeRoot) <;>
    cases rules.autoFile n <;> simp

theorem count_child {n t : Bytes} (plain : slash ∉ n) :
    (n ++ slash :: t).count slash = t.count slash + 1 := by
  rw [List.count_append, List.count_eq_zero_of_not_mem plain, List.count_cons_self, Nat.zero_add]

theorem mem_walk {all : List Entry} (tree : Tree all) (rules : Rules) (fuel : Nat) (d r : Bytes)
    (x : IndexEntry) :
    x ∈ walk all rules fuel d r ↔
      ∃ e t, Shown all rules d r e t ∧ t.count slash < fuel ∧ x = indexEntry (join r t) e := by
  induction fuel generalizing d r with
  | zero => simp [walk]
  | succ fuel ih =>
      rw [walk, List.mem_flatMap]
      constructor
      · rintro ⟨e, child, inside⟩
        obtain ⟨listed, dir⟩ := List.mem_filter.mp child
        obtain ⟨path, plain⟩ := child_path tree listed
        rw [of_decide_eq_true dir] at path
        have some_name := tree.named e listed
        generalize baseName e.path = n at path plain inside some_name
        obtain ⟨file, kept, here | ⟨-, below⟩⟩ := (mem_child rules all fuel r e plain x).mp inside
        · refine ⟨e, n, ⟨listed, file, path, kept, ?_⟩, ?_, here⟩
          · rintro a - u - ⟨b, same⟩
            exact absurd (same ▸ List.mem_append_right u List.mem_cons_self) plain
          · rw [List.count_eq_zero_of_not_mem plain]
            exact Nat.succ_pos fuel
        · obtain ⟨f, t, shown, deep, rfl⟩ := (ih e.path (join r n)).mp below
          refine ⟨f, n ++ slash :: t, ⟨shown.listed, shown.plain, ?_, ?_, ?_⟩, ?_, ?_⟩
          · rw [shown.path, path, join_join some_name]
          · rw [← join_join some_name]
            exact shown.kept
          · intro a held u at_u higher
            obtain rfl | ⟨v, rfl, above⟩ := (above_under plain).mp higher
            · obtain rfl := tree.distinct a held e listed (at_u.trans path.symm)
              exact kept
            · rw [← join_join some_name]
              refine shown.between a held v ?_ above
              rw [at_u, path, join_join some_name]
          · rw [count_child plain]
            exact Nat.succ_lt_succ deep
          · rw [join_join some_name]
      · rintro ⟨e, t, shown, deep, rfl⟩
        by_cases deeper : slash ∈ t
        · -- the child that leads to it is listed, and was not pruned
          obtain ⟨n, b, rfl, plain⟩ := List.eq_append_cons_of_mem deeper
          have higher : Above n (n ++ slash :: b) := ⟨b, rfl⟩
          have some_name := tree.first_name shown.listed shown.path
          obtain ⟨c, held, path, folder, file⟩ := tree.above _ shown.listed (Nat.le_refl _)
            (join_ne some_name) (shown.path ▸ join_above higher)
          obtain ⟨base, dir⟩ := join_base d plain
          rw [← path] at base dir
          refine ⟨c, List.mem_filter.mpr ⟨held, decide_eq_true dir⟩, ?_⟩
          rw [base]
          refine (mem_child rules all fuel r c plain _).mpr
            ⟨file, shown.between c held n path higher, .inr ⟨folder, (ih _ _).mpr ?_⟩⟩
          refine ⟨e, b, ⟨shown.listed, shown.plain, ?_, ?_, ?_⟩, ?_, ?_⟩
          · rw [path, join_join some_name]
            exact shown.path
          · rw [join_join some_name]
            exact shown.kept
          · intro a listed u at_u above
            rw [join_join some_name]
            refine shown.between a listed (n ++ slash :: u) ?_ ?_
            · rw [at_u, path, join_join some_name]
            · exact (above_under plain).mpr (.inr ⟨u, rfl, above⟩)
          · rw [count_child plain] at deep
            exact Nat.lt_of_succ_lt_succ deep
          · rw [join_join some_name]
        · obtain ⟨base, dir⟩ := join_base d deeper
          rw [← shown.path] at base dir
          refine ⟨e, List.mem_filter.mpr ⟨shown.listed, decide_eq_true dir⟩, ?_⟩
          rw [base]
          exact (mem_child rules all fuel r e deeper _).mpr ⟨shown.plain, shown.kept, .inl rfl⟩

theorem depthOf_positive (all : List Entry) : 0 < depthOf all := by
  induction all with
  | nil => exact Nat.one_pos
  | cons e rest ih => exact Nat.lt_of_lt_of_le ih (Nat.le_add_left _ _)

theorem length_lt_depth {all : List Entry} {e : Entry} (listed : e ∈ all) :
    e.path.length < depthOf all := by
  induction all with
  | nil => cases listed
  | cons a rest ih =>
      rw [depthOf]
      obtain rfl | later := List.mem_cons.mp listed
      · have positive := depthOf_positive rest
        omega
      · exact Nat.lt_of_lt_of_le (ih later) (Nat.le_add_left _ _)

theorem mem_walkLiveFolder {all : List Entry} (tree : Tree all) (rules : Rules) (dir : Bytes)
    (x : IndexEntry) :
    x ∈ walkLiveFolder all dir rules ↔ ∃ e t, Shown all rules dir [] e t ∧ x = indexEntry t e := by
  rw [walkLiveFolder, mem_walk tree]
  constructor
  · rintro ⟨e, t, shown, -, rfl⟩
    exact ⟨e, t, shown, rfl⟩
  · rintro ⟨e, t, shown, rfl⟩
    refine ⟨e, t, shown, ?_, rfl⟩
    have inside : t.length ≤ e.path.length := by
      rw [shown.path, join]
      split
      · exact Nat.le_refl _
      · simp
        omega
    have counted := List.count_le_length (a := slash) (l := t)
    have bound := length_lt_depth shown.listed
    omega

/-! The two passes. -/

section passes

variable (lower : Bytes → Bytes) (caseless : Bool) (sub : Bytes) (rules : Rules)

/-- The entry is matched below `sub`, and no link. -/
def Matched (e : Entry) : Prop :=
  (subPrefix lower caseless sub).isPrefixOf (norm lower caseless e.path) = true ∧
    e.symlink = false

instance (e : Entry) : Decidable (Matched lower caseless sub e) := by
  unfold Matched
  infer_instance

def relOf (e : Entry) : Bytes := e.path.drop (subPrefix lower caseless sub).length

/-- The cut would reach behind the end of the path. -/
def Short (e : Entry) : Prop :=
  Matched lower caseless sub e ∧ e.path.length < (subPrefix lower caseless sub).length

def visitAll (entries : List Entry) (s : Pass) : Pass :=
  entries.foldl (fun s e => visit rules (relOf lower caseless sub e) e s) s

def passed (dirs : Bool) (all : List Entry) : List Entry :=
  all.filter fun e => decide (e.isDir = dirs ∧ Matched lower caseless sub e)

variable {lower caseless sub rules}

theorem passOver_skip {dirs : Bool} {e : Entry} {rest : List Entry} {s : Pass}
    (out : ¬ (e.isDir = dirs ∧ Matched lower caseless sub e)) :
    passOver lower caseless sub rules dirs (e :: rest) s =
      passOver lower caseless sub rules dirs rest s := by
  rw [passOver]
  by_cases side : e.isDir = dirs
  · by_cases inside : (subPrefix lower caseless sub).isPrefixOf (norm lower caseless e.path) = true
    · have link : e.symlink = true := by
        cases linked : e.symlink with
        | true => rfl
        | false => exact absurd ⟨side, inside, linked⟩ out
      simp [side, inside, link]
    · simp [side, inside]
  · simp [side]

theorem passOver_take {dirs : Bool} {e : Entry} {rest : List Entry} {s : Pass}
    (side : e.isDir = dirs) (matched : Matched lower caseless sub e)
    (long : ¬ e.path.length < (subPrefix lower caseless sub).length) :
    passOver lower caseless sub rules dirs (e :: rest) s =
      passOver lower caseless sub rules dirs rest
        (visit rules (relOf lower caseless sub e) e s) := by
  rw [passOver]
  simp [side, matched.1, matched.2, long, relOf]

theorem passOver_short {dirs : Bool} {e : Entry} {rest : List Entry} {s : Pass}
    (side : e.isDir = dirs) (short : Short lower caseless sub e) :
    passOver lower caseless sub rules dirs (e :: rest) s = .panicked := by
  rw [passOver]
  simp [side, short.1.1, short.1.2, short.2]

theorem passed_cons (dirs : Bool) (e : Entry) (rest : List Entry) :
    passed lower caseless sub dirs (e :: rest) =
      if e.isDir = dirs ∧ Matched lower caseless sub e then
        e :: passed lower caseless sub dirs rest
      else passed lower caseless sub dirs rest := by
  simp [passed, List.filter_cons]

theorem passOver_ok {dirs : Bool} {all : List Entry} (s : Pass)
    (long : ∀ e ∈ all, e.isDir = dirs → ¬ Short lower caseless sub e) :
    passOver lower caseless sub rules dirs all s =
      .ok (visitAll lower caseless sub rules (passed lower caseless sub dirs all) s) := by
  induction all generalizing s with
  | nil => rfl
  | cons e rest ih =>
      have later := fun s => ih s (fun x inside => long x (List.mem_cons_of_mem _ inside))
      by_cases here : e.isDir = dirs ∧ Matched lower caseless sub e
      · have fits : ¬ e.path.length < (subPrefix lower caseless sub).length :=
          fun short => long e List.mem_cons_self here.1 ⟨here.2, short⟩
        rw [passOver_take here.1 here.2 fits, later, passed_cons, if_pos here]
        rfl
      · rw [passOver_skip here, later, passed_cons, if_neg here]

theorem passOver_panics {dirs : Bool} {all : List Entry} (s : Pass) {e : Entry} (listed : e ∈ all)
    (side : e.isDir = dirs) (short : Short lower caseless sub e) :
    passOver lower caseless sub rules dirs all s = .panicked := by
  induction all generalizing s with
  | nil => cases listed
  | cons a rest ih =>
      by_cases here : a.isDir = dirs ∧ Matched lower caseless sub a
      · by_cases cut : a.path.length < (subPrefix lower caseless sub).length
        · exact passOver_short here.1 ⟨here.2, cut⟩
        · rw [passOver_take here.1 here.2 cut]
          obtain rfl | later := List.mem_cons.mp listed
          · exact absurd short.2 cut
          · exact ih _ later
      · rw [passOver_skip here]
        obtain rfl | later := List.mem_cons.mp listed
        · exact absurd ⟨side, short.1⟩ here
        · exact ih _ later

/-- Exactly when a path is cut behind its end the listing panics. -/
theorem folderEntries_panics (all : List Entry) :
    folderEntries lower caseless all sub rules = .panicked ↔
      ∃ e ∈ all, Short lower caseless sub e := by
  by_cases folder : ∃ e ∈ all, e.isDir = true ∧ Short lower caseless sub e
  · obtain ⟨e, listed, side, short⟩ := folder
    rw [folderEntries, passOver_panics _ listed side short]
    exact ⟨fun _ => ⟨e, listed, short⟩, fun _ => rfl⟩
  have first : passOver lower caseless sub rules true all { excludedDirs := [], out := [] } = _ :=
    passOver_ok _ (fun e listed side short => folder ⟨e, listed, side, short⟩)
  by_cases file : ∃ e ∈ all, e.isDir = false ∧ Short lower caseless sub e
  · obtain ⟨e, listed, side, short⟩ := file
    rw [folderEntries, first, Outcome.ok_bind, passOver_panics _ listed side short]
    exact ⟨fun _ => ⟨e, listed, short⟩, fun _ => rfl⟩
  · have second : ∀ s, passOver lower caseless sub rules false all s = _ := fun s =>
      passOver_ok s (fun e listed side short => file ⟨e, listed, side, short⟩)
    rw [folderEntries, first, Outcome.ok_bind, second, Outcome.ok_bind]
    refine ⟨nofun, ?_⟩
    rintro ⟨e, listed, short⟩
    cases side : e.isDir with
    | true => exact absurd ⟨e, listed, side, short⟩ folder
    | false => exact absurd ⟨e, listed, side, short⟩ file

/-- An entry of `folders` is left out: it is excluded, or a folder above it is. -/
def Dropped (lower : Bytes → Bytes) (caseless : Bool) (sub : Bytes) (rules : Rules)
    (folders : List Entry) (e : Entry) : Prop :=
  rules.listed e (relOf lower caseless sub e) = true ∨
    ∃ a ∈ folders, Above (relOf lower caseless sub a) (relOf lower caseless sub e) ∧
      rules.listed a (relOf lower caseless sub a) = true

/-- The first pass after the entries `done` of `folders`. -/
structure FolderPass (lower : Bytes → Bytes) (caseless : Bool) (sub : Bytes) (rules : Rules)
    (folders done : List Entry) (s : Pass) : Prop where
  dirs : ∀ u, u ∈ s.excludedDirs ↔
    ∃ e ∈ done, relOf lower caseless sub e = u ∧ Dropped lower caseless sub rules folders e
  out : ∀ x, x ∈ s.out ↔ ∃ e ∈ done, ¬ Dropped lower caseless sub rules folders e ∧
    x = indexEntry (relOf lower caseless sub e) e

theorem visit_eq (rel : Bytes) (e : Entry) (s : Pass) (some_name : rel ≠ []) :
    visit rules rel e s =
      if rules.listed e rel = true ∨ under s.excludedDirs rel.length rel = true then
        if e.isDir then { s with excludedDirs := rel :: s.excludedDirs } else s
      else { s with out := s.out ++ [indexEntry rel e] } := by
  rw [visit, if_neg some_name]
  simp only [Bool.or_eq_true]

theorem folder_step {folders done rest : List Entry} {e : Entry} {s : Pass}
    (split : folders = done ++ e :: rest) (folder : e.isDir = true)
    (some_name : ∀ a ∈ folders, relOf lower caseless sub a ≠ [])
    (ordered : ∀ a ∈ rest, ¬ Above (relOf lower caseless sub a) (relOf lower caseless sub e))
    (pass : FolderPass lower caseless sub rules folders done s) :
    FolderPass lower caseless sub rules folders (done ++ [e])
      (visit rules (relOf lower caseless sub e) e s) := by
  have here : e ∈ folders := by simp [split]
  have dropped : (rules.listed e (relOf lower caseless sub e) = true ∨
      under s.excludedDirs (relOf lower caseless sub e).length (relOf lower caseless sub e) = true) ↔
      Dropped lower caseless sub rules folders e := by
    refine or_congr Iff.rfl ?_
    rw [under_iff _ (Nat.le_refl _)]
    constructor
    · rintro ⟨u, excluded, -, above⟩
      obtain ⟨a, before, rfl, own | ⟨b, listed, higher, own⟩⟩ := (pass.dirs u).mp excluded
      · exact ⟨a, by simp [split, before], above, own⟩
      · exact ⟨b, listed, above_trans higher above, own⟩
    · rintro ⟨a, listed, above, own⟩
      -- the folders above come before it in the listing
      have before : a ∈ done := by
        rw [split] at listed
        obtain old | later := List.mem_append.mp listed
        · exact old
        · obtain rfl | behind := List.mem_cons.mp later
          · exact absurd (above_longer above) (Nat.lt_irrefl _)
          · exact absurd above (ordered a behind)
      exact ⟨_, (pass.dirs _).mpr ⟨a, before, rfl, .inl own⟩,
        some_name a (by simp [split, before]), above⟩
  rw [visit_eq _ _ _ (some_name e here)]
  by_cases out : Dropped lower caseless sub rules folders e
  · rw [if_pos (dropped.mpr out), if_pos folder]
    refine ⟨fun u => ?_, fun x => ?_⟩
    · rw [List.mem_cons, pass.dirs]
      constructor
      · rintro (rfl | ⟨a, before, same, left⟩)
        · exact ⟨e, by simp, rfl, out⟩
        · exact ⟨a, by simp [before], same, left⟩
      · rintro ⟨a, inside, same, left⟩
        obtain before | last := List.mem_append.mp inside
        · exact .inr ⟨a, before, same, left⟩
        · obtain rfl := List.mem_singleton.mp last
          exact .inl same.symm
    · rw [pass.out]
      constructor
      · rintro ⟨a, before, kept, same⟩
        exact ⟨a, by simp [before], kept, same⟩
      · rintro ⟨a, inside, kept, same⟩
        obtain before | last := List.mem_append.mp inside
        · exact ⟨a, before, kept, same⟩
        · obtain rfl := List.mem_singleton.mp last
          exact absurd out kept
  · rw [if_neg (fun left => out (dropped.mp left))]
    refine ⟨fun u => ?_, fun x => ?_⟩
    · rw [pass.dirs]
      constructor
      · rintro ⟨a, before, same, left⟩
        exact ⟨a, by simp [before], same, left⟩
      · rintro ⟨a, inside, same, left⟩
        obtain before | last := List.mem_append.mp inside
        · exact ⟨a, before, same, left⟩
        · obtain rfl := List.mem_singleton.mp last
          exact absurd left out
    · rw [List.mem_append, pass.out]
      constructor
      · rintro (⟨a, before, kept, same⟩ | last)
        · exact ⟨a, by simp [before], kept, same⟩
        · exact ⟨e, by simp, out, List.mem_singleton.mp last⟩
      · rintro ⟨a, inside, kept, same⟩
        obtain before | last := List.mem_append.mp inside
        · exact .inl ⟨a, before, kept, same⟩
        · obtain rfl := List.mem_singleton.mp last
          exact .inr (List.mem_singleton.mpr same)

theorem folder_pass {folders : List Entry} (done rest : List Entry) (s : Pass)
    (split : folders = done ++ rest) (dirs : ∀ a ∈ folders, a.isDir = true)
    (some_name : ∀ a ∈ folders, relOf lower caseless sub a ≠ [])
    (ordered : folders.Pairwise fun a b =>
      ¬ Above (relOf lower caseless sub b) (relOf lower caseless sub a))
    (pass : FolderPass lower caseless sub rules folders done s) :
    FolderPass lower caseless sub rules folders folders
      (visitAll lower caseless sub rules rest s) := by
  induction rest generalizing done s with
  | nil =>
      rw [List.append_nil] at split
      subst split
      exact pass
  | cons e rest ih =>
      have later : ∀ a ∈ rest, ¬ Above (relOf lower caseless sub a) (relOf lower caseless sub e) := by
        rw [split, List.pairwise_append] at ordered
        exact (List.pairwise_cons.mp ordered.2.1).1
      have next := folder_step split (dirs e (by simp [split])) some_name later pass
      exact ih (done ++ [e]) _ (by rw [split]; simp) next

/-- The second pass adds the files that are not excluded and not below an excluded folder. -/
theorem file_pass {folders : List Entry} (files : List Entry) (s : Pass)
    (plain : ∀ e ∈ files, e.isDir = false)
    (some_name : ∀ a ∈ files, relOf lower caseless sub a ≠ [])
    (named : ∀ a ∈ folders, relOf lower caseless sub a ≠ [])
    (dirs : ∀ u, u ∈ s.excludedDirs ↔
      ∃ e ∈ folders, relOf lower caseless sub e = u ∧ Dropped lower caseless sub rules folders e)
    (x : IndexEntry) :
    x ∈ (visitAll lower caseless sub rules files s).out ↔ x ∈ s.out ∨
      ∃ e ∈ files, ¬ Dropped lower caseless sub rules folders e ∧
        x = indexEntry (relOf lower caseless sub e) e := by
  induction files generalizing s with
  | nil => simp [visitAll]
  | cons e rest ih =>
      have dropped : (rules.listed e (relOf lower caseless sub e) = true ∨
          under s.excludedDirs (relOf lower caseless sub e).length (relOf lower caseless sub e) =
            true) ↔ Dropped lower caseless sub rules folders e := by
        refine or_congr Iff.rfl ?_
        rw [under_iff _ (Nat.le_refl _)]
        constructor
        · rintro ⟨u, excluded, -, above⟩
          obtain ⟨a, listed, rfl, own | ⟨b, held, higher, own⟩⟩ := (dirs u).mp excluded
          · exact ⟨a, listed, above, own⟩
          · exact ⟨b, held, above_trans higher above, own⟩
        · rintro ⟨a, listed, above, own⟩
          exact ⟨_, (dirs _).mpr ⟨a, listed, rfl, .inl own⟩, named a listed, above⟩
      have later := fun s dirs => ih s (fun a inside => plain a (List.mem_cons_of_mem _ inside))
        (fun a inside => some_name a (List.mem_cons_of_mem _ inside)) dirs
      rw [visitAll, List.foldl_cons, ← visitAll, visit_eq _ _ _ (some_name e List.mem_cons_self)]
      by_cases out : Dropped lower caseless sub rules folders e
      · rw [if_pos (dropped.mpr out), if_neg (by rw [plain e List.mem_cons_self]; simp),
          later s dirs]
        simp [out]
      · rw [if_neg (fun left => out (dropped.mp left)),
          later { s with out := s.out ++ [indexEntry (relOf lower caseless sub e) e] } dirs]
        simp [out, or_assoc]

end passes

/-! Both agree where the cut falls right. -/

/-- `strings.ToLower` works on each part between slashes by itself. -/
structure LowerCase (lower : Bytes → Bytes) : Prop where
  empty : lower [] = []
  slashes : ∀ a b, lower (a ++ slash :: b) = lower a ++ slash :: lower b

/-- The volume has the folder `sub`, listed as `dir`; nothing is the volume itself. -/
def FolderAt (lower : Bytes → Bytes) (caseless : Bool) (all : List Entry) (sub dir : Bytes) : Prop :=
  (sub = [] ∧ dir = []) ∨
    (sub ≠ [] ∧ norm lower caseless dir = norm lower caseless sub ∧
      ∃ d ∈ all, d.path = dir ∧ d.isDir = true ∧ d.symlink = false)

/-- Every entry matched by the lower-cased prefix is below the folder, and the prefix is as
long as the folder's own path with its slash. -/
def CutsRight (lower : Bytes → Bytes) (caseless : Bool) (all : List Entry) (sub dir : Bytes) :
    Prop :=
  ∀ e ∈ all, Matched lower caseless sub e → sub ≠ [] →
    ∃ rel, e.path = dir ++ slash :: rel ∧
      (subPrefix lower caseless sub).length = dir.length + 1

/-- The folders directly in `dir` get the same answer whether `dir` is taken for the top of
the volume, as the listing does, or the root for a volume's root, as the walk does. -/
def SameTop (all : List Entry) (rules : Rules) (sub dir : Bytes) : Prop :=
  ∀ e ∈ all, e.symlink = false → e.isDir = true → dirName e.path = dir →
    rules.autoFolder (baseName e.path) (decide (sub = [])) =
      rules.autoFolder (baseName e.path) rules.volumeRoot

theorem norm_slash {lower : Bytes → Bytes} (lowers : LowerCase lower) (caseless : Bool)
    (a b : Bytes) : norm lower caseless (a ++ slash :: b) =
      norm lower caseless a ++ slash :: norm lower caseless b := by
  cases caseless with
  | true => exact lowers.slashes a b
  | false => rfl

theorem norm_empty {lower : Bytes → Bytes} (lowers : LowerCase lower) (caseless : Bool) :
    norm lower caseless [] = [] := by
  cases caseless with
  | true => exact lowers.empty
  | false => rfl

theorem subPrefix_some {lower : Bytes → Bytes} (lowers : LowerCase lower) (caseless : Bool)
    {sub : Bytes} (some_sub : sub ≠ []) :
    subPrefix lower caseless sub = norm lower caseless sub ++ [slash] := by
  rw [subPrefix, if_neg some_sub, norm_slash lowers, norm_empty lowers]

section agree

variable {lower : Bytes → Bytes} {caseless : Bool} {all : List Entry} {sub dir : Bytes}
  {rules : Rules}

theorem FolderAt.some_dir (tree : Tree all) (folder : FolderAt lower caseless all sub dir)
    (some_sub : sub ≠ []) : dir ≠ [] := by
  obtain ⟨rfl, -⟩ | ⟨-, -, d, listed, rfl, -⟩ := folder
  · exact absurd rfl some_sub
  · exact tree.some_path listed

/-- What lies below the folder is matched. -/
theorem below_matched (lowers : LowerCase lower) (tree : Tree all)
    (folder : FolderAt lower caseless all sub dir) {e : Entry} {t : Bytes}
    (plain : e.symlink = false) (path : e.path = join dir t) : Matched lower caseless sub e := by
  refine ⟨?_, plain⟩
  rw [List.isPrefixOf_iff_prefix]
  by_cases whole : sub = []
  · rw [subPrefix, if_pos whole]
    exact List.nil_prefix
  · have some_dir := folder.some_dir tree whole
    obtain ⟨empty, -⟩ | ⟨-, same, -⟩ := folder
    · exact absurd empty whole
    · rw [subPrefix_some lowers caseless whole, path, join_some some_dir, norm_slash lowers, same]
      exact ⟨norm lower caseless t, by simp⟩

/-- Cut at the prefix, a matched entry's path is its path below the folder. -/
theorem matched_below (tree : Tree all) (folder : FolderAt lower caseless all sub dir)
    (cuts : CutsRight lower caseless all sub dir) {e : Entry} (listed : e ∈ all)
    (matched : Matched lower caseless sub e) :
    e.path = join dir (relOf lower caseless sub e) ∧ relOf lower caseless sub e ≠ [] ∧
      ¬ Short lower caseless sub e := by
  by_cases whole : sub = []
  · obtain ⟨-, rfl⟩ | ⟨some_sub, -⟩ := folder
    · have uncut : subPrefix lower caseless sub = [] := if_pos whole
      have all_path : relOf lower caseless sub e = e.path := by rw [relOf, uncut]; rfl
      rw [all_path]
      refine ⟨by simp [join], tree.some_path listed, ?_⟩
      rintro ⟨-, short⟩
      rw [uncut] at short
      exact absurd short (Nat.not_lt_zero _)
    · exact absurd whole some_sub
  · obtain ⟨rel, path, length⟩ := cuts e listed matched whole
    have cut : relOf lower caseless sub e = rel := by
      rw [relOf, path, length]
      simp
    rw [cut]
    refine ⟨by rw [path, join_some (folder.some_dir tree whole)], ?_, ?_⟩
    · rintro rfl
      apply tree.named e listed
      rw [path]
      exact (base_dir dir List.not_mem_nil).1
    · rintro ⟨-, short⟩
      rw [path, length] at short
      simp at short

theorem join_inj {d t u : Bytes} (same : join d t = join d u) : t = u := by
  by_cases top : d = []
  · subst top
    simpa [join] using same
  · rw [join_some top, join_some top] at same
    exact (List.cons.inj (List.append_cancel_left same)).2

/-- Both sides ask the same of an entry below the folder. -/
theorem listed_walked (tree : Tree all) (folder : FolderAt lower caseless all sub dir)
    (tops : SameTop all rules sub dir) {e : Entry} {t : Bytes} (listed : e ∈ all)
    (plain : e.symlink = false) (path : e.path = join dir t) :
    rules.listed e t = rules.walked e t := by
  rw [Rules.listed, Rules.walked]
  cases kind : e.isDir with
  | false => simp
  | true =>
      have same : rules.autoFolder (baseName t) (!hasSlash e.path) =
          rules.autoFolder (baseName t) (!hasSlash t && rules.volumeRoot) := by
        by_cases deeper : slash ∈ t
        · have inside : slash ∈ e.path := by
            rw [path, join]
            split
            · exact deeper
            · exact List.mem_append_right _ (List.mem_cons_of_mem _ deeper)
          simp [hasSlash, deeper, inside]
        · obtain ⟨base, above⟩ := join_base dir deeper
          rw [← path] at base above
          have top := tops e listed plain kind above
          rw [base] at top
          have slashes : (!hasSlash e.path) = decide (sub = []) := by
            rw [path, hasSlash_join dir deeper]
            by_cases whole : sub = []
            · obtain ⟨-, rfl⟩ | ⟨some_sub, -⟩ := folder
              · simp [whole]
              · exact absurd whole some_sub
            · simp [whole, folder.some_dir tree whole]
          rw [slashes, (base_plain deeper).1, top]
          simp [hasSlash, deeper]
      rw [same]

/-- Left out of the listing is pruned from the walk. -/
theorem kept_shown (lowers : LowerCase lower) (tree : Tree all)
    (folder : FolderAt lower caseless all sub dir) (cuts : CutsRight lower caseless all sub dir)
    (tops : SameTop all rules sub dir) {e : Entry} (listed : e ∈ all)
    (matched : Matched lower caseless sub e) :
    ¬ Dropped lower caseless sub rules (passed lower caseless sub true all) e ↔
      Shown all rules dir [] e (relOf lower caseless sub e) := by
  obtain ⟨path, some_name, -⟩ := matched_below tree folder cuts listed matched
  have own := listed_walked tree folder tops listed matched.2 path
  have higher : ∀ a ∈ passed lower caseless sub true all, a ∈ all ∧ a.isDir = true ∧
      Matched lower caseless sub a := by
    intro a inside
    obtain ⟨held, side⟩ := List.mem_filter.mp inside
    exact ⟨held, of_decide_eq_true side⟩
  constructor
  · intro kept
    refine ⟨listed, matched.2, path, ?_, ?_⟩
    · rw [join, if_pos rfl, ← own]
      exact Bool.eq_false_iff.mpr (fun out => kept (.inl out))
    · intro a held u at_u above
      -- what stands above an entry is a listed folder
      have some_u : u ≠ [] := by
        rintro rfl
        obtain ⟨b, split⟩ := above
        exact tree.first_name listed (n := []) (by rw [path, split]) rfl
      obtain ⟨c, found, same, kind, file⟩ := tree.above _ listed (Nat.le_refl _)
        (join_ne some_u) (path ▸ join_above above)
      obtain rfl := tree.distinct a held c found (at_u.trans same.symm)
      have inside := below_matched lowers tree folder file at_u
      have rel : relOf lower caseless sub a = u :=
        join_inj ((matched_below tree folder cuts held inside).1.symm.trans at_u)
      rw [join, if_pos rfl, ← listed_walked tree folder tops held file at_u]
      refine Bool.eq_false_iff.mpr (fun out => kept (.inr ⟨a, ?_, ?_, ?_⟩))
      · exact List.mem_filter.mpr ⟨held, decide_eq_true ⟨kind, inside⟩⟩
      · rw [rel]
        exact above
      · rw [rel]
        exact out
  · rintro shown (out | ⟨a, inside, above, out⟩)
    · have kept := shown.kept
      rw [join, if_pos rfl, ← own, out] at kept
      cases kept
    · obtain ⟨held, kind, below⟩ := higher a inside
      have at_a := (matched_below tree folder cuts held below).1
      have kept := shown.between a held _ at_a above
      rw [join, if_pos rfl, ← listed_walked tree folder tops held below.2 at_a, out] at kept
      cases kept

theorem passed_mem {dirs : Bool} {e : Entry} :
    e ∈ passed lower caseless sub dirs all ↔
      e ∈ all ∧ e.isDir = dirs ∧ Matched lower caseless sub e := by
  simp [passed]

theorem mem_folderEntries (tree : Tree all)
    (sorted : all.Pairwise fun a b => bytesLe a.path b.path = true)
    (folder : FolderAt lower caseless all sub dir) (cuts : CutsRight lower caseless all sub dir) :
    ∃ out, folderEntries lower caseless all sub rules = .ok out ∧
      ∀ x, x ∈ out ↔ ∃ e ∈ all, Matched lower caseless sub e ∧
        ¬ Dropped lower caseless sub rules (passed lower caseless sub true all) e ∧
        x = indexEntry (relOf lower caseless sub e) e := by
  have long : ∀ e ∈ all, ¬ Short lower caseless sub e := fun e listed short =>
    (matched_below tree folder cuts listed short.1).2.2 short
  have some_name : ∀ dirs, ∀ e ∈ passed lower caseless sub dirs all,
      relOf lower caseless sub e ≠ [] := by
    intro dirs e inside
    obtain ⟨listed, -, matched⟩ := passed_mem.mp inside
    exact (matched_below tree folder cuts listed matched).2.1
  have ordered : (passed lower caseless sub true all).Pairwise fun a b =>
      ¬ Above (relOf lower caseless sub b) (relOf lower caseless sub a) := by
    have filtered := sorted.sublist
      (List.filter_sublist (p := fun e => decide (e.isDir = true ∧ Matched lower caseless sub e)))
    refine List.Pairwise.imp_of_mem ?_ filtered
    intro a b first second before above
    obtain ⟨listedA, -, matchedA⟩ := passed_mem.mp first
    obtain ⟨listedB, -, matchedB⟩ := passed_mem.mp second
    have higher := join_above (d := dir) above
    rw [← (matched_below tree folder cuts listedA matchedA).1,
      ← (matched_below tree folder cuts listedB matchedB).1] at higher
    obtain ⟨t, split⟩ := higher
    rw [split, bytesLe_prefix] at before
    cases before
  let folders := passed lower caseless sub true all
  let start : Pass := { excludedDirs := [], out := [] }
  let first := visitAll lower caseless sub rules folders start
  have pass : FolderPass lower caseless sub rules folders folders first :=
    folder_pass [] folders start rfl (fun a inside => (passed_mem.mp inside).2.1)
      (some_name true) ordered ⟨fun u => by simp [start], fun x => by simp [start]⟩
  refine ⟨(visitAll lower caseless sub rules (passed lower caseless sub false all) first).out,
    ?_, fun x => ?_⟩
  · rw [folderEntries, passOver_ok _ (fun e listed _ => long e listed), Outcome.ok_bind,
      passOver_ok _ (fun e listed _ => long e listed), Outcome.ok_bind]
    rfl
  · rw [file_pass _ _ (fun e inside => (passed_mem.mp inside).2.1) (some_name false)
      (some_name true) pass.dirs, pass.out]
    constructor
    · rintro (⟨e, inside, kept, same⟩ | ⟨e, inside, kept, same⟩) <;>
        exact ⟨e, (passed_mem.mp inside).1, (passed_mem.mp inside).2.2, kept, same⟩
    · rintro ⟨e, listed, matched, kept, same⟩
      cases side : e.isDir with
      | true => exact .inl ⟨e, passed_mem.mpr ⟨listed, side, matched⟩, kept, same⟩
      | false => exact .inr ⟨e, passed_mem.mpr ⟨listed, side, matched⟩, kept, same⟩

end agree

/-- On a case-sensitive volume the prefix is the folder's own path with its slash. -/
theorem cuts_right_sensitive (lower : Bytes → Bytes) (all : List Entry) (sub : Bytes) :
    CutsRight lower false all sub sub := by
  intro e _ matched some_sub
  have start := List.isPrefixOf_iff_prefix.mp matched.1
  rw [subPrefix, if_neg some_sub] at start ⊢
  obtain ⟨rel, path⟩ := start
  refine ⟨rel, ?_, by simp [norm]⟩
  rw [norm, norm] at path
  simpa using path.symm

def asciiLower (c : UInt8) : UInt8 := if 65 ≤ c ∧ c ≤ 90 then c + 32 else c

/-- Lower case for ASCII and for U+023A, two bytes of UTF-8 that become the three of
U+2C65. -/
def lowerStroke : Bytes → Bytes
  | [] => []
  | [c] => [asciiLower c]
  | c :: d :: rest =>
      if c = 200 ∧ d = 186 then 226 :: 177 :: 165 :: lowerStroke rest
      else asciiLower c :: lowerStroke (d :: rest)

theorem lowerStroke_slash (b : Bytes) : lowerStroke (slash :: b) = slash :: lowerStroke b := by
  cases b with
  | nil => rfl
  | cons d rest => simp [lowerStroke, slash, asciiLower]

theorem lowerStroke_lowers : LowerCase lowerStroke where
  empty := rfl
  slashes a b := by
    induction a using lowerStroke.induct with
    | case1 => exact lowerStroke_slash b
    | case2 c =>
        have other : ¬ (c = 200 ∧ slash = 186) := by simp [slash]
        have step : lowerStroke (c :: slash :: b) = asciiLower c :: lowerStroke (slash :: b) := by
          rw [lowerStroke, if_neg other]
        rw [List.singleton_append, step, lowerStroke_slash]
        rfl
    | case3 c d rest pair ih =>
        rw [List.cons_append, List.cons_append, lowerStroke, if_pos pair, ih, lowerStroke,
          if_pos pair]
        rfl
    | case4 c d rest pair ih =>
        rw [List.cons_append, List.cons_append, lowerStroke, if_neg pair, ← List.cons_append, ih,
          lowerStroke, if_neg pair]
        rfl

def folderAt (path : Bytes) : Entry where
  path := path
  isDir := true
  symlink := false
  size := 0
  mtime := 0

def fileAt (path : Bytes) (size : Nat) : Entry where
  path := path
  isDir := false
  symlink := false
  size := size
  mtime := 0

/-- A set that leaves out what is named "b". -/
def leavesOutB : Rules where
  patterns _ name := name = [98]
  autoFolder _ _ := false
  autoFile _ := false
  volumeRoot := false

/-- The folder "D" with the file "a" and the folder "b", which has the file "c". -/
def volumeD : List Entry :=
  [folderAt [68], fileAt [68, 47, 97] 1, folderAt [68, 47, 98], fileAt [68, 47, 98, 47, 99] 2]

theorem volumeD_tree : Tree volumeD where
  distinct := by decide
  named := by decide
  relative := by
    intro e listed b
    simp only [volumeD, List.mem_cons, List.not_mem_nil, or_false] at listed
    obtain rfl | rfl | rfl | rfl := listed <;> simp [folderAt, fileAt, slash]
  parents := by decide

/-- A folder whose name is two U+023A, with the file "a". -/
def strokeFolder : Bytes := [200, 186, 200, 186]

def strokeVolume : List Entry := [folderAt strokeFolder, fileAt (strokeFolder ++ [47, 97]) 1]

end ProxmoxBackup.FolderEntries
