import ProxmoxBackup.ExfatListing

/-! The listing of a FAT volume. Its `seen` map holds the first cluster of every folder it
has queued, but not that of the root folder it starts from. -/
namespace ProxmoxBackup.FatListing

open QueueWalk ExfatListing

inductive Kind where
  | fat12 | fat16 | fat32
  deriving DecidableEq

/-- The volume once it is open; `toLower` is Go's `strings.ToLower`. -/
structure FAT where
  read : Nat → Nat → Option Bytes
  kind : Kind
  clusterSize : Nat
  dataStart : Nat
  rootStart : Nat
  rootSize : Nat
  rootCluster : UInt32
  clusters : UInt32
  fat : Bytes
  toLower : Bytes → Bytes

def noNext : UInt32 := 0xFFFFFFFF

/-- The table's entry for cluster `c`. -/
def FAT.next (v : FAT) (c : UInt32) : UInt32 :=
  match v.kind with
  | .fat12 =>
      let o := c.toNat * 3 / 2
      if o + 1 ≥ v.fat.length then noNext
      else
        let x := (if c.toNat % 2 = 1 then le 2 v.fat o / 16 else le 2 v.fat o) % 0x1000
        if x ≥ 0xFF7 then noNext else .ofNat x
  | .fat16 =>
      let o := c.toNat * 2
      if o + 2 > v.fat.length then noNext
      else if le 2 v.fat o ≥ 0xFFF7 then noNext else .ofNat (le 2 v.fat o)
  | .fat32 =>
      let o := c.toNat * 4
      if o + 4 > v.fat.length then noNext
      else
        let x := le 4 v.fat o % 0x10000000
        if x ≥ 0x0FFFFFF7 then noNext else .ofNat x

def FAT.inRange (v : FAT) (c : UInt32) : Bool := 2 ≤ c && c < v.clusters + 2

/-- The first `limit` clusters of the chain from `first`. -/
def FAT.chainFrom (v : FAT) : Nat → UInt32 → List UInt32
  | 0, _ => []
  | limit + 1, c => if v.inRange c then c :: v.chainFrom limit (v.next c) else []

def FAT.clusterOffset (v : FAT) (c : UInt32) : Nat := v.dataStart + (c - 2).toNat * v.clusterSize

def FAT.readDir (v : FAT) (first : UInt32) (root : Bool) : Option Bytes :=
  if root ∧ v.kind ≠ .fat32 then v.read v.rootStart v.rootSize
  else
    (v.chainFrom (2 ^ 20) (if root then v.rootCluster else first)).foldlM
      (fun b c => do
        let piece ← v.read (v.clusterOffset c) v.clusterSize
        return b ++ piece) []

def trimRight (s : Bytes) : Bytes := (s.reverse.dropWhile (· = 32)).reverse

def shortName (v : FAT) (e : Bytes) : Bytes :=
  let base := trimRight (e.take 8)
  let base := if byteAt base 0 = 5 ∧ base ≠ [] then 0xE5 :: base.drop 1 else base
  let ext := trimRight ((e.drop 8).take 3)
  let base := if byteAt e 12 &&& 0x08 ≠ 0 then v.toLower base else base
  let ext := if byteAt e 12 &&& 0x10 ≠ 0 then v.toLower ext else ext
  if ext = [] then base else base ++ 46 :: ext

def lfnChecksum (n : Bytes) : UInt8 :=
  n.foldl (fun s c => (s >>> 1 ||| s <<< 7) + c) 0

/-- The thirteen units of a long name record. -/
def lfnPart (e : Bytes) : List Nat :=
  ((List.range 5).map fun i => le 2 e (1 + 2 * i)) ++
    ((List.range 6).map fun i => le 2 e (14 + 2 * i)) ++
    (List.range 2).map fun i => le 2 e (28 + 2 * i)

structure Named where
  name : Bytes
  attr : UInt8
  first : UInt32
  size : Nat

def Named.isDir (n : Named) : Bool := n.attr &&& 0x10 != 0

def dot : UInt8 := 46

/-- The records of a folder that name something. `lfn` is the long name collected so far
and `lfnSum` the checksum of the short name it belongs to. -/
def namedIn (v : FAT) : Nat → Bytes → Option (List Nat) → UInt8 → List Named
  | 0, _, _, _ => []
  | fuel + 1, raw, lfn, lfnSum =>
      let e := raw.take 32
      let rest := raw.drop 32
      if raw.length < 32 then []
      else if byteAt e 0 = 0 then []
      else if byteAt e 0 = 0xE5 then namedIn v fuel rest none lfnSum
      else if byteAt e 11 &&& 0x3F = 0x0F then
        let before := if byteAt e 0 &&& 0x40 ≠ 0 then [] else lfn.getD []
        namedIn v fuel rest (some (lfnPart e ++ before)) (byteAt e 13)
      else if byteAt e 11 &&& 0x08 ≠ 0 then namedIn v fuel rest none lfnSum
      else
        let name := match lfn with
          | some units =>
              if lfnChecksum (e.take 11) = lfnSum then utf16String (units.takeWhile (· ≠ 0))
              else shortName v e
          | none => shortName v e
        if name = [dot] ∨ name = [dot, dot] ∨ name = [] then namedIn v fuel rest none lfnSum
        else
          { name, attr := byteAt e 11, first := .ofNat (le 2 e 26 + le 2 e 20 * 2 ^ 16),
            size := le 4 e 28 } :: namedIn v fuel rest none lfnSum

structure Dir where
  path : Bytes
  first : UInt32
  root : Bool
  depth : Nat
  deriving DecidableEq

structure Mark where
  seen : List UInt32
  out : List Entry

def Named.entry (d : Dir) (n : Named) : Entry where
  path := joinPath d.path n.name
  isDir := n.isDir
  size := if n.isDir then 0 else n.size
  attrs := (n.attr &&& 0x27).toNat
  record := n.first.toNat
  aux := 0

/-- The folders among the entries of `d` that go on the queue, and the map after them. -/
def enqueue (d : Dir) : List Named → List UInt32 → List Dir × List UInt32
  | [], seen => ([], seen)
  | n :: rest, seen =>
      if n.isDir ∧ 2 ≤ n.first ∧ n.first ∉ seen ∧ d.depth < 256 then
        let more := enqueue d rest (n.first :: seen)
        ({ path := joinPath d.path n.name, first := n.first, root := false, depth := d.depth + 1 } ::
          more.1, more.2)
      else enqueue d rest seen

def entriesOf (v : FAT) (raw : Bytes) : List Named := namedIn v raw.length raw none 0

def FAT.expand (v : FAT) : Expand Dir Mark := fun mark d => do
  let raw ← v.readDir d.first d.root
  let queued := enqueue d (entriesOf v raw) mark.seen
  return (queued.1,
    { seen := queued.2, out := mark.out ++ (entriesOf v raw).map (Named.entry d) })

def rootDir : Dir where
  path := []
  first := 0
  root := true
  depth := 0

def FAT.list (v : FAT) (n : Nat) : Walk Dir Mark := walk v.expand rootDir { seen := [], out := [] } n

/-- The chain a folder's data is in. The root folder of FAT12 and FAT16 has none: it is a
fixed area. -/
def FAT.chain (v : FAT) (d : Dir) : Option UInt32 :=
  if d.root then
    if v.kind = .fat32 ∧ v.inRange v.rootCluster then some v.rootCluster else none
  else if v.inRange d.first then some d.first else none

def FAT.VisitsOnce (v : FAT) : Prop := ∀ n, ((v.list n).visited.filterMap v.chain).Nodup

def FAT.Readable (v : FAT) : Prop := ∀ offset n, (v.read offset n).isSome

/-- The root folder, or the one that starts at a cluster. -/
abbrev Folder := Option UInt32

def Dir.folder (d : Dir) : Folder := if d.root then none else some d.first

/-- The first clusters of the folders named in a folder. -/
def FAT.subfolders (v : FAT) (f : Folder) : List UInt32 :=
  match v.readDir (f.getD 0) f.isNone with
  | none => []
  | some raw => ((entriesOf v raw).filter fun n => n.isDir && 2 ≤ n.first).map Named.first

inductive FAT.Reach (v : FAT) : Nat → Folder → Prop where
  | root : v.Reach 0 none
  | sub {k : Nat} {f : Folder} {c : UInt32} (reach : v.Reach k f) (near : k < 256)
      (named : c ∈ v.subfolders f) : v.Reach (k + 1) (some c)

/-- No entry within the depth the listing goes to names the root folder's own chain. -/
def FAT.RootUnnamed (v : FAT) : Prop :=
  v.kind = .fat32 → v.inRange v.rootCluster → ∀ k f, v.Reach k f → k < 256 →
    v.rootCluster ∉ v.subfolders f

/-! What one folder queues. -/

structure Queues (d : Dir) (named : List Named) (seen : List UInt32)
    (found : List Dir) (seen' : List UInt32) : Prop where
  each : ∀ x ∈ found, x.root = false ∧ x.depth = d.depth + 1 ∧ d.depth < 256 ∧ x.first ∉ seen ∧
    ∃ n ∈ named, n.isDir ∧ 2 ≤ n.first ∧ n.first = x.first
  nodup : (found.map Dir.first).Nodup
  marked : ∀ c, c ∈ seen' ↔ c ∈ seen ∨ c ∈ found.map Dir.first
  all : d.depth < 256 → ∀ n ∈ named, n.isDir → 2 ≤ n.first → n.first ∈ seen'

theorem enqueue_queues (d : Dir) (named : List Named) (seen : List UInt32) :
    Queues d named seen (enqueue d named seen).1 (enqueue d named seen).2 := by
  induction named generalizing seen with
  | nil =>
      exact
        { each := fun x found => by cases found
          nodup := List.nodup_nil
          marked := fun c => by simp [enqueue]
          all := fun _ n listed => by cases listed }
  | cons n rest ih =>
      by_cases fresh : n.isDir ∧ 2 ≤ n.first ∧ n.first ∉ seen ∧ d.depth < 256
      · rw [enqueue, if_pos fresh]
        obtain ⟨isDir, low, unseen, near⟩ := fresh
        have more := ih (n.first :: seen)
        refine ⟨?_, ?_, ?_, ?_⟩
        · rintro x (_ | ⟨_, found⟩)
          · exact ⟨rfl, rfl, near, unseen, n, List.mem_cons_self, isDir, low, rfl⟩
          · obtain ⟨plain, depth, near, apart, m, listed, dir, low', first⟩ := more.each x found
            exact ⟨plain, depth, near, fun old => apart (List.mem_cons_of_mem _ old), m,
              List.mem_cons_of_mem _ listed, dir, low', first⟩
        · rw [List.map_cons]
          refine List.nodup_cons.mpr ⟨?_, more.nodup⟩
          intro again
          obtain ⟨x, found, same⟩ := List.mem_map.mp again
          exact (more.each x found).2.2.2.1 (by rw [same]; exact List.mem_cons_self)
        · intro c
          rw [more.marked, List.map_cons, List.mem_cons, List.mem_cons]
          tauto
        · rintro near m (_ | ⟨_, listed⟩) dir low'
          · exact (more.marked _).mpr (.inl List.mem_cons_self)
          · exact more.all near m listed dir low'
      · rw [enqueue, if_neg fresh]
        have more := ih seen
        refine ⟨?_, more.nodup, more.marked, ?_⟩
        · intro x found
          obtain ⟨plain, depth, near, apart, m, listed, rest⟩ := more.each x found
          exact ⟨plain, depth, near, apart, m, List.mem_cons_of_mem _ listed, rest⟩
        · rintro near m (_ | ⟨_, listed⟩) dir low'
          · have seenBefore : n.first ∈ seen := by
              by_contra unseen
              exact fresh ⟨dir, low', unseen, near⟩
            exact (more.marked _).mpr (.inl seenBefore)
          · exact more.all near m listed dir low'

theorem mem_subfolders {v : FAT} {f : Folder} {raw : Bytes} {c : UInt32}
    (read : v.readDir (f.getD 0) f.isNone = some raw) :
    c ∈ v.subfolders f ↔ ∃ n ∈ entriesOf v raw, n.isDir ∧ 2 ≤ n.first ∧ n.first = c := by
  simp [FAT.subfolders, read, and_assoc]

/-- What the listing's nodes are: the root as it starts, or a folder of some cluster. -/
def Plain (d : Dir) : Prop := d.root = true → d.first = 0

theorem readDir_folder {v : FAT} {d : Dir} (plain : Plain d) :
    v.readDir (d.folder.getD 0) d.folder.isNone = v.readDir d.first d.root := by
  cases root : d.root with
  | true => simp [Dir.folder, root, plain root]
  | false => simp [Dir.folder, root]

structure Expands (v : FAT) (d : Dir) (seen : List UInt32) (found : List Dir)
    (seen' : List UInt32) : Prop where
  each : ∀ x ∈ found, x.root = false ∧ x.depth = d.depth + 1 ∧ d.depth < 256 ∧ x.first ∉ seen ∧
    x.first ∈ v.subfolders d.folder
  nodup : (found.map Dir.first).Nodup
  marked : ∀ c, c ∈ seen' ↔ c ∈ seen ∨ c ∈ found.map Dir.first
  all : d.depth < 256 → ∀ c ∈ v.subfolders d.folder, c ∈ seen'

theorem expand_expands {v : FAT} {mark mark' : Mark} {d : Dir} {found : List Dir} (plain : Plain d)
    (opened : v.expand mark d = some (found, mark')) :
    Expands v d mark.seen found mark'.seen := by
  simp only [FAT.expand, bind, Option.bind] at opened
  split at opened
  · cases opened
  · rename_i raw read
    rw [← readDir_folder plain] at read
    obtain ⟨rfl, rfl⟩ := Prod.mk.inj (Option.some.inj opened)
    have queues := enqueue_queues d (entriesOf v raw) mark.seen
    refine ⟨?_, queues.nodup, queues.marked, ?_⟩
    · intro x found
      obtain ⟨file, depth, near, apart, named⟩ := queues.each x found
      exact ⟨file, depth, near, apart, (mem_subfolders read).mpr named⟩
    · intro near c named
      obtain ⟨n, listed, dir, low, rfl⟩ := (mem_subfolders read).mp named
      exact queues.all near n listed dir low

/-- What holds of the queue at every turn, whether or not a read has failed. -/
structure Shape (v : FAT) (w : Walk Dir Mark) (rest : List Dir) : Prop where
  queued : w.queued = rootDir :: rest
  folders : ∀ x ∈ rest, x.root = false ∧ x.first ∈ w.mark.seen ∧ v.Reach x.depth x.folder ∧
    ∃ k f, k < 256 ∧ v.Reach k f ∧ x.first ∈ v.subfolders f
  nodup : (rest.map Dir.first).Nodup

theorem Shape.plain {v : FAT} {w : Walk Dir Mark} {rest : List Dir} (shape : Shape v w rest)
    {d : Dir} (queued : d ∈ w.queued) : Plain d ∧ v.Reach d.depth d.folder := by
  rw [shape.queued] at queued
  obtain rfl | inside := List.mem_cons.mp queued
  · exact ⟨fun _ => rfl, .root⟩
  · have folder := shape.folders d inside
    refine ⟨fun root => ?_, folder.2.2.1⟩
    rw [folder.1] at root
    cases root

theorem shape_kept {v : FAT} (w : Walk Dir Mark) (inv : ∃ rest, Shape v w rest) :
    ∃ rest, Shape v (w.step v.expand) rest := by
  obtain ⟨tail, shape⟩ := inv
  obtain ⟨-, stepped⟩ | ⟨d, rest, taken, -, stepped⟩ | ⟨d, rest, found, mark, taken, opened, stepped⟩ :=
    step_cases v.expand w
  · exact ⟨tail, by rw [stepped]; exact shape⟩
  · have front : w.visited ++ [d] <+: w.queued := ⟨rest, by simp [Walk.queued, taken]⟩
    rw [shape.queued] at front
    obtain ⟨short, same⟩ : ∃ short, w.visited ++ [d] = rootDir :: short := by
      cases whole : w.visited ++ [d] with
      | nil => simp at whole
      | cons first short =>
          rw [whole] at front
          exact ⟨short, by rw [(List.cons_prefix_cons.mp front).1]⟩
    rw [same] at front
    have sub := (List.cons_prefix_cons.mp front).2
    rw [stepped]
    refine ⟨short, ?_, ?_, ?_⟩
    · rw [Walk.queued, List.append_nil, same]
    · exact fun x inside => shape.folders x (sub.subset inside)
    · exact shape.nodup.sublist (sub.sublist.map Dir.first)
  · have queued : d ∈ w.queued := by simp [Walk.queued, taken]
    obtain ⟨plain, reached⟩ := shape.plain queued
    have expands := expand_expands plain opened
    refine ⟨tail ++ found, ?_, ?_, ?_⟩
    · have before := shape.queued
      rw [Walk.queued, taken] at before
      rw [stepped, Walk.queued, ← List.cons_append, ← before]
      simp
    · intro x inside
      rw [stepped]
      obtain old | new := List.mem_append.mp inside
      · obtain ⟨file, seen, more⟩ := shape.folders x old
        exact ⟨file, (expands.marked _).mpr (.inl seen), more⟩
      · obtain ⟨file, depth, near, -, named⟩ := expands.each x new
        have folder : x.folder = some x.first := by rw [Dir.folder, file]; rfl
        refine ⟨file, (expands.marked _).mpr (.inr (List.mem_map_of_mem new)), ?_,
          d.depth, d.folder, near, reached, named⟩
        rw [depth, folder]
        exact .sub reached near named
    · rw [List.map_append, List.nodup_append]
      refine ⟨shape.nodup, expands.nodup, ?_⟩
      rintro c old _ new rfl
      obtain ⟨y, inside, rfl⟩ := List.mem_map.mp old
      obtain ⟨x, fresh, same⟩ := List.mem_map.mp new
      exact (expands.each x fresh).2.2.2.1 (by rw [same]; exact (shape.folders y inside).2.1)

theorem list_shape (v : FAT) (n : Nat) : ∃ rest, Shape v (v.list n) rest := by
  refine walk_invariant v.expand ⟨[], rfl, ?_, List.nodup_nil⟩ shape_kept n
  intro x inside
  cases inside

theorem chain_folder {v : FAT} {x : Dir} {c : UInt32} (file : x.root = false)
    (chained : v.chain x = some c) : x.first = c := by
  rw [FAT.chain, file] at chained
  simp only [Bool.false_eq_true, if_false] at chained
  split at chained
  · exact Option.some.inj chained
  · cases chained

theorem chains_nodup {v : FAT} {folders : List Dir} (files : ∀ x ∈ folders, x.root = false)
    (nodup : (folders.map Dir.first).Nodup) : (folders.filterMap v.chain).Nodup := by
  induction folders with
  | nil => exact List.nodup_nil
  | cons x rest ih =>
      rw [List.map_cons, List.nodup_cons] at nodup
      have tail := ih (fun y inside => files y (List.mem_cons_of_mem _ inside)) nodup.2
      cases chained : v.chain x with
      | none =>
          rw [List.filterMap_cons_none chained]
          exact tail
      | some c =>
          rw [List.filterMap_cons_some chained, List.nodup_cons]
          refine ⟨?_, tail⟩
          intro again
          obtain ⟨y, inside, same⟩ := List.mem_filterMap.mp again
          have first := chain_folder (files y (List.mem_cons_of_mem _ inside)) same
          apply nodup.1
          rw [chain_folder (files x List.mem_cons_self) chained, ← first]
          exact List.mem_map_of_mem inside

theorem visits_once_of_root_unnamed {v : FAT} (unnamed : v.RootUnnamed) : v.VisitsOnce := by
  intro n
  obtain ⟨rest, shape⟩ := list_shape v n
  have front : ((v.list n).visited.filterMap v.chain).Sublist
      ((rootDir :: rest).filterMap v.chain) := by
    rw [← shape.queued, Walk.queued]
    exact (List.sublist_append_left _ _).filterMap v.chain
  have tail := chains_nodup (v := v) (fun x inside => (shape.folders x inside).1) shape.nodup
  apply List.Nodup.sublist front
  cases rooted : v.chain rootDir with
  | none =>
      rw [List.filterMap_cons_none rooted]
      exact tail
  | some c =>
      rw [List.filterMap_cons_some rooted, List.nodup_cons]
      refine ⟨?_, tail⟩
      intro again
      obtain ⟨x, inside, same⟩ := List.mem_filterMap.mp again
      obtain ⟨file, -, -, k, f, near, reach, named⟩ := shape.folders x inside
      rw [chain_folder file same] at named
      simp only [FAT.chain, rootDir, if_true] at rooted
      split at rooted
      · rename_i fixed
        obtain rfl := Option.some.inj rooted
        exact unnamed fixed.1 fixed.2 k f reach near named
      · cases rooted

/-! On a readable disk the queue is in the order of the depths, so each folder is queued at
the least depth an entry leads to it. -/

structure Order (w : Walk Dir Mark) : Prop where
  sorted : (w.queue.map Dir.depth).Pairwise (· ≤ ·)
  ahead : ∀ d rest, w.queue = d :: rest → ∀ x ∈ w.queued, x.depth ≤ d.depth + 1
  kept : ∀ c ∈ w.mark.seen, ∃ x ∈ w.queued, x.folder = some c

theorem expand_readable {v : FAT} (readable : v.Readable) (mark : Mark) (d : Dir) :
    (v.expand mark d).isSome := by
  have read : (v.readDir d.first d.root).isSome := by
    rw [FAT.readDir]
    split
    · exact readable _ _
    · apply foldlM_isSome
      intro b c
      obtain ⟨piece, got⟩ := Option.isSome_iff_exists.mp (readable (v.clusterOffset c) v.clusterSize)
      rw [got]
      rfl
  obtain ⟨raw, got⟩ := Option.isSome_iff_exists.mp read
  rw [FAT.expand, got]
  rfl

/-- The turn of the folder in front. -/
theorem turn {v : FAT} (readable : v.Readable) {m : Nat} {d : Dir} {rest : List Dir}
    (taken : (v.list m).queue = d :: rest) :
    ∃ found, Expands v d (v.list m).mark.seen found (v.list (m + 1)).mark.seen ∧
      (v.list (m + 1)).queue = rest ++ found ∧
      (v.list (m + 1)).queued = (v.list m).queued ++ found := by
  obtain ⟨tail, shape⟩ := list_shape v m
  have queued : d ∈ (v.list m).queued := by simp [Walk.queued, taken]
  obtain ⟨⟨found, mark⟩, opened⟩ :=
    Option.isSome_iff_exists.mp (expand_readable readable (v.list m).mark d)
  have later := front_found v.expand taken opened
  have next : (v.list (m + 1)).queue = rest ++ found := by
    change ((v.list m).step v.expand).queue = _
    rw [Walk.step, taken]
    simp only [opened]
  have expands := expand_expands (shape.plain queued).1 opened
  exact ⟨found, by rw [show (v.list (m + 1)).mark = mark from later.2]; exact expands, next, later.1⟩

theorem list_order {v : FAT} (readable : v.Readable) (n : Nat) : Order (v.list n) := by
  induction n with
  | zero =>
      refine ⟨List.pairwise_singleton _ _, ?_, ?_⟩
      · rintro d rest taken x queued
        obtain ⟨rfl, -⟩ := List.cons.inj taken
        obtain rfl : x = rootDir := List.mem_singleton.mp queued
        exact Nat.le_succ _
      · intro c seen
        cases seen
  | succ n ih =>
      cases taken : (v.list n).queue with
      | nil =>
          have same : v.list (n + 1) = v.list n := by
            change (v.list n).step v.expand = _
            rw [Walk.step, taken]
          rw [same]
          exact ih
      | cons d rest =>
          obtain ⟨found, expands, queue, queued⟩ := turn readable taken
          have sorted := ih.sorted
          rw [taken, List.map_cons, List.pairwise_cons] at sorted
          have near : ∀ x ∈ (v.list (n + 1)).queued, x.depth ≤ d.depth + 1 := by
            intro x inside
            rw [queued] at inside
            obtain old | new := List.mem_append.mp inside
            · exact ih.ahead d rest taken x old
            · exact Nat.le_of_eq (expands.each x new).2.1
          have far : ∀ x ∈ rest ++ found, d.depth ≤ x.depth := by
            intro x inside
            obtain old | new := List.mem_append.mp inside
            · exact sorted.1 _ (List.mem_map_of_mem old)
            · rw [(expands.each x new).2.1]
              exact Nat.le_succ _
          refine ⟨?_, ?_, ?_⟩
          · rw [queue, List.map_append, List.pairwise_append]
            refine ⟨sorted.2, ?_, ?_⟩
            · refine List.pairwise_of_forall_mem_list ?_
              intro a first b second
              obtain ⟨x, new, rfl⟩ := List.mem_map.mp first
              obtain ⟨y, new', rfl⟩ := List.mem_map.mp second
              rw [(expands.each x new).2.1, (expands.each y new').2.1]
            · intro a first b second
              obtain ⟨x, old, rfl⟩ := List.mem_map.mp first
              obtain ⟨y, new, rfl⟩ := List.mem_map.mp second
              rw [(expands.each y new).2.1]
              exact ih.ahead d rest taken x (by simp [Walk.queued, taken, old])
          · intro e more front x inside
            rw [queue] at front
            have behind := far e (by rw [front]; exact List.mem_cons_self)
            have close := near x inside
            omega
          · intro c seen
            rw [queued]
            obtain old | new := (expands.marked c).mp seen
            · obtain ⟨x, inside, folder⟩ := ih.kept c old
              exact ⟨x, List.mem_append_left _ inside, folder⟩
            · obtain ⟨x, inside, rfl⟩ := List.mem_map.mp new
              refine ⟨x, List.mem_append_right _ inside, ?_⟩
              rw [Dir.folder, (expands.each x inside).1]
              rfl

/-- After the turn of a folder above the limit, all it names are queued, no deeper than
one below it. -/
theorem turn_names {v : FAT} (readable : v.Readable) {m : Nat} {d : Dir} {rest : List Dir}
    (taken : (v.list m).queue = d :: rest) (near : d.depth < 256) {c : UInt32}
    (named : c ∈ v.subfolders d.folder) :
    ∃ x ∈ (v.list (m + 1)).queued, x.folder = some c ∧ x.depth ≤ d.depth + 1 := by
  obtain ⟨found, expands, -, queued⟩ := turn readable taken
  obtain ⟨x, inside, folder⟩ := (list_order readable (m + 1)).kept c (expands.all near c named)
  refine ⟨x, inside, folder, ?_⟩
  rw [queued] at inside
  obtain old | new := List.mem_append.mp inside
  · exact (list_order readable m).ahead d rest taken x old
  · exact Nat.le_of_eq (expands.each x new).2.1

theorem served {v : FAT} (readable : v.Readable) {n : Nat} {x : Dir}
    (queued : x ∈ (v.list n).queued) : ∃ m rest, (v.list m).queue = x :: rest :=
  queued_served v.expand (expand_readable readable) rootDir _ queued

theorem reach_queued {v : FAT} (readable : v.Readable) {k : Nat} {f : Folder}
    (reach : v.Reach k f) : ∃ n, ∃ x ∈ (v.list n).queued, x.folder = f ∧ x.depth ≤ k := by
  induction reach with
  | root => exact ⟨0, rootDir, List.mem_singleton.mpr rfl, rfl, Nat.le_refl _⟩
  | sub reach near named ih =>
      obtain ⟨n, d, queued, rfl, depth⟩ := ih
      obtain ⟨m, rest, taken⟩ := served readable queued
      obtain ⟨x, inside, folder, close⟩ := turn_names readable taken (by omega) named
      exact ⟨m + 1, x, inside, folder, by omega⟩

theorem root_unnamed_of_visits_once {v : FAT} (readable : v.Readable) (once : v.VisitsOnce) :
    v.RootUnnamed := by
  intro kind inRange k f reach near named
  obtain ⟨n, d, queued, rfl, depth⟩ := reach_queued readable reach
  obtain ⟨m, rest, taken⟩ := served readable queued
  obtain ⟨x, inside, folder, -⟩ := turn_names readable taken (by omega) named
  -- the root and this folder share a chain, and both get their turn
  have visited := queued_visited v.expand (expand_readable readable) rootDir
    { seen := [], out := [] } (m + 1)
  have nodup := once (m + 1 + (v.list (m + 1)).queue.length)
  rw [FAT.list, FAT.list, visited] at nodup
  change ((v.list (m + 1)).queued.filterMap v.chain).Nodup at nodup
  obtain ⟨tail, shape⟩ := list_shape v (m + 1)
  have rooted : v.chain rootDir = some v.rootCluster := by
    simp [FAT.chain, rootDir, kind, inRange]
  rw [shape.queued] at nodup inside
  rw [List.filterMap_cons_some rooted, List.nodup_cons] at nodup
  obtain rfl | behind := List.mem_cons.mp inside
  · cases folder
  · have file := (shape.folders x behind).1
    have first : x.first = v.rootCluster := by
      rw [Dir.folder, file] at folder
      exact Option.some.inj folder
    apply nodup.1
    refine List.mem_filterMap.mpr ⟨x, behind, ?_⟩
    simp [FAT.chain, file, first, inRange]

theorem chains_bounded {v : FAT} (n : Nat) (once : ((v.list n).visited.filterMap v.chain).Nodup) :
    ((v.list n).visited.filterMap v.chain).length ≤ v.clusters.toNat := by
  apply length_le_clusters once
  intro c met
  obtain ⟨x, -, chained⟩ := List.mem_filterMap.mp met
  have inRange : v.inRange c := by
    rw [FAT.chain] at chained
    split at chained
    · split at chained
      · rename_i fixed
        rw [← Option.some.inj chained]
        exact fixed.2
      · cases chained
    · split at chained
      · rename_i fixed
        rw [← Option.some.inj chained]
        exact fixed
      · cases chained
  simpa [FAT.inRange] using inRange

theorem exfat_chains_bounded {v : ExFAT} (n : Nat)
    (once : ((v.list n).visited.filterMap v.chain).Nodup) :
    ((v.list n).visited.filterMap v.chain).length ≤ v.clusters.toNat := by
  apply length_le_clusters once
  intro c met
  obtain ⟨x, -, chained⟩ := List.mem_filterMap.mp met
  have inRange : v.inRange c := by
    rw [ExFAT.chain] at chained
    split at chained
    · rename_i fixed
      rw [← Option.some.inj chained]
      exact fixed
    · cases chained
  simpa [ExFAT.inRange] using inRange

/-- The exFAT listing reads each chain at most once exactly when no chain is named twice,
the FAT listing exactly when the root's chain is not named; then it reads no more chains
than the volume has clusters. A failing disk only ends a listing early. -/
theorem listed_once_exact (v : ExFAT) (w : FAT) :
    ((v.NamedOnce → ∀ n, ((v.list n).visited.filterMap v.chain).Nodup ∧
        ((v.list n).visited.filterMap v.chain).length ≤ v.clusters.toNat) ∧
      (v.Readable → v.VisitsOnce → v.NamedOnce)) ∧
    ((w.RootUnnamed → ∀ n, ((w.list n).visited.filterMap w.chain).Nodup ∧
        ((w.list n).visited.filterMap w.chain).length ≤ w.clusters.toNat) ∧
      (w.Readable → w.VisitsOnce → w.RootUnnamed)) := by
  refine ⟨⟨fun once n => ?_, named_once_of_visits_once⟩,
    ⟨fun unnamed n => ?_, root_unnamed_of_visits_once⟩⟩
  · have visits := visits_once_of_named_once once n
    exact ⟨visits, exfat_chains_bounded n visits⟩
  · have visits := visits_once_of_root_unnamed unnamed n
    exact ⟨visits, chains_bounded n visits⟩

/-- A folder "a" whose stream starts at cluster 2, as an exFAT entry set. -/
def exfatEntry : Bytes :=
  [0x85, 2, 0, 0, 0x10] ++ List.replicate 27 0 ++
    [0xC0, 1, 0, 1] ++ List.replicate 16 0 ++ [2, 0, 0, 0] ++ List.replicate 8 0 ++
    [0xC1, 0, 97, 0] ++ List.replicate 28 0

/-- The same folder as a FAT record. -/
def fatEntry : Bytes :=
  [65] ++ List.replicate 10 32 ++ [0x10] ++ List.replicate 14 0 ++ [2, 0] ++ List.replicate 4 0

/-- An image that is zero but for the folder at an offset. -/
def imageWith (offset : Nat) (folder : Bytes) (o n : Nat) : Option Bytes :=
  some (if o = offset then folder ++ List.replicate (n - folder.length) 0 else List.replicate n 0)

/-- The root folder is cluster 2, and its one entry is a folder at cluster 2. -/
def loopingExfat : ExFAT where
  read := imageWith 4096 exfatEntry
  clusterSize := 512
  heapStart := 4096
  clusters := 8
  rootCluster := 2
  fat := List.replicate 8 0 ++ [255, 255, 255, 255]

def loopingFat : FAT where
  read := imageWith 1048576 fatEntry
  kind := .fat32
  clusterSize := 512
  dataStart := 1048576
  rootStart := 1048576
  rootSize := 0
  rootCluster := 2
  clusters := 65525
  fat := List.replicate 8 0 ++ [255, 255, 255, 15]
  toLower := id

theorem looping_root_listed_again : ¬ loopingExfat.VisitsOnce ∧ ¬ loopingFat.VisitsOnce := by
  constructor
  · intro once
    have visited : (loopingExfat.list 2).visited.filterMap loopingExfat.chain = [2, 2] := by
      decide +kernel
    have nodup := once 2
    rw [visited] at nodup
    exact absurd nodup (by decide)
  · intro once
    have visited : (loopingFat.list 2).visited.filterMap loopingFat.chain = [2, 2] := by
      decide +kernel
    have nodup := once 2
    rw [visited] at nodup
    exact absurd nodup (by decide)

end ProxmoxBackup.FatListing
