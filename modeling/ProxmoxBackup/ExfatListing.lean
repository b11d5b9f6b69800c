import ProxmoxBackup.GoValues
import ProxmoxBackup.LittleEndian
import ProxmoxBackup.QueueWalk
import Mathlib.Order.Interval.Finset.Nat

/-! The listing of an exFAT volume: entry sets read out of each folder's clusters, and
a queue of the folders they name. Nothing remembers which folders were queued before. -/
namespace ProxmoxBackup.ExfatListing

open GoValues QueueWalk

abbrev Bytes := List UInt8

def byteAt (b : Bytes) (o : Nat) : UInt8 := b.getD o 0

def le (width : Nat) (b : Bytes) (o : Nat) : Nat := LittleEndian.decode ((b.drop o).take width)

/-- A Unicode scalar value for each unit or surrogate pair, U+FFFD for a lone surrogate. -/
def utf16Decode : List Nat → List Char
  | [] => []
  | [unit] => [if 0xD800 ≤ unit ∧ unit < 0xE000 then Char.ofNat 0xFFFD else Char.ofNat unit]
  | high :: low :: rest =>
      if 0xD800 ≤ high ∧ high < 0xDC00 ∧ 0xDC00 ≤ low ∧ low < 0xE000 then
        Char.ofNat (0x10000 + (high - 0xD800) * 0x400 + (low - 0xDC00)) :: utf16Decode rest
      else
        (if 0xD800 ≤ high ∧ high < 0xE000 then Char.ofNat 0xFFFD else Char.ofNat high) ::
          utf16Decode (low :: rest)

def utf16String (units : List Nat) : Bytes :=
  (utf16Decode units).flatMap String.utf8EncodeChar

/-- The volume once it is open. `read` gives the bytes at an offset, zeros behind the end
of the image, and nothing when the disk fails. -/
structure ExFAT where
  read : Nat → Nat → Option Bytes
  clusterSize : Nat
  heapStart : Nat
  clusters : UInt32
  rootCluster : UInt32
  fat : Bytes

def ExFAT.clusterOffset (v : ExFAT) (c : UInt32) : Nat :=
  v.heapStart + (c - 2).toNat * v.clusterSize

def ExFAT.inRange (v : ExFAT) (c : UInt32) : Bool := 2 ≤ c && c < v.clusters + 2

/-- The first `limit` clusters of the chain from `c`, short where the table or the chain ends. -/
def ExFAT.follow (v : ExFAT) : Nat → UInt32 → List UInt32
  | 0, _ => []
  | limit + 1, c =>
      if v.inRange c then
        c :: if c.toNat * 4 + 4 > v.fat.length then []
          else v.follow limit (.ofNat (le 4 v.fat (c.toNat * 4)))
      else []

def ExFAT.clusterList (v : ExFAT) (first : UInt32) (noChain : Bool) (want : Int) : List UInt32 :=
  if ¬ v.inRange first then []
  else if noChain then
    ((List.range want.toNat).map (fun i => first + .ofNat i)).takeWhile (· < v.clusters + 2)
  else v.follow (if want ≤ 0 then 2 ^ 20 else want.toNat) first

def ExFAT.readChain (v : ExFAT) (first : UInt32) (noChain : Bool) (size : Int) : Option Bytes :=
  let want := if size > 0 then (int64 (size + v.clusterSize - 1)).tdiv v.clusterSize else 0
  (v.clusterList first noChain want).foldlM
    (fun b c => do
      let piece ← v.read (v.clusterOffset c) v.clusterSize
      return b ++ piece) []

/-- What an entry set says: name, attributes and the stream. -/
structure ExfatFile where
  name : Bytes
  attrs : Nat
  first : UInt32
  noChain : Bool
  size : Int
  valid : Int

/-- The records of a set that starts a file, up to the end of the folder. -/
def entrySets : Nat → Bytes → List Bytes
  | 0, _ => []
  | fuel + 1, raw =>
      if raw.length < 32 then []
      else if byteAt raw 0 = 0 then []
      else if byteAt raw 0 ≠ 0x85 then entrySets fuel (raw.drop 32)
      else
        let sec := (byteAt raw 1).toNat
        if sec < 2 ∨ 32 * (sec + 1) > raw.length then entrySets fuel (raw.drop 32)
        else raw.take (32 * (sec + 1)) :: entrySets fuel (raw.drop (32 * (sec + 1)))

/-- Up to `left` units out of the name records that follow one another. -/
def nameUnits : Nat → List Bytes → List Nat
  | _, [] => []
  | left, ne :: more =>
      if left = 0 then []
      else if byteAt ne 0 ≠ 0xC1 then []
      else
        let units := ((List.range 15).map (fun k => le 2 ne (2 + 2 * k))).take left
        units ++ nameUnits (left - units.length) more

def fileOf (entrySet : Bytes) : Option ExfatFile :=
  if byteAt entrySet 32 ≠ 0xC0 then none
  else
    let sec := (byteAt entrySet 1).toNat
    let st := (entrySet.drop 32).take 32
    let records := (List.range (sec - 1)).map fun i => (entrySet.drop (32 * (i + 2))).take 32
    let name := utf16String (nameUnits (byteAt st 3).toNat records)
    if name = [] then none
    else some
      { name, attrs := le 2 entrySet 4, first := .ofNat (le 4 st 20)
        noChain := byteAt st 1 &&& 2 != 0, size := int64 (le 8 st 24), valid := int64 (le 8 st 8) }

structure Entry where
  path : Bytes
  isDir : Bool
  size : Nat
  attrs : Nat
  record : Nat
  aux : Nat
  deriving DecidableEq

structure Dir where
  path : Bytes
  first : UInt32
  noChain : Bool
  size : Int
  depth : Nat
  deriving DecidableEq

def slash : UInt8 := 47

def joinPath (dir name : Bytes) : Bytes := if dir = [] then name else dir ++ slash :: name

def ExfatFile.isDir (f : ExfatFile) : Bool := f.attrs &&& 0x10 != 0

def ExfatFile.entry (d : Dir) (f : ExfatFile) : Entry where
  path := joinPath d.path f.name
  isDir := f.isDir
  size := if f.isDir then 0 else uint64 (f.size % 2 ^ 64).toNat
  attrs := f.attrs &&& 0x27
  record := if f.noChain then f.first.toNat + 2 ^ 63 else f.first.toNat
  aux := uint64 (f.valid % 2 ^ 64).toNat

def files (raw : Bytes) : List ExfatFile := (entrySets raw.length raw).filterMap fileOf

/-- The folders the entries of `d` put on the queue. -/
def subfolders (d : Dir) (raw : Bytes) : List Dir :=
  (files raw).filterMap fun f =>
    if f.isDir ∧ d.depth < 256 then
      some { path := joinPath d.path f.name, first := f.first, noChain := f.noChain, size := f.size,
             depth := d.depth + 1 }
    else none

def ExFAT.expand (v : ExFAT) : Expand Dir (List Entry) := fun out d => do
  let raw ← v.readChain d.first d.noChain d.size
  return (subfolders d raw, out ++ (files raw).map (ExfatFile.entry d))

def ExFAT.root (v : ExFAT) : Dir where
  path := []
  first := v.rootCluster
  noChain := false
  size := 0
  depth := 0

/-- The listing after `n` folders; a cancelled one stops at some `n`. -/
def ExFAT.list (v : ExFAT) (n : Nat) : Walk Dir (List Entry) := walk v.expand v.root [] n

/-- The chain a folder's data is in, by its first cluster; a folder whose first cluster is
out of range has none. -/
def ExFAT.chain (v : ExFAT) (d : Dir) : Option UInt32 :=
  if v.inRange d.first then some d.first else none

def ExFAT.named (v : ExFAT) (d : Dir) : List Dir :=
  match v.readChain d.first d.noChain d.size with
  | none => []
  | some raw => subfolders d raw

/-- A folder entries lead to from the root, by its path and depth. -/
inductive ExFAT.Reach (v : ExFAT) : Dir → Prop where
  | root : v.Reach v.root
  | sub {d x : Dir} (reach : v.Reach d) (named : x ∈ v.named d) : v.Reach x

/-- No entry names the root's chain, and no chain is named by two entries. -/
structure ExFAT.NamedOnce (v : ExFAT) : Prop where
  root : ∀ c, v.chain v.root = some c → ∀ d, v.Reach d → ∀ x ∈ v.named d, v.chain x ≠ some c
  inside : ∀ d, v.Reach d → ((v.named d).filterMap v.chain).Nodup
  across : ∀ d e, v.Reach d → v.Reach e → ∀ x ∈ v.named d, ∀ y ∈ v.named e, ∀ c,
    v.chain x = some c → v.chain y = some c → d = e

def ExFAT.VisitsOnce (v : ExFAT) : Prop :=
  ∀ n, ((v.list n).visited.filterMap v.chain).Nodup

def ExFAT.Readable (v : ExFAT) : Prop := ∀ offset n, (v.read offset n).isSome

theorem foldlM_isSome {α β : Type} {f : β → α → Option β} (each : ∀ b a, (f b a).isSome) (b : β)
    (l : List α) : (l.foldlM f b).isSome := by
  induction l generalizing b with
  | nil => rfl
  | cons a l ih =>
      obtain ⟨next, stepped⟩ := Option.isSome_iff_exists.mp (each b a)
      rw [List.foldlM_cons, stepped]
      exact ih next

theorem expand_named {v : ExFAT} {out out' : List Entry} {d : Dir} {found : List Dir}
    (opened : v.expand out d = some (found, out')) : found = v.named d := by
  simp only [ExFAT.expand, bind, Option.bind] at opened
  rw [ExFAT.named]
  split at opened
  · cases opened
  · rename_i raw read
    rw [read]
    exact (Prod.mk.inj (Option.some.inj opened)).1.symm

theorem expand_readable {v : ExFAT} (readable : v.Readable) (out : List Entry) (d : Dir) :
    (v.expand out d).isSome := by
  have read : (v.readChain d.first d.noChain d.size).isSome := by
    rw [ExFAT.readChain]
    apply foldlM_isSome
    intro b c
    obtain ⟨piece, got⟩ := Option.isSome_iff_exists.mp (readable (v.clusterOffset c) v.clusterSize)
    rw [got]
    rfl
  obtain ⟨raw, got⟩ := Option.isSome_iff_exists.mp read
  rw [ExFAT.expand, got]
  rfl

/-- Only a folder with a chain has entries. -/
theorem named_chain {v : ExFAT} {d x : Dir} (named : x ∈ v.named d) : v.chain d = some d.first := by
  by_cases inRange : v.inRange d.first
  · rw [ExFAT.chain, if_pos inRange]
  · have empty : v.readChain d.first d.noChain d.size = some [] := by
      rw [ExFAT.readChain, ExFAT.clusterList, if_pos inRange]
      rfl
    rw [ExFAT.named, empty] at named
    cases named

/-! Chains named once are visited once. -/

structure Once (v : ExFAT) (w : Walk Dir (List Entry)) : Prop where
  reach : ∀ d ∈ w.queued, v.Reach d
  nodup : (w.queued.filterMap v.chain).Nodup
  source : ∀ x ∈ w.queued, x = v.root ∨ ∃ d ∈ w.visited, x ∈ v.named d

theorem Once.start (v : ExFAT) : Once v (.start v.root []) where
  reach d queued := by
    obtain rfl : d = v.root := by simpa [Walk.queued, Walk.start] using queued
    exact .root
  nodup := by
    cases chained : v.chain v.root <;> simp [Walk.queued, Walk.start, chained]
  source x queued := .inl (by simpa [Walk.queued, Walk.start] using queued)

theorem Once.kept {v : ExFAT} (once : v.NamedOnce) (w : Walk Dir (List Entry)) (inv : Once v w) :
    Once v (w.step v.expand) := by
  obtain ⟨-, stepped⟩ | ⟨d, rest, taken, -, stepped⟩ | ⟨d, rest, found, out, taken, opened, stepped⟩ :=
    step_cases v.expand w
  · rw [stepped]
    exact inv
  · -- a failed read keeps a front part of what was queued
    have front : w.visited ++ [d] <+: w.queued := ⟨rest, by simp [Walk.queued, taken]⟩
    have cut : (w.step v.expand).queued = w.visited ++ [d] := by
      rw [stepped, Walk.queued, List.append_nil]
    refine ⟨?_, ?_, ?_⟩
    · intro x queued
      rw [cut] at queued
      exact inv.reach x (front.subset queued)
    · rw [cut]
      exact inv.nodup.sublist (front.sublist.filterMap v.chain)
    · intro x queued
      rw [cut] at queued
      obtain root | ⟨e, visited, named⟩ := inv.source x (front.subset queued)
      · exact .inl root
      · rw [stepped]
        exact .inr ⟨e, List.mem_append_left _ visited, named⟩
  · obtain rfl := expand_named opened
    have grown : (w.step v.expand).queued = w.queued ++ v.named d := by
      rw [stepped, Walk.queued, Walk.queued, taken]
      simp
    have queued : d ∈ w.queued := by simp [Walk.queued, taken]
    have reached := inv.reach d queued
    refine ⟨?_, ?_, ?_⟩
    · intro x old
      rw [grown] at old
      obtain old | new := List.mem_append.mp old
      · exact inv.reach x old
      · exact .sub reached new
    · rw [grown, List.filterMap_append]
      refine List.nodup_append.mpr ⟨inv.nodup, once.inside d reached, ?_⟩
      rintro c old _ new rfl
      obtain ⟨x, inside, chained⟩ := List.mem_filterMap.mp new
      obtain ⟨y, before, same⟩ := List.mem_filterMap.mp old
      obtain rfl | ⟨e, visited, named⟩ := inv.source y before
      · exact once.root c same d reached x inside chained
      · -- the folder that named it would be this one, already visited
        have reachedE := inv.reach e (List.mem_append_left _ visited)
        obtain rfl := once.across d e reached reachedE x inside y named c chained same
        have nodup := inv.nodup
        rw [Walk.queued, taken, List.filterMap_append, List.nodup_append] at nodup
        have mine := named_chain inside
        exact nodup.2.2 d.first (List.mem_filterMap.mpr ⟨d, visited, mine⟩) d.first
          (List.mem_filterMap.mpr ⟨d, List.mem_cons_self, mine⟩) rfl
    · intro x old
      rw [grown] at old
      rw [stepped]
      obtain old | new := List.mem_append.mp old
      · obtain root | ⟨e, visited, named⟩ := inv.source x old
        · exact .inl root
        · exact .inr ⟨e, List.mem_append_left _ visited, named⟩
      · exact .inr ⟨d, by simp, new⟩

theorem visits_once_of_named_once {v : ExFAT} (once : v.NamedOnce) : v.VisitsOnce := by
  intro n
  have inv := walk_invariant v.expand (Once.start v) (Once.kept once) n
  have nodup := inv.nodup
  rw [Walk.queued, List.filterMap_append, List.nodup_append] at nodup
  exact nodup.1

/-! On a readable disk every reached folder is queued, so a chain named twice is visited
twice. -/

theorem queued_nodup {v : ExFAT} (readable : v.Readable) (once : v.VisitsOnce) (n : Nat) :
    ((v.list n).queued.filterMap v.chain).Nodup := by
  have visited := queued_visited v.expand (expand_readable readable) v.root [] n
  have nodup := once (n + (v.list n).queue.length)
  rw [ExFAT.list, ExFAT.list, visited] at nodup
  exact nodup

theorem turn {v : ExFAT} (readable : v.Readable) {m : Nat} {d : Dir} {rest : List Dir}
    (taken : (v.list m).queue = d :: rest) :
    (v.list (m + 1)).queued = (v.list m).queued ++ v.named d := by
  obtain ⟨⟨found, out⟩, opened⟩ :=
    Option.isSome_iff_exists.mp (expand_readable readable (v.list m).mark d)
  obtain rfl := expand_named opened
  exact (front_found v.expand taken opened).1

theorem reach_served {v : ExFAT} (readable : v.Readable) {d : Dir} (reach : v.Reach d) :
    ∃ m rest, (v.list m).queue = d :: rest := by
  induction reach with
  | root => exact ⟨0, [], rfl⟩
  | sub reach named ih =>
      obtain ⟨m, rest, taken⟩ := ih
      have grown := turn readable taken
      exact queued_served v.expand (expand_readable readable) v.root [] (n := m + 1)
        (by
          change _ ∈ (v.list (m + 1)).queued
          rw [grown]
          exact List.mem_append_right _ named)

theorem turn_fresh {v : ExFAT} (readable : v.Readable) (once : v.VisitsOnce) {m : Nat} {d : Dir}
    {rest : List Dir} (taken : (v.list m).queue = d :: rest) {x y : Dir} {c : UInt32}
    (old : x ∈ (v.list m).queued) (new : y ∈ v.named d) (chained : v.chain y = some c) :
    v.chain x ≠ some c := by
  intro same
  have nodup := queued_nodup readable once (m + 1)
  rw [turn readable taken, List.filterMap_append, List.nodup_append] at nodup
  exact nodup.2.2 c (List.mem_filterMap.mpr ⟨x, old, same⟩) c
    (List.mem_filterMap.mpr ⟨y, new, chained⟩) rfl

theorem queued_mono {v : ExFAT} (readable : v.Readable) {m n : Nat} (le : m ≤ n) {x : Dir}
    (queued : x ∈ (v.list m).queued) : x ∈ (v.list n).queued := by
  obtain ⟨k, rfl⟩ := Nat.exists_eq_add_of_le le
  exact (queued_grows v.expand (expand_readable readable) v.root [] m k).subset queued

/-- Two folders served at different turns name different chains. -/
theorem turn_apart {v : ExFAT} (readable : v.Readable) (once : v.VisitsOnce) {m n : Nat}
    {d e : Dir} {rest rest' : List Dir} (taken : (v.list m).queue = d :: rest)
    (takenLater : (v.list n).queue = e :: rest') (earlier : m < n) {x y : Dir} {c : UInt32}
    (first : x ∈ v.named d) (second : y ∈ v.named e) (chained : v.chain y = some c) :
    v.chain x ≠ some c := by
  have queued : x ∈ (v.list (m + 1)).queued := by
    rw [turn readable taken]
    exact List.mem_append_right _ first
  exact turn_fresh readable once takenLater (queued_mono readable earlier queued) second chained

theorem named_once_of_visits_once {v : ExFAT} (readable : v.Readable) (once : v.VisitsOnce) :
    v.NamedOnce where
  root := by
    intro c rooted d reach x named chained
    obtain ⟨m, rest, taken⟩ := reach_served readable reach
    have queued : v.root ∈ (v.list m).queued :=
      queued_mono readable (Nat.zero_le m) List.mem_cons_self
    exact turn_fresh readable once taken queued named chained rooted
  inside := by
    intro d reach
    obtain ⟨m, rest, taken⟩ := reach_served readable reach
    have nodup := queued_nodup readable once (m + 1)
    rw [turn readable taken, List.filterMap_append, List.nodup_append] at nodup
    exact nodup.2.1
  across := by
    intro d e reachD reachE x namedX y namedY c chainedX chainedY
    obtain ⟨m, rest, taken⟩ := reach_served readable reachD
    obtain ⟨n, rest', taken'⟩ := reach_served readable reachE
    obtain earlier | rfl | later := Nat.lt_trichotomy m n
    · exact absurd chainedX
        (turn_apart readable once taken taken' earlier namedX namedY chainedY)
    · rw [taken] at taken'
      exact (List.cons.inj taken').1
    · exact absurd chainedY
        (turn_apart readable once taken' taken later namedY namedX chainedX)

/-- Chains met once are no more than the clusters of the volume. -/
theorem length_le_clusters {clusters : UInt32} {chains : List UInt32} (nodup : chains.Nodup)
    (inside : ∀ c ∈ chains, 2 ≤ c ∧ c < clusters + 2) : chains.length ≤ clusters.toNat := by
  have numbers : (chains.map UInt32.toNat).Nodup :=
    nodup.map (fun _ _ same => UInt32.toNat.inj same)
  have bound : (chains.map UInt32.toNat).toFinset ⊆ Finset.Ico 2 (clusters.toNat + 2) := by
    intro number listed
    obtain ⟨c, met, rfl⟩ := List.mem_map.mp (List.mem_toFinset.mp listed)
    have low := UInt32.le_iff_toNat_le.mp (inside c met).1
    have high := UInt32.lt_iff_toNat_lt.mp (inside c met).2
    have wrapped : (clusters + 2).toNat ≤ clusters.toNat + 2 := by
      rw [UInt32.toNat_add]
      exact Nat.mod_le _ _
    rw [Finset.mem_Ico]
    exact ⟨low, by omega⟩
  have count := Finset.card_le_card bound
  rw [List.toFinset_card_of_nodup numbers, List.length_map, Nat.card_Ico] at count
  omega

end ProxmoxBackup.ExfatListing
