import ProxmoxBackup.FolderEntries

/-! The size shown for a selection (gui/snapshot_tree_index.go). The index credits each file
to every folder above it; the selection adds up the selected paths that have no selected
path above them. -/
namespace ProxmoxBackup.SelectionSize

open FolderEntries (Bytes slash dirName Above above_iff above_trans above_longer last_slash
  base_plain under under_iff)

structure SnapshotEntry where
  path : Bytes
  isDir : Bool
  size : UInt64
  deriving DecidableEq

/-- The maps of the index; a folder without a list has no children. -/
structure snapshotTreeIndex where
  count : Nat
  children : Bytes → List SnapshotEntry
  dirBytes : Bytes → Option UInt64

def snapshotParentOf (p : Bytes) : Bytes := dirName p

/-- The loop that credits a file from `p` up to the root. -/
def credit (size : UInt64) : Nat → Bytes → (Bytes → Option UInt64) → Bytes → Option UInt64
  | 0, _, dirBytes => dirBytes
  | fuel + 1, p, dirBytes =>
      let dirBytes := Function.update dirBytes p (some ((dirBytes p).getD 0 + size))
      if p = [] then dirBytes else credit size fuel (snapshotParentOf p) dirBytes

def addEntry (idx : snapshotTreeIndex) (e : SnapshotEntry) : snapshotTreeIndex :=
  let parent := snapshotParentOf e.path
  let idx := { idx with
    children := Function.update idx.children parent (idx.children parent ++ [e]) }
  if e.isDir then
    if (idx.dirBytes e.path).isSome then idx
    else { idx with dirBytes := Function.update idx.dirBytes e.path (some 0) }
  else if e.size = 0 then idx
  else { idx with dirBytes := credit e.size (parent.length + 1) parent idx.dirBytes }

def buildSnapshotTreeIndex (entries : List SnapshotEntry) : snapshotTreeIndex :=
  entries.foldl addEntry ⟨entries.length, fun _ => [], fun _ => none⟩

def fileAt (p : Bytes) (e : SnapshotEntry) : Bool := e.path = p && !e.isDir

/-- What one path of the selection adds. -/
def bytesOf (idx : snapshotTreeIndex) (p : Bytes) : UInt64 :=
  match idx.dirBytes p with
  | some b => b
  | none =>
      match (idx.children (snapshotParentOf p)).find? (fileAt p) with
      | some e => e.size
      | none => 0

/-- The loop over the selected paths, in whatever order the map gives them. -/
def addUp (idx : snapshotTreeIndex) (selected : List Bytes) : List Bytes → UInt64 → UInt64
  | [], sum => sum
  | p :: rest, sum =>
      if under selected p.length p then addUp idx selected rest sum
      else addUp idx selected rest (sum + bytesOf idx p)

def selectionBytes (idx : snapshotTreeIndex) (selected : List Bytes) : UInt64 :=
  addUp idx selected selected 0

/-! What the size should be. -/

/-- The sizes of the entries that are kept, added up as a uint64. -/
def total (keep : SnapshotEntry → Bool) : List SnapshotEntry → UInt64
  | [] => 0
  | e :: rest => (if keep e then e.size else 0) + total keep rest

/-- `p` is below `q`, as everything is below the root. -/
def below (q p : Bytes) : Bool := q = [] || (q ++ [slash]).isPrefixOf p

/-- A file at or below `q`. -/
def within (q : Bytes) (e : SnapshotEntry) : Bool := !e.isDir && (e.path = q || below q e.path)

/-- A file that is selected or lies below a selected path. -/
def wanted (paths : List Bytes) (e : SnapshotEntry) : Bool := paths.any fun q => within q e

structure Listing (entries : List SnapshotEntry) : Prop where
  distinct : entries.Pairwise fun a b => a.path ≠ b.path
  files : ∀ f ∈ entries, f.isDir = false → ∀ e ∈ entries, ¬ Above f.path e.path

/-! Sums. -/

theorem total_congr {f g : SnapshotEntry → Bool} {entries : List SnapshotEntry}
    (same : ∀ e ∈ entries, e.size ≠ 0 → f e = g e) : total f entries = total g entries := by
  induction entries with
  | nil => rfl
  | cons e rest ih =>
      rw [total, total, ih fun x listed => same x (List.mem_cons_of_mem _ listed)]
      by_cases empty : e.size = 0
      · rw [empty, ite_self, ite_self]
      · rw [same e (List.mem_cons_self ..) empty]

theorem total_none {f : SnapshotEntry → Bool} {entries : List SnapshotEntry}
    (none_ : ∀ e ∈ entries, e.size ≠ 0 → f e = false) : total f entries = 0 := by
  induction entries with
  | nil => rfl
  | cons e rest ih =>
      rw [total, ih fun x listed => none_ x (List.mem_cons_of_mem _ listed), UInt64.add_zero]
      by_cases empty : e.size = 0
      · rw [empty, ite_self]
      · rw [none_ e (List.mem_cons_self ..) empty]
        rfl

/-- Sums over entries that no two of the conditions share. -/
theorem total_or {f g : SnapshotEntry → Bool} {entries : List SnapshotEntry}
    (apart : ∀ e ∈ entries, ¬ (f e = true ∧ g e = true)) :
    total f entries + total g entries = total (fun e => f e || g e) entries := by
  induction entries with
  | nil => rfl
  | cons e rest ih =>
      have head : (if f e = true then e.size else 0) + (if g e = true then e.size else 0) =
          if (f e || g e) = true then e.size else 0 := by
        have one := apart e (List.mem_cons_self ..)
        cases first : f e <;> cases second : g e <;> simp_all
      rw [total, total, total, ← head, ← ih fun x listed => apart x (List.mem_cons_of_mem _ listed)]
      ac_rfl

theorem below_iff {q p : Bytes} : below q p = true ↔ q = [] ∨ Above q p := by
  rw [below, Bool.or_eq_true, decide_eq_true_iff, List.isPrefixOf_iff_prefix]
  refine or_congr_right ?_
  constructor
  · rintro ⟨b, rfl⟩
    exact ⟨b, by simp⟩
  · rintro ⟨b, rfl⟩
    exact ⟨b, by simp⟩

/-! The index. -/

theorem above_nil (q : Bytes) : ¬ Above q [] := fun above => by
  have longer := above_longer above
  simp at longer

/-- What is at or above the parent of a path is above the path. -/
theorem above_parent {q p : Bytes} :
    (q = snapshotParentOf p ∨ q = [] ∨ Above q (snapshotParentOf p)) ↔ (q = [] ∨ Above q p) := by
  by_cases top : q = []
  · simp [top]
  · rw [above_iff (t := p) top]
    constructor
    · rintro (here | empty | above)
      · refine .inr ⟨?_, .inl here⟩
        rw [← show snapshotParentOf p = dirName p from rfl, ← here]
        exact top
      · exact absurd empty top
      · refine .inr ⟨?_, .inr above⟩
        intro root
        rw [snapshotParentOf, root] at above
        exact above_nil q above
    · rintro (empty | ⟨-, here | above⟩)
      · exact absurd empty top
      · exact .inl here
      · exact .inr (.inr above)

theorem parent_shorter {p : Bytes} (some_ : p ≠ []) : (snapshotParentOf p).length < p.length := by
  by_cases inside : slash ∈ p
  · exact above_longer ⟨_, (last_slash inside).1⟩
  · rw [snapshotParentOf, (base_plain inside).2]
    exact List.length_pos_iff.mpr some_

theorem credit_spec (size : UInt64) (fuel : Nat) (p : Bytes) (dirBytes : Bytes → Option UInt64)
    (enough : p.length < fuel) (q : Bytes) :
    credit size fuel p dirBytes q =
      if q = p ∨ below q p then some ((dirBytes q).getD 0 + size) else dirBytes q := by
  induction fuel generalizing p dirBytes with
  | zero => exact absurd enough (Nat.not_lt_zero _)
  | succ fuel ih =>
      rw [credit]
      by_cases root : p = []
      · subst root
        rw [if_pos rfl]
        by_cases here : q = []
        · subst here
          rw [Function.update_self, if_pos (.inl rfl)]
        · have outside : ¬ (q = [] ∨ below q [] = true) := by
            rw [below_iff]
            rintro (empty | empty | above)
            · exact here empty
            · exact here empty
            · exact above_nil q above
          rw [Function.update_of_ne here, if_neg outside]
      · have shorter := parent_shorter root
        rw [if_neg root, ih (snapshotParentOf p) _ (by omega)]
        by_cases here : q = p
        · subst here
          have outside : ¬ (q = snapshotParentOf q ∨ below q (snapshotParentOf q) = true) := by
            rw [below_iff]
            rintro (same | empty | above)
            · rw [← same] at shorter
              exact Nat.lt_irrefl _ shorter
            · exact root empty
            · have longer := above_longer above
              omega
          rw [if_neg outside, Function.update_self, if_pos (.inl rfl)]
        · have inside : (q = snapshotParentOf p ∨ below q (snapshotParentOf p) = true) ↔
              (q = p ∨ below q p = true) := by
            rw [below_iff, below_iff, above_parent]
            constructor
            · exact .inr
            · rintro (same | above)
              · exact absurd same here
              · exact above
          rw [Function.update_of_ne here]
          simp only [inside]

theorem addEntry_dirBytes (idx : snapshotTreeIndex) (e : SnapshotEntry) (q : Bytes) :
    (addEntry idx e).dirBytes q =
      if e.isDir then (if q = e.path then some ((idx.dirBytes q).getD 0) else idx.dirBytes q)
      else if e.size ≠ 0 ∧ below q e.path then some ((idx.dirBytes q).getD 0 + e.size)
      else idx.dirBytes q := by
  unfold addEntry
  simp only
  cases dir : e.isDir with
  | true =>
      simp only [if_true]
      cases known : idx.dirBytes e.path with
      | some b =>
          rw [Option.isSome_some, if_pos rfl]
          by_cases here : q = e.path
          · subst here
            rw [if_pos rfl, known]
            rfl
          · rw [if_neg here]
      | none =>
          rw [Option.isSome_none, if_neg Bool.false_ne_true]
          by_cases here : q = e.path
          · subst here
            simp [known]
          · simp [here]
  | false =>
      simp only [Bool.false_eq_true, if_false]
      by_cases empty : e.size = 0
      · rw [if_pos empty, if_neg fun both => both.1 empty]
      · rw [if_neg empty]
        simp only
        rw [credit_spec _ _ _ _ (Nat.lt_succ_self _)]
        have inside : (q = snapshotParentOf e.path ∨ below q (snapshotParentOf e.path) = true) ↔
            (e.size ≠ 0 ∧ below q e.path = true) := by
          rw [below_iff, below_iff, above_parent]
          exact ⟨fun above => ⟨empty, above⟩, fun both => both.2⟩
        simp only [inside]

/-- A folder's bytes are those of the files below it. -/
theorem build_bytes (entries : List SnapshotEntry) (idx : snapshotTreeIndex) (q : Bytes) :
    ((entries.foldl addEntry idx).dirBytes q).getD 0 =
      (idx.dirBytes q).getD 0 + total (fun e => !e.isDir && below q e.path) entries := by
  induction entries generalizing idx with
  | nil => exact (UInt64.add_zero _).symm
  | cons e rest ih =>
      have step : ((addEntry idx e).dirBytes q).getD 0 =
          (idx.dirBytes q).getD 0 + if (!e.isDir && below q e.path) = true then e.size else 0 := by
        rw [addEntry_dirBytes]
        cases dir : e.isDir with
        | true =>
            simp only [if_true, Bool.not_true, Bool.false_and, Bool.false_eq_true, if_false,
              UInt64.add_zero]
            split <;> rfl
        | false =>
            simp only [Bool.false_eq_true, if_false, Bool.not_false, Bool.true_and]
            by_cases empty : e.size = 0
            · simp [empty]
            · by_cases inside : below q e.path = true
              · rw [if_pos ⟨empty, inside⟩, if_pos inside]
                rfl
              · rw [if_neg fun both => inside both.2, if_neg inside, UInt64.add_zero]
      rw [List.foldl_cons, ih, step, total, UInt64.add_assoc]

theorem build_known (entries : List SnapshotEntry) (idx : snapshotTreeIndex) (q : Bytes) :
    ((entries.foldl addEntry idx).dirBytes q).isSome = true ↔ (idx.dirBytes q).isSome = true ∨
      ∃ e ∈ entries, (e.isDir = true ∧ e.path = q) ∨
        (e.isDir = false ∧ e.size ≠ 0 ∧ below q e.path = true) := by
  induction entries generalizing idx with
  | nil => simp
  | cons e rest ih =>
      have step : ((addEntry idx e).dirBytes q).isSome = true ↔ (idx.dirBytes q).isSome = true ∨
          (e.isDir = true ∧ e.path = q) ∨
            (e.isDir = false ∧ e.size ≠ 0 ∧ below q e.path = true) := by
        rw [addEntry_dirBytes]
        cases dir : e.isDir with
        | true =>
            by_cases here : q = e.path
            · simp [here]
            · simp [here, Ne.symm here]
        | false =>
            by_cases inside : e.size ≠ 0 ∧ below q e.path = true
            · simp [inside]
            · simp only [Bool.false_eq_true, if_false, false_and, true_and, inside, or_false]
      rw [List.foldl_cons, ih, step]
      simp only [List.mem_cons, exists_eq_or_imp, or_assoc]

theorem build_children (entries : List SnapshotEntry) (idx : snapshotTreeIndex) (q : Bytes) :
    (entries.foldl addEntry idx).children q =
      idx.children q ++ entries.filter fun e => snapshotParentOf e.path = q := by
  induction entries generalizing idx with
  | nil => simp
  | cons e rest ih =>
      have step : (addEntry idx e).children q =
          idx.children q ++ if snapshotParentOf e.path = q then [e] else [] := by
        have kept : (addEntry idx e).children = Function.update idx.children
            (snapshotParentOf e.path) (idx.children (snapshotParentOf e.path) ++ [e]) := by
          unfold addEntry
          simp only
          split
          · split <;> rfl
          · split <;> rfl
        rw [kept]
        by_cases here : snapshotParentOf e.path = q
        · subst here
          rw [Function.update_self, if_pos rfl]
        · rw [Function.update_of_ne (Ne.symm here), if_neg here, List.append_nil]
      rw [List.foldl_cons, ih, step, List.append_assoc]
      congr 1
      by_cases here : snapshotParentOf e.path = q <;> simp [here]

theorem entry_unique {entries : List SnapshotEntry}
    (distinct : entries.Pairwise fun a b => a.path ≠ b.path) {a b : SnapshotEntry} (first : a ∈ entries)
    (second : b ∈ entries) (same : a.path = b.path) : a = b := by
  induction entries with
  | nil => cases first
  | cons e rest ih =>
      obtain ⟨others, distinct⟩ := List.pairwise_cons.mp distinct
      obtain here | first := List.mem_cons.mp first
      · obtain there | second := List.mem_cons.mp second
        · exact here.trans there.symm
        · exact absurd (here ▸ same) (others b second)
      · obtain there | second := List.mem_cons.mp second
        · exact absurd (there ▸ same.symm) (others a first)
        · exact ih distinct first second

/-- Only the first file of a path counts where paths are distinct. -/
theorem total_find {entries : List SnapshotEntry}
    (distinct : entries.Pairwise fun a b => a.path ≠ b.path) (p : Bytes) :
    total (fileAt p) entries =
      match entries.find? (fileAt p) with
      | some e => e.size
      | none => 0 := by
  induction entries with
  | nil => rfl
  | cons e rest ih =>
      obtain ⟨others, distinct⟩ := List.pairwise_cons.mp distinct
      rw [total, List.find?_cons]
      cases here : fileAt p e with
      | true =>
          have path : e.path = p := by
            rw [fileAt, Bool.and_eq_true, decide_eq_true_iff] at here
            exact here.1
          have behind : total (fileAt p) rest = 0 := by
            apply total_none
            intro x listed _
            have other : x.path ≠ p := fun same => others x listed (path.trans same.symm)
            simp [fileAt, other]
          rw [if_pos rfl, behind, UInt64.add_zero]
      | false =>
          rw [if_neg Bool.false_ne_true, UInt64.zero_add]
          exact ih distinct

/-- Each selected path adds the sizes of the files at or below it. -/
theorem bytesOf_build {entries : List SnapshotEntry} (listing : Listing entries) (p : Bytes) :
    bytesOf (buildSnapshotTreeIndex entries) p = total (within p) entries := by
  have known := build_known entries ⟨entries.length, fun _ => [], fun _ => none⟩ p
  have value := build_bytes entries ⟨entries.length, fun _ => [], fun _ => none⟩ p
  have children := build_children entries ⟨entries.length, fun _ => [], fun _ => none⟩
    (snapshotParentOf p)
  simp only [Option.getD_none, UInt64.zero_add, Option.isSome_none, Bool.false_eq_true, false_or,
    List.nil_append] at known value children
  rw [bytesOf, buildSnapshotTreeIndex, children]
  cases found : (entries.foldl addEntry ⟨entries.length, fun _ => [], fun _ => none⟩).dirBytes p with
  | some b =>
      rw [found] at known value
      obtain ⟨e, listed, cause⟩ := known.mp rfl
      rw [Option.getD_some] at value
      simp only [value]
      apply total_congr
      intro f member filled
      rw [within]
      cases folder : f.isDir with
      | true => rfl
      | false =>
          -- A file that is the path itself: nothing is below it, and no folder has its path.
          by_cases root : p = []
          · simp [below, root]
          · have other : f.path ≠ p := by
              rintro rfl
              obtain ⟨dir, same⟩ | ⟨-, -, inside⟩ := cause
              · rw [entry_unique listing.distinct listed member same, folder] at dir
                cases dir
              · obtain empty | above := below_iff.mp inside
                · exact root empty
                · exact listing.files f member folder e listed above
            simp [other]
  | none =>
      rw [found] at known
      have empty : ∀ e ∈ entries, e.isDir = false → e.size ≠ 0 → below p e.path = false := by
        intro e listed file filled
        rw [Bool.eq_false_iff]
        intro inside
        have set_ := known.mpr ⟨e, listed, .inr ⟨file, filled, inside⟩⟩
        cases set_
      have here : total (within p) entries =
          total (fileAt p) entries := by
        apply total_congr
        intro e listed filled
        rw [within]
        cases folder : e.isDir with
        | true => simp [fileAt, folder]
        | false => simp [fileAt, folder, empty e listed folder filled]
      rw [here, total_find listing.distinct, List.find?_filter]
      have whole : (fun e : SnapshotEntry => decide
          (decide (snapshotParentOf e.path = snapshotParentOf p) = true ∧ fileAt p e = true)) =
            fileAt p := by
        funext e
        by_cases same : e.path = p <;> simp [fileAt, same]
      simp only [whole]

/-! The selection. -/

/-- Paths that both have a file at or below them lie on one way down. -/
theorem above_linear {u v t : Bytes} (first : Above u t) (second : Above v t) :
    u = v ∨ Above u v ∨ Above v u := by
  obtain ⟨b, rfl⟩ := first
  obtain ⟨c, same⟩ := second
  obtain ⟨rest, whole, tail⟩ | ⟨rest, whole, tail⟩ := List.append_eq_append_iff.mp same
  · cases rest with
    | nil => exact .inl (by simpa using whole.symm)
    | cons first rest =>
        rw [List.cons_append] at tail
        obtain ⟨rfl, -⟩ := List.cons.inj tail
        exact .inr (.inl ⟨rest, whole⟩)
  · cases rest with
    | nil => exact .inl (by simpa using whole)
    | cons first rest =>
        rw [List.cons_append] at tail
        obtain ⟨rfl, -⟩ := List.cons.inj tail
        exact .inr (.inr ⟨rest, whole⟩)

/-- No selected path but the root is above it. -/
def Uncovered (selected : List Bytes) (p : Bytes) : Prop := ∀ u ∈ selected, u ≠ [] → ¬ Above u p

theorem under_false {selected : List Bytes} {p : Bytes} :
    under selected p.length p = false ↔ Uncovered selected p := by
  rw [Bool.eq_false_iff, ne_eq, under_iff selected (Nat.le_refl _)]
  constructor
  · exact fun none_ u listed some_ above => none_ ⟨u, listed, some_, above⟩
  · rintro free ⟨u, listed, some_, above⟩
    exact free u listed some_ above

theorem within_iff {q : Bytes} {e : SnapshotEntry} (some_ : q ≠ []) :
    within q e = true ↔ e.isDir = false ∧ (e.path = q ∨ Above q e.path) := by
  rw [within, Bool.and_eq_true, Bool.or_eq_true, below_iff, decide_eq_true_iff, Bool.not_eq_true']
  refine and_congr_right fun _ => or_congr_right ?_
  exact ⟨fun inside => inside.resolve_left some_, .inr⟩

/-- Two paths that nothing selected is above share no file. -/
theorem within_apart {selected : List Bytes} {p q : Bytes} (first : p ∈ selected) (second : q ∈ selected)
    (somes : p ≠ [] ∧ q ≠ []) (free : Uncovered selected p ∧ Uncovered selected q) (other : p ≠ q)
    (e : SnapshotEntry) : ¬ (within p e = true ∧ within q e = true) := by
  rw [within_iff somes.1, within_iff somes.2]
  rintro ⟨⟨-, here | above⟩, -, there | above'⟩
  · exact other (here.symm.trans there)
  · exact free.1 q second somes.2 (here ▸ above')
  · exact free.2 p first somes.1 (there ▸ above)
  · obtain same | down | down := above_linear above above'
    · exact other same
    · exact free.2 p first somes.1 down
    · exact free.1 q second somes.2 down

/-- A file at or below a selected path is at or below one that nothing selected is above: by
induction on the length of the path. -/
theorem uncovered_above {selected : List Bytes} (n : Nat) {q : Bytes} (bound : q.length ≤ n)
    (listed : q ∈ selected) (some_ : q ≠ []) {e : SnapshotEntry} (inside : within q e = true) :
    ∃ p ∈ selected, p ≠ [] ∧ Uncovered selected p ∧ within p e = true := by
  induction n generalizing q with
  | zero => exact absurd (List.length_eq_zero_iff.mp (Nat.le_zero.mp bound)) some_
  | succ n ih =>
      by_cases free : Uncovered selected q
      · exact ⟨q, listed, some_, free, inside⟩
      · unfold Uncovered at free
        push Not at free
        obtain ⟨u, member, filled, above⟩ := free
        have shorter := above_longer above
        apply ih (by omega) member filled
        obtain ⟨file, here | further⟩ := (within_iff some_).mp inside
        · exact (within_iff filled).mpr ⟨file, .inr (here ▸ above)⟩
        · exact (within_iff filled).mpr ⟨file, .inr (above_trans above further)⟩

/-- The sum over selected paths, each path that counts with the files at or below it. -/
theorem addUp_total {entries : List SnapshotEntry} (listing : Listing entries)
    {selected : List Bytes} (order : List Bytes) (once : order.Nodup)
    (members : ∀ p ∈ order, p ∈ selected ∧ p ≠ []) (sum : UInt64) :
    addUp (buildSnapshotTreeIndex entries) selected order sum =
      sum + total (wanted (order.filter fun p => !under selected p.length p)) entries := by
  induction order generalizing sum with
  | nil =>
      have none_ : total (wanted []) entries = 0 := total_none fun _ _ _ => rfl
      rw [addUp, List.filter_nil, none_, UInt64.add_zero]
  | cons p rest ih =>
      obtain ⟨fresh, once⟩ := List.nodup_cons.mp once
      have later := ih once fun x listed => members x (List.mem_cons_of_mem _ listed)
      rw [addUp]
      cases covered : under selected p.length p with
      | true =>
          rw [if_pos rfl, later, List.filter_cons, covered]
          rfl
      | false =>
          have apart : ∀ e ∈ entries, ¬ (within p e = true ∧
              wanted (rest.filter fun p => !under selected p.length p) e = true) := by
            rintro e - ⟨here, there⟩
            obtain ⟨q, listed, inside⟩ := List.any_eq_true.mp there
            obtain ⟨member, free⟩ := List.mem_filter.mp listed
            have other : p ≠ q := by
              rintro rfl
              exact fresh member
            have first := members p (List.mem_cons_self ..)
            have second := members q (List.mem_cons_of_mem _ member)
            exact within_apart first.1 second.1 ⟨first.2, second.2⟩
              ⟨under_false.mp covered, under_false.mp (by simpa using free)⟩ other e ⟨here, inside⟩
          rw [if_neg Bool.false_ne_true, later, List.filter_cons, covered, bytesOf_build listing,
            UInt64.add_assoc, total_or apart]
          rfl

/-- Without the root the selection is counted right. -/
theorem addUp_wanted {entries : List SnapshotEntry} (listing : Listing entries)
    {selected : List Bytes} (order : List Bytes) (once : order.Nodup)
    (members : ∀ p, p ∈ order ↔ p ∈ selected ∧ p ≠ []) (sum : UInt64) :
    addUp (buildSnapshotTreeIndex entries) selected order sum = sum + total (wanted order) entries := by
  rw [addUp_total listing order once fun p => (members p).mp]
  congr 1
  apply total_congr
  intro e _ _
  rw [Bool.eq_iff_iff, wanted, wanted, List.any_eq_true, List.any_eq_true]
  constructor
  · rintro ⟨q, listed, inside⟩
    exact ⟨q, (List.mem_filter.mp listed).1, inside⟩
  · rintro ⟨q, listed, inside⟩
    obtain ⟨member, some_⟩ := (members q).mp listed
    obtain ⟨p, chosen, filled, free, found⟩ :=
      uncovered_above q.length (Nat.le_refl _) member some_ inside
    refine ⟨p, List.mem_filter.mpr ⟨(members p).mpr ⟨chosen, filled⟩, ?_⟩, found⟩
    rw [under_false.mpr free]
    rfl

theorem addUp_shift (idx : snapshotTreeIndex) (selected order : List Bytes) (sum more : UInt64) :
    addUp idx selected order (sum + more) = addUp idx selected order sum + more := by
  induction order generalizing sum with
  | nil => rfl
  | cons p rest ih =>
      rw [addUp, addUp]
      split
      · exact ih sum
      · have moved : sum + more + bytesOf idx p = sum + bytesOf idx p + more := by ac_rfl
        rw [moved, ih]

/-- The root adds its bytes on top of the other paths. -/
theorem addUp_root (idx : snapshotTreeIndex) (selected order : List Bytes) (once : order.Nodup)
    (sum : UInt64) :
    addUp idx selected order sum = addUp idx selected (order.filter (· ≠ [])) sum +
      if order.contains [] then bytesOf idx [] else 0 := by
  induction order generalizing sum with
  | nil => exact (UInt64.add_zero _).symm
  | cons p rest ih =>
      obtain ⟨fresh, once⟩ := List.nodup_cons.mp once
      by_cases root : p = []
      · subst root
        have others : rest.filter (· ≠ []) = rest := by
          apply List.filter_eq_self.mpr
          intro q listed
          refine decide_eq_true ?_
          rintro rfl
          exact fresh listed
        have free : under selected ([] : Bytes).length [] = false := rfl
        rw [addUp, free, if_neg Bool.false_ne_true, List.filter_cons, if_neg (by simp), others,
          if_pos (List.contains_iff_mem.mpr List.mem_cons_self)]
        exact addUp_shift idx selected rest sum _
      · have member : (p :: rest).contains [] = rest.contains [] := by simp [Ne.symm root]
        rw [List.filter_cons, if_pos (by simpa using root), addUp, addUp]
        simp only [member]
        split
        · exact ih once sum
        · exact ih once _

/-- The size shown is the size of what is restored, the root not being selected together
with anything else that has bytes. -/
theorem selection_counted_exact {entries : List SnapshotEntry} (listing : Listing entries)
    (paths selected : List Bytes) (once : selected.Nodup) (keys : ∀ p, p ∈ selected ↔ p ∈ paths) :
    selectionBytes (buildSnapshotTreeIndex entries) selected = total (wanted paths) entries ↔
      ([] ∈ paths → total (wanted (paths.filter (· ≠ []))) entries = 0) := by
  have rest : total (wanted (selected.filter (· ≠ []))) entries =
      total (wanted (paths.filter (· ≠ []))) entries := by
    apply total_congr
    intro e _ _
    rw [Bool.eq_iff_iff, wanted, wanted, List.any_eq_true, List.any_eq_true]
    simp only [List.mem_filter, keys]
  have members (p : Bytes) : p ∈ selected.filter (· ≠ []) ↔ p ∈ selected ∧ p ≠ [] := by
    rw [List.mem_filter, decide_eq_true_iff]
  have counted := addUp_wanted listing (selected.filter (· ≠ [])) (once.filter _) members 0
  rw [selectionBytes, addUp_root _ _ _ once, counted, rest, UInt64.zero_add, bytesOf_build listing]
  by_cases root : [] ∈ paths
  · have all : total (within []) entries = total (wanted paths) entries := by
      apply total_congr
      intro e _ _
      rw [Bool.eq_iff_iff, wanted, List.any_eq_true]
      constructor
      · exact fun inside => ⟨[], root, inside⟩
      · rintro ⟨q, -, inside⟩
        rw [within, Bool.and_eq_true] at inside ⊢
        exact ⟨inside.1, by simp [below]⟩
    rw [if_pos (List.contains_iff_mem.mpr ((keys []).mpr root)), all, UInt64.add_eq_right]
    exact ⟨fun none_ _ => none_, fun none_ => none_ root⟩
  · have others : paths.filter (· ≠ []) = paths := by
      apply List.filter_eq_self.mpr
      intro q listed
      refine decide_eq_true ?_
      rintro rfl
      exact root listed
    rw [if_neg fun member => root ((keys []).mp (List.contains_iff_mem.mp member)), UInt64.add_zero, others]
    exact ⟨fun _ member => absurd member root, fun _ => rfl⟩

/-- A folder "d" with a file in it, and a file beside it; the folder has no entry. -/
def twoFiles : List SnapshotEntry := [⟨[100, 47, 97], false, 10⟩, ⟨[98], false, 5⟩]

theorem twoFiles_listing : Listing twoFiles where
  distinct := by decide
  files := by
    intro f first _ e second above
    have tail := below_iff.mpr (.inr above)
    revert tail
    simp only [twoFiles, List.mem_cons, List.not_mem_nil, or_false] at first second
    obtain rfl | rfl := first <;> obtain rfl | rfl := second <;> decide

theorem folder_and_file_counted :
    selectionBytes (buildSnapshotTreeIndex twoFiles) [[100, 47, 97], [100]] =
      total (wanted [[100], [100, 47, 97], [100]]) twoFiles :=
  (selection_counted_exact twoFiles_listing [[100], [100, 47, 97], [100]] [[100, 47, 97], [100]]
    (by decide) (by simp [or_comm])).mpr (by decide)

/-- With the root and the file "b" selected the file is counted twice. -/
theorem root_counted_twice :
    selectionBytes (buildSnapshotTreeIndex twoFiles) [[], [98]] = 20 ∧
      total (wanted [[], [98]]) twoFiles = 15 := by
  decide

end ProxmoxBackup.SelectionSize
