import ProxmoxBackup.SetCompare

/-! What compareIndexes lists, to the entry: of two indexes sorted by path, each
path once, a file of the snapshot is missing when the live folder has nothing
or a folder there, and a live file is new when the snapshot has nothing or a
folder there. -/

namespace ProxmoxBackup.CompareExact

open FileTree SetCompare

/-- Two files of one path that count as changed. -/
def Differs (s l : IndexEntry) : Prop :=
  s.isDir = false ∧ l.isDir = false ∧
    (s.link ≠ l.link ∨ s.link = false ∧ l.link = false ∧ (s.size ≠ l.size ∨ s.mtime ≠ l.mtime))

def Absent (unreadable : List Path) (live : List IndexEntry) (e : IndexEntry) : Prop :=
  e.isDir = false ∧
    ((∀ l ∈ live, l.path ≠ e.path) ∧ e.path ≠ [backupMetaFileName] ∧
        underAny e.path unreadable = false ∨
      ∃ l ∈ live, l.path = e.path ∧ l.isDir = true)

def Fresh (snap : List IndexEntry) (e : IndexEntry) : Prop :=
  e.isDir = false ∧ ∀ s ∈ snap, s.path = e.path → s.isDir = true

/-- What `after` lists beyond `before`. -/
structure Compared (unreadable : List Path) (snap live : List IndexEntry)
    (before after : CompareResult) : Prop where
  missing : ∀ e, e ∈ after.missing ↔ e ∈ before.missing ∨ e ∈ snap ∧ Absent unreadable live e
  changed : ∀ c, c ∈ after.changed ↔ c ∈ before.changed ∨
    c.snap ∈ snap ∧ c.live ∈ live ∧ c.snap.path = c.live.path ∧ Differs c.snap c.live
  new : ∀ e, e ∈ after.new ↔ e ∈ before.new ∨ e ∈ live ∧ Fresh snap e

def Ordered (index : List IndexEntry) : Prop := index.Pairwise fun a b => a.path < b.path

theorem ordered_head {e : IndexEntry} {index : List IndexEntry} (ordered : Ordered (e :: index)) :
    (∀ other ∈ index, e.path < other.path) ∧ Ordered index :=
  List.pairwise_cons.mp ordered

theorem onlySnap_missing (r : CompareResult) (unreadable : List Path) (s e : IndexEntry) :
    e ∈ (r.onlySnap unreadable s).missing ↔ e ∈ r.missing ∨
      e = s ∧ s.isDir = false ∧ s.path ≠ [backupMetaFileName] ∧
        underAny s.path unreadable = false := by
  unfold CompareResult.onlySnap
  split
  · next passed =>
      simp only [Bool.or_eq_true, decide_eq_true_eq] at passed
      constructor
      · exact Or.inl
      · rintro (old | ⟨_, file, named, _⟩)
        · exact old
        · rcases passed with folder | info
          · rw [file] at folder
            cases folder
          · exact absurd info named
  · next kept =>
      simp at kept
      split
      · next unknown => simp [unknown]
      · next known => simp [kept, known]

theorem onlySnap_others (r : CompareResult) (unreadable : List Path) (s : IndexEntry) :
    (r.onlySnap unreadable s).changed = r.changed ∧ (r.onlySnap unreadable s).new = r.new := by
  unfold CompareResult.onlySnap
  split
  · exact ⟨rfl, rfl⟩
  · split
    · exact ⟨rfl, rfl⟩
    · exact ⟨rfl, rfl⟩

theorem onlyLive_new (r : CompareResult) (l e : IndexEntry) :
    e ∈ (r.onlyLive l).new ↔ e ∈ r.new ∨ e = l ∧ l.isDir = false := by
  unfold CompareResult.onlyLive
  split
  · next folder => simp [folder]
  · next file => simp [file]

theorem onlyLive_others (r : CompareResult) (l : IndexEntry) :
    (r.onlyLive l).changed = r.changed ∧ (r.onlyLive l).missing = r.missing := by
  unfold CompareResult.onlyLive
  split
  · exact ⟨rfl, rfl⟩
  · exact ⟨rfl, rfl⟩

/-- One path in both indexes; no entry is a folder and a link at once. -/
theorem both_lists (r : CompareResult) (s l : IndexEntry) (file : s.link = true → s.isDir = false)
    (liveFile : l.link = true → l.isDir = false) :
    (∀ e, e ∈ (r.both s l).missing ↔ e ∈ r.missing ∨ e = s ∧ s.isDir = false ∧ l.isDir = true) ∧
      (∀ c, c ∈ (r.both s l).changed ↔ c ∈ r.changed ∨ c = ⟨s, l⟩ ∧ Differs s l) ∧
      ∀ e, e ∈ (r.both s l).new ↔ e ∈ r.new ∨ e = l ∧ l.isDir = false ∧ s.isDir = true := by
  unfold CompareResult.both CompareResult.onlyLive Differs
  cases folder : s.isDir with
  | true =>
      have unlinked : s.link = false := by
        cases link : s.link with
        | false => rfl
        | true => rw [file link] at folder; cases folder
      cases liveFolder : l.isDir with
      | true => simp
      | false => simp [unlinked]
  | false =>
      cases liveFolder : l.isDir with
      | true =>
          have unlinked : l.link = false := by
            cases link : l.link with
            | false => rfl
            | true => rw [liveFile link] at liveFolder; cases liveFolder
          simp [unlinked]
      | false =>
          by_cases same : s.size ≠ l.size ∨ s.mtime ≠ l.mtime
          · cases link : s.link with
            | true =>
                cases liveLink : l.link with
                | true => simp
                | false => simp
            | false =>
                cases liveLink : l.link with
                | true => simp
                | false => simp [same]
          · cases link : s.link with
            | true =>
                cases liveLink : l.link with
                | true => simp
                | false => simp
            | false =>
                cases liveLink : l.link with
                | true => simp
                | false => simp [same]

theorem absent_cons (unreadable : List Path) (live : List IndexEntry) (l e : IndexEntry)
    (other : l.path ≠ e.path) : Absent unreadable (l :: live) e ↔ Absent unreadable live e := by
  simp [Absent, other]

theorem absent_here (unreadable : List Path) (live : List IndexEntry) (l e : IndexEntry)
    (same : l.path = e.path) (alone : ∀ other ∈ live, other.path ≠ e.path) :
    Absent unreadable (l :: live) e ↔ e.isDir = false ∧ l.isDir = true := by
  have none_ : ¬ ∃ other ∈ live, other.path = e.path ∧ other.isDir = true := by
    rintro ⟨other, member, here, _⟩
    exact alone other member here
  simp [Absent, same, none_]

theorem fresh_cons (snap : List IndexEntry) (s e : IndexEntry) (other : s.path ≠ e.path) :
    Fresh (s :: snap) e ↔ Fresh snap e := by
  simp [Fresh, other]

theorem fresh_here (snap : List IndexEntry) (s e : IndexEntry) (same : s.path = e.path)
    (alone : ∀ other ∈ snap, other.path ≠ e.path) :
    Fresh (s :: snap) e ↔ e.isDir = false ∧ s.isDir = true := by
  have rest : ∀ other ∈ snap, other.path = e.path → other.isDir = true :=
    fun other member here => absurd here (alone other member)
  simp only [Fresh, List.forall_mem_cons]
  exact ⟨fun listed => ⟨listed.1, listed.2.1 same⟩, fun listed => ⟨listed.1, fun _ => listed.2, rest⟩⟩

/-- Entries as the walks make them. -/
def Plain (index : List IndexEntry) : Prop := ∀ e ∈ index, e.link = true → e.isDir = false

theorem compareLoop_compared (unreadable : List Path) (snap live : List IndexEntry)
    (r : CompareResult) (snapOrder : Ordered snap) (liveOrder : Ordered live)
    (snapPlain : Plain snap) (livePlain : Plain live) :
    Compared unreadable snap live r (compareLoop unreadable snap live r) := by
  induction snap, live, r using compareLoop.induct unreadable with
  | case1 r =>
      rw [compareLoop]
      exact ⟨by simp, by simp, by simp⟩
  | case2 s snap r ih =>
      rw [compareLoop]
      obtain ⟨missing, changed, new⟩ := ih (ordered_head snapOrder).2 liveOrder
        (fun e member => snapPlain e (List.mem_cons_of_mem _ member)) livePlain
      obtain ⟨sameChanged, sameNew⟩ := onlySnap_others r unreadable s
      constructor
      · intro e
        rw [missing, onlySnap_missing]
        simp only [Absent, List.mem_cons]
        grind
      · intro c
        rw [changed, sameChanged]
        simp
      · intro e
        rw [new, sameNew]
        simp
  | case3 l live r ih =>
      rw [compareLoop]
      obtain ⟨missing, changed, new⟩ := ih snapOrder (ordered_head liveOrder).2 snapPlain
        (fun e member => livePlain e (List.mem_cons_of_mem _ member))
      obtain ⟨sameChanged, sameMissing⟩ := onlyLive_others r l
      constructor
      · intro e
        rw [missing, sameMissing]
        simp
      · intro c
        rw [changed, sameChanged]
        simp
      · intro e
        rw [new, onlyLive_new]
        simp only [Fresh, List.mem_cons]
        grind
  | case4 s snap l live r earlier ih =>
      rw [compareLoop, if_pos earlier]
      obtain ⟨missing, changed, new⟩ := ih (ordered_head snapOrder).2 liveOrder
        (fun e member => snapPlain e (List.mem_cons_of_mem _ member)) livePlain
      obtain ⟨sameChanged, sameNew⟩ := onlySnap_others r unreadable s
      have alone : ∀ e ∈ l :: live, e.path ≠ s.path := by
        intro e member
        rcases List.mem_cons.mp member with rfl | later
        · exact ne_of_gt earlier
        · exact ne_of_gt (earlier.trans ((ordered_head liveOrder).1 e later))
      constructor
      · intro e
        rw [missing, onlySnap_missing]
        simp only [Absent]
        grind
      · intro c
        rw [changed, sameChanged]
        grind
      · intro e
        rw [new, sameNew]
        simp only [Fresh]
        grind
  | case5 s snap l live r notEarlier later ih =>
      rw [compareLoop, if_neg notEarlier, if_pos later]
      obtain ⟨missing, changed, new⟩ := ih snapOrder (ordered_head liveOrder).2 snapPlain
        (fun e member => livePlain e (List.mem_cons_of_mem _ member))
      obtain ⟨sameChanged, sameMissing⟩ := onlyLive_others r l
      have alone : ∀ e ∈ s :: snap, e.path ≠ l.path := by
        intro e member
        rcases List.mem_cons.mp member with rfl | after
        · exact ne_of_gt later
        · exact ne_of_gt (later.trans ((ordered_head snapOrder).1 e after))
      constructor
      · intro e
        rw [missing, sameMissing]
        simp only [Absent]
        grind
      · intro c
        rw [changed, sameChanged]
        grind
      · intro e
        rw [new, onlyLive_new]
        simp only [Fresh]
        grind
  | case6 s snap l live r notEarlier notLater ih =>
      rw [compareLoop, if_neg notEarlier, if_neg notLater]
      have same : s.path = l.path := le_antisymm (not_lt.mp notLater) (not_lt.mp notEarlier)
      obtain ⟨missing, changed, new⟩ := ih (ordered_head snapOrder).2 (ordered_head liveOrder).2
        (fun e member => snapPlain e (List.mem_cons_of_mem _ member))
        (fun e member => livePlain e (List.mem_cons_of_mem _ member))
      obtain ⟨ownMissing, ownChanged, ownNew⟩ := both_lists r s l
        (snapPlain s List.mem_cons_self) (livePlain l List.mem_cons_self)
      have snapAlone : ∀ e ∈ snap, e.path ≠ s.path :=
        fun e member => ne_of_gt ((ordered_head snapOrder).1 e member)
      have liveAlone : ∀ e ∈ live, e.path ≠ s.path :=
        fun e member => same ▸ ne_of_gt ((ordered_head liveOrder).1 e member)
      constructor
      · intro e
        rw [missing, ownMissing]
        by_cases here : e = s
        · subst here
          rw [absent_here unreadable live l e same.symm liveAlone]
          have gone : e ∉ snap := fun member => snapAlone e member rfl
          simp [gone]
        · have skip : e ∈ snap → (Absent unreadable (l :: live) e ↔ Absent unreadable live e) :=
            fun member => absent_cons _ _ _ _ (same ▸ (snapAlone e member).symm)
          simp only [here, false_and, or_false, List.mem_cons, false_or]
          exact or_congr_right (and_congr_right fun member => (skip member).symm)
      · intro c
        rw [changed, ownChanged]
        constructor
        · rintro ((old | ⟨rfl, differs⟩) | ⟨inSnap, inLive, equal, differs⟩)
          · exact Or.inl old
          · exact Or.inr ⟨List.mem_cons_self, List.mem_cons_self, same, differs⟩
          · exact Or.inr ⟨List.mem_cons_of_mem _ inSnap, List.mem_cons_of_mem _ inLive, equal, differs⟩
        · rintro (old | ⟨inSnap, inLive, equal, differs⟩)
          · exact Or.inl (Or.inl old)
          · rcases List.mem_cons.mp inSnap with first | after
            · rcases List.mem_cons.mp inLive with second | later
              · left
                right
                rw [first, second] at differs
                exact ⟨by rw [← first, ← second], differs⟩
              · exact absurd (equal.symm.trans (by rw [first])) (liveAlone c.live later)
            · rcases List.mem_cons.mp inLive with second | later
              · exact absurd (equal.trans (by rw [second, same])) (snapAlone c.snap after)
              · exact Or.inr ⟨after, later, equal, differs⟩
      · intro e
        rw [new, ownNew]
        by_cases here : e = l
        · subst here
          rw [fresh_here snap s e same (fun other member => same ▸ snapAlone other member)]
          have gone : e ∉ live := fun member => liveAlone e member same.symm
          simp [gone]
        · have skip : e ∈ live → (Fresh (s :: snap) e ↔ Fresh snap e) :=
            fun member => fresh_cons _ _ _ (liveAlone e member).symm
          simp only [here, false_and, or_false, List.mem_cons, false_or]
          exact or_congr_right (and_congr_right fun member => (skip member).symm)

/-! The indexes of two trees. -/

theorem sortIndex_ordered (entries : List IndexEntry) (distinct : (entries.map (·.path)).Nodup) :
    Ordered (sortIndex entries) := by
  have sorted : (sortIndex entries).Pairwise fun a b => a.path ≤ b.path := by
    have total : Std.Total fun a b : IndexEntry => a.path ≤ b.path := ⟨fun a b => le_total _ _⟩
    have trans : IsTrans IndexEntry fun a b => a.path ≤ b.path := ⟨fun _ _ _ => le_trans⟩
    exact List.pairwise_insertionSort _ entries
  have nodup : ((sortIndex entries).map (·.path)).Nodup :=
    ((List.perm_insertionSort _ entries).map _).nodup_iff.mpr distinct
  have apart : (sortIndex entries).Pairwise fun a b => a.path ≠ b.path := by
    simpa [List.Nodup, List.pairwise_map] using nodup
  exact (sorted.and apart).imp fun both => lt_of_le_of_ne both.1 both.2

theorem paths_nodup (t : FileSystem) : t.paths.Nodup := (List.nodup_dedup _).filter _

theorem paths_complete (t : FileSystem) (p : Path) (named : p ≠ []) (present : t.lstat p ≠ none) :
    p ∈ t.paths := by
  obtain ⟨node, found⟩ := Option.ne_none_iff_exists'.mp present
  simp only [Tree.lstat, find, if_neg named] at found
  obtain ⟨before, after, split, _⟩ := List.lookup_eq_some_iff.mp found
  have entry : (p, node) ∈ t.entries := by simp [split]
  have listed : p ∈ t.entries.map Prod.fst := List.mem_map.mpr ⟨_, entry, rfl⟩
  simpa [Tree.paths, named] using listed

theorem pathsUnder_nodup (t : FileSystem) (dir : Path) : (pathsUnder t dir).Nodup := by
  refine ((paths_nodup t).filter _).map_on ?_
  intro p first q second same
  obtain ⟨_, ⟨rest, rfl⟩, _⟩ : p ∈ t.paths ∧ dir <+: p ∧ p ≠ dir := by simpa using first
  obtain ⟨_, ⟨other, rfl⟩, _⟩ : q ∈ t.paths ∧ dir <+: q ∧ q ≠ dir := by simpa using second
  rw [List.drop_left, List.drop_left] at same
  rw [same]

theorem pathsUnder_complete (t : FileSystem) (dir rel : Path) (named : rel ≠ [])
    (present : t.lstat (dir ++ rel) ≠ none) : rel ∈ pathsUnder t dir := by
  refine List.mem_map.mpr ⟨dir ++ rel, ?_, List.drop_left⟩
  have listed := paths_complete t (dir ++ rel) (by simp [named]) present
  simpa [named] using listed

theorem named_nodup (entry : Path → Option IndexEntry) (paths : List Path)
    (own : ∀ p e, entry p = some e → e.path = p) (distinct : paths.Nodup) :
    ((paths.filterMap entry).map (·.path)).Nodup := by
  have fewer : ((paths.filterMap entry).map (·.path)).Sublist paths := by
    induction paths with
    | nil => simp
    | cons p paths ih =>
        have rest := ih (List.nodup_cons.mp distinct).2
        cases made : entry p with
        | none => simpa [made] using rest.cons p
        | some e => simpa [made, own p e made] using rest.cons_cons p
  exact fewer.nodup distinct

theorem indexEntry_plain (rel : Path) (node : FileNode) :
    (indexEntry rel node).link = true → (indexEntry rel node).isDir = false := by
  cases node with
  | file content => simp [indexEntry]
  | link target resolves => simp [indexEntry]
  | dir => simp [indexEntry]

theorem snapshotIndex_ordered (snapshot : FileSystem) : Ordered (snapshotIndex snapshot) := by
  refine sortIndex_ordered _ (named_nodup _ _ ?_ (paths_nodup snapshot))
  intro p e made
  obtain ⟨node, _, rfl⟩ := Option.map_eq_some_iff.mp made
  exact indexEntry_path p node

theorem mem_snapshotIndex_iff (snapshot : FileSystem) (e : IndexEntry) :
    e ∈ snapshotIndex snapshot ↔
      e.path ≠ [] ∧ ∃ node, snapshot.lstat e.path = some node ∧ e = indexEntry e.path node := by
  unfold snapshotIndex sortIndex
  rw [List.mem_insertionSort, List.mem_filterMap]
  constructor
  · rintro ⟨p, listed, made⟩
    obtain ⟨node, found, rfl⟩ := Option.map_eq_some_iff.mp made
    rw [indexEntry_path]
    exact ⟨(snapshot.mem_paths p listed).1, node, found, rfl⟩
  · rintro ⟨named, node, found, same⟩
    refine ⟨e.path, paths_complete snapshot _ named (by simp [found]), ?_⟩
    rw [found, Option.map_some, ← same]

theorem walkLiveFolder_ordered (walker : Walker) (t : FileSystem) (dir : Path) :
    Ordered (walkLiveFolder walker t dir).entries := by
  refine sortIndex_ordered _ (named_nodup _ _ ?_ ((pathsUnder_nodup t dir).filter _))
  intro p e made
  obtain ⟨node, _, rfl⟩ := liveEntry_spec walker t dir p e made
  exact indexEntry_path p node

theorem mem_walkLiveFolder_iff (walker : Walker) (t : FileSystem) (dir : Path) (e : IndexEntry) :
    e ∈ (walkLiveFolder walker t dir).entries ↔
      e.path ≠ [] ∧ walker.reaches e.path = true ∧ liveEntry walker t dir e.path = some e := by
  unfold walkLiveFolder sortIndex
  rw [List.mem_insertionSort, List.mem_filterMap]
  constructor
  · rintro ⟨p, listed, made⟩
    obtain ⟨under, reached⟩ := List.mem_filter.mp listed
    have named := (mem_pathsUnder t dir p under).1
    obtain ⟨node, found, rfl⟩ := liveEntry_spec walker t dir p e made
    rw [indexEntry_path]
    exact ⟨named, reached, made⟩
  · rintro ⟨named, reached, made⟩
    obtain ⟨node, found, _⟩ := liveEntry_spec walker t dir _ e made
    refine ⟨e.path, List.mem_filter.mpr ⟨?_, reached⟩, made⟩
    exact pathsUnder_complete t dir _ named (by simp [found])

theorem snapshotIndex_plain (snapshot : FileSystem) : Plain (snapshotIndex snapshot) := by
  intro e member
  obtain ⟨_, node, _, same⟩ := (mem_snapshotIndex_iff snapshot e).mp member
  rw [same]
  exact indexEntry_plain _ _

theorem walkLiveFolder_plain (walker : Walker) (t : FileSystem) (dir : Path) :
    Plain (walkLiveFolder walker t dir).entries := by
  intro e member
  obtain ⟨_, _, made⟩ := (mem_walkLiveFolder_iff walker t dir e).mp member
  obtain ⟨node, _, same⟩ := liveEntry_spec walker t dir _ e made
  rw [same]
  exact indexEntry_plain _ _

theorem compareIndexes_compared (snapshot : FileSystem) (walker : Walker) (t : FileSystem)
    (dir : Path) :
    Compared (walkLiveFolder walker t dir).unreadable (snapshotIndex snapshot)
      (walkLiveFolder walker t dir).entries {}
      (compareIndexes (snapshotIndex snapshot) (walkLiveFolder walker t dir)) :=
  compareLoop_compared _ _ _ _ (snapshotIndex_ordered snapshot) (walkLiveFolder_ordered walker t dir)
    (snapshotIndex_plain snapshot) (walkLiveFolder_plain walker t dir)

end ProxmoxBackup.CompareExact
