import Mathlib.Data.List.Basic
import Mathlib.Data.List.Infix
import Mathlib.Data.List.Dedup

/-! A file system as a finite map from paths to nodes in which every node has
its folder: the operations a program calls on it, each with what it does at
every path and when it succeeds. A path is its list of names; a link is a leaf,
so no path leads through one. `rename` is of files and links only. -/

namespace ProxmoxBackup.FileTree

inductive Node (Name Content : Type) where
  | file (content : Content)
  | link (target : List Name) (resolves : Bool)
  | dir

variable {Name Content : Type}

instance (found : Option (Node Name Content)) : Decidable (found = some .dir) :=
  match found with
  | some .dir => isTrue rfl
  | none => isFalse (by simp)
  | some (.file _) => isFalse (by simp)
  | some (.link _ _) => isFalse (by simp)

variable [DecidableEq Name]

def find (entries : List (List Name × Node Name Content)) (p : List Name) :
    Option (Node Name Content) :=
  if p = [] then some .dir else entries.lookup p

structure Tree (Name Content : Type) [DecidableEq Name] where
  entries : List (List Name × Node Name Content)
  rooted : ∀ p name, find entries (p ++ [name]) ≠ none → find entries p = some .dir

namespace Tree

def lstat (t : Tree Name Content) (p : List Name) : Option (Node Name Content) :=
  find t.entries p

/-- A link that leads nowhere is not there for stat. -/
def stat (t : Tree Name Content) (p : List Name) : Option (Node Name Content) :=
  match t.lstat p with
  | some (.link _ false) => none
  | other => other

def paths (t : Tree Name Content) : List (List Name) :=
  (t.entries.map Prod.fst).dedup.filter (· ≠ [])

def occupied (t : Tree Name Content) (p : List Name) : Bool :=
  t.entries.any fun e => p.isPrefixOf e.1 && e.1 ≠ p

/-- `q` lies strictly below `p`. -/
def Below (p q : List Name) : Prop := p <+: q ∧ p ≠ q

@[simp] theorem lstat_root (t : Tree Name Content) : t.lstat [] = some .dir := by
  simp [lstat, find]

theorem lstat_parent (t : Tree Name Content) (p : List Name) (name : Name)
    (present : t.lstat (p ++ [name]) ≠ none) : t.lstat p = some .dir :=
  t.rooted p name present

theorem lstat_above (t : Tree Name Content) (p q : List Name)
    (below : Below p q) (present : t.lstat q ≠ none) : t.lstat p = some .dir := by
  obtain ⟨⟨rest, rfl⟩, different⟩ := below
  induction rest using List.reverseRecOn with
  | nil => simp at different
  | append_singleton rest name ih =>
      have parent := t.lstat_parent (p ++ rest) name (by simpa using present)
      cases rest with
      | nil => simpa using parent
      | cons first more => exact ih (by simp [parent]) (by simp)

theorem lstat_below (t : Tree Name Content) (p q : List Name)
    (below : Below p q) (closed : t.lstat p ≠ some .dir) : t.lstat q = none := by
  by_contra present
  exact closed (t.lstat_above p q below present)

theorem stat_eq_none_iff (t : Tree Name Content) (p : List Name) :
    t.stat p = none ↔ t.lstat p = none ∨ ∃ target, t.lstat p = some (.link target false) := by
  unfold stat
  split
  · next target found => simp [found]
  · next found =>
      constructor
      · exact Or.inl
      · rintro (absent | ⟨target, link⟩)
        · exact absent
        · exact absurd link (found target)

theorem lstat_of_stat (t : Tree Name Content) (p : List Name)
    (absent : t.lstat p = none) : t.stat p = none :=
  (t.stat_eq_none_iff p).mpr (Or.inl absent)

theorem occupied_iff (t : Tree Name Content) (p : List Name) :
    t.occupied p = true ↔ ∃ q, Below p q ∧ t.lstat q ≠ none := by
  unfold occupied
  rw [List.any_eq_true]
  constructor
  · rintro ⟨⟨q, node⟩, member, holds⟩
    obtain ⟨within, different⟩ : p <+: q ∧ q ≠ p := by simpa using holds
    refine ⟨q, ⟨within, different.symm⟩, ?_⟩
    have nonempty : q ≠ [] := by
      rintro rfl
      exact different (List.prefix_nil.mp within).symm
    simp only [lstat, find, if_neg nonempty]
    intro absent
    simpa using List.lookup_eq_none_iff.mp absent (q, node) member
  · rintro ⟨q, ⟨within, different⟩, present⟩
    have nonempty : q ≠ [] := by
      rintro rfl
      exact different (List.prefix_nil.mp within)
    simp only [lstat, find, if_neg nonempty] at present
    obtain ⟨node, found⟩ := Option.ne_none_iff_exists'.mp present
    obtain ⟨before, after, split, _⟩ := List.lookup_eq_some_iff.mp found
    exact ⟨(q, node), by simp [split], by simpa using ⟨within, different.symm⟩⟩

theorem mem_paths (t : Tree Name Content) (p : List Name) (member : p ∈ t.paths) :
    p ≠ [] ∧ t.lstat p ≠ none := by
  obtain ⟨listed, nonempty⟩ : p ∈ (t.entries.map Prod.fst).dedup ∧ p ≠ [] := by
    simpa [paths] using member
  refine ⟨nonempty, ?_⟩
  obtain ⟨⟨q, node⟩, entry, rfl⟩ := List.mem_map.mp (List.mem_dedup.mp listed)
  simp only [lstat, find, if_neg nonempty]
  intro absent
  simpa using List.lookup_eq_none_iff.mp absent (q, node) entry

end Tree

/-! Writing one node and erasing one. -/

theorem find_cons (entries : List (List Name × Node Name Content)) (p q : List Name)
    (node : Node Name Content) (named : p ≠ []) :
    find ((p, node) :: entries) q = if q = p then some node else find entries q := by
  by_cases same : q = p
  · subst same
    simp [find, named]
  · by_cases root : q = []
    · simp [find, root, Ne.symm named]
    · have other : (q == p) = false := by simpa using same
      simp [find, root, same, List.lookup_cons, other]

theorem find_filter (entries : List (List Name × Node Name Content)) (p q : List Name)
    (named : p ≠ []) :
    find (entries.filter fun e => e.1 ≠ p) q = if q = p then none else find entries q := by
  by_cases root : q = []
  · simp [find, root, Ne.symm named]
  · simp only [find, if_neg root]
    induction entries with
    | nil => simp
    | cons entry rest ih =>
        obtain ⟨at_, node⟩ := entry
        by_cases erased : at_ = p
        · subst erased
          by_cases same : q = at_
          · simpa [same] using ih
          · have other : (q == at_) = false := by simpa using same
            simpa [same, List.lookup_cons, other] using ih
        · by_cases here : q = at_
          · subst here
            simp [erased]
          · have other : (q == at_) = false := by simpa using here
            simpa [erased, List.lookup_cons, other] using ih

namespace Tree

def put (t : Tree Name Content) (p : List Name) (node : Node Name Content)
    (named : p ≠ []) (within : t.lstat p.dropLast = some .dir) (free : t.lstat p ≠ some .dir) :
    Tree Name Content where
  entries := (p, node) :: t.entries
  rooted := by
    intro q name present
    rw [find_cons _ _ _ _ named] at present ⊢
    by_cases here : q ++ [name] = p
    · have parent : q = p.dropLast := by simp [← here]
      have different : q ≠ p := by
        intro same
        have := congrArg List.length (here.trans same.symm)
        simp at this
      rw [if_neg different, parent]
      exact within
    · rw [if_neg here] at present
      have parent := t.rooted q name present
      have different : q ≠ p := by
        rintro rfl
        exact free parent
      rw [if_neg different]
      exact parent

def drop (t : Tree Name Content) (p : List Name) (named : p ≠ [])
    (empty : t.occupied p = false) : Tree Name Content where
  entries := t.entries.filter fun e => e.1 ≠ p
  rooted := by
    intro q name present
    rw [find_filter _ _ _ named] at present ⊢
    by_cases here : q ++ [name] = p
    · simp [here] at present
    · rw [if_neg here] at present
      have different : q ≠ p := by
        rintro rfl
        have held := (t.occupied_iff q).mpr ⟨q ++ [name], ⟨by simp, by simp⟩, present⟩
        simp [held] at empty
      rw [if_neg different]
      exact t.rooted q name present

@[simp] theorem lstat_put (t : Tree Name Content) (p q : List Name) (node named within free) :
    (t.put p node named within free).lstat q = if q = p then some node else t.lstat q :=
  find_cons t.entries p q node named

@[simp] theorem lstat_drop (t : Tree Name Content) (p q : List Name) (named empty) :
    (t.drop p named empty).lstat q = if q = p then none else t.lstat q :=
  find_filter t.entries p q named

/-! The operations. -/

def mkdir (t : Tree Name Content) (p : List Name) : Option (Tree Name Content) :=
  if holds : p ≠ [] ∧ t.lstat p.dropLast = some .dir ∧ t.lstat p = none then
    some (t.put p .dir holds.1 holds.2.1 (by simp [holds.2.2]))
  else none

/-- A file or link made at `p`, or put in the place of the one there. -/
def write (t : Tree Name Content) (p : List Name) (node : Node Name Content) :
    Option (Tree Name Content) :=
  if holds : p ≠ [] ∧ t.lstat p.dropLast = some .dir ∧ t.lstat p ≠ some .dir then
    some (t.put p node holds.1 holds.2.1 holds.2.2)
  else none

def remove (t : Tree Name Content) (p : List Name) : Option (Tree Name Content) :=
  if holds : p ≠ [] ∧ t.occupied p = false then
    match t.lstat p with
    | some _ => some (t.drop p holds.1 holds.2)
    | none => none
  else none

def rename (t : Tree Name Content) (source target : List Name) : Option (Tree Name Content) :=
  match t.lstat source with
  | none | some .dir => none
  | some node => (t.remove source).bind fun rest => rest.write target node

def mkdirFrom (t : Tree Name Content) (base : List Name) : List Name → Option (Tree Name Content)
  | [] => some t
  | name :: rest =>
      match t.lstat (base ++ [name]) with
      | some .dir => mkdirFrom t (base ++ [name]) rest
      | some _ => none
      | none => (t.mkdir (base ++ [name])).bind fun made => mkdirFrom made (base ++ [name]) rest

def mkdirAll (t : Tree Name Content) (p : List Name) : Option (Tree Name Content) :=
  t.mkdirFrom [] p

def empty : Tree Name Content where
  entries := []
  rooted := by simp [find]

/-- The tree of a list of nodes, each after its folder. -/
def build (nodes : List (List Name × Node Name Content)) : Tree Name Content :=
  nodes.foldl
    (fun t entry =>
      (match entry.2 with
        | .dir => t.mkdir entry.1
        | node => t.write entry.1 node).getD t)
    empty

/-! What each operation does at every path, and when it succeeds. -/

theorem lstat_write (t after : Tree Name Content) (p : List Name) (node : Node Name Content)
    (written : t.write p node = some after) (q : List Name) :
    after.lstat q = if q = p then some node else t.lstat q := by
  unfold write at written
  split at written
  · rw [Option.some.injEq] at written
    rw [← written, lstat_put]
  · cases written

theorem write_room (t after : Tree Name Content) (p : List Name) (node : Node Name Content)
    (written : t.write p node = some after) :
    p ≠ [] ∧ t.lstat p.dropLast = some .dir ∧ t.lstat p ≠ some .dir := by
  unfold write at written
  split at written
  · next holds => exact holds
  · cases written

theorem write_succeeds (t : Tree Name Content) (p : List Name) (node : Node Name Content)
    (named : p ≠ []) (within : t.lstat p.dropLast = some .dir) (free : t.lstat p ≠ some .dir) :
    ∃ after, t.write p node = some after := by
  unfold write
  rw [dif_pos ⟨named, within, free⟩]
  exact ⟨_, rfl⟩

theorem lstat_remove (t after : Tree Name Content) (p : List Name)
    (removed : t.remove p = some after) (q : List Name) :
    after.lstat q = if q = p then none else t.lstat q := by
  unfold remove at removed
  split at removed
  · split at removed
    · rw [Option.some.injEq] at removed
      rw [← removed, lstat_drop]
    · cases removed
  · cases removed

theorem remove_empty (t after : Tree Name Content) (p : List Name)
    (removed : t.remove p = some after) :
    t.lstat p ≠ none ∧ ∀ q, Below p q → t.lstat q = none := by
  unfold remove at removed
  split at removed
  · next holds =>
      split at removed
      · next node found =>
          refine ⟨by simp [found], ?_⟩
          intro q below
          by_contra present
          have held := (t.occupied_iff p).mpr ⟨q, below, present⟩
          simp [held] at holds
      · cases removed
  · cases removed

theorem remove_succeeds (t : Tree Name Content) (p : List Name) (named : p ≠ [])
    (present : t.lstat p ≠ none) (empty : ∀ q, Below p q → t.lstat q = none) :
    ∃ after, t.remove p = some after := by
  have vacant : t.occupied p = false := by
    by_contra held
    obtain ⟨q, below, there⟩ := (t.occupied_iff p).mp (by simpa using held)
    exact there (empty q below)
  obtain ⟨node, found⟩ := Option.ne_none_iff_exists'.mp present
  unfold remove
  rw [dif_pos ⟨named, vacant⟩, found]
  exact ⟨_, rfl⟩

theorem lstat_rename (t after : Tree Name Content) (source target : List Name)
    (renamed : t.rename source target = some after) :
    ∃ node, node ≠ .dir ∧ t.lstat source = some node ∧
      ∀ q, after.lstat q =
        if q = target then some node else if q = source then none else t.lstat q := by
  unfold rename at renamed
  split at renamed
  · cases renamed
  · cases renamed
  · next node leaf found =>
      obtain ⟨rest, removed, written⟩ := Option.bind_eq_some_iff.mp renamed
      refine ⟨node, leaf, found, ?_⟩
      intro q
      rw [lstat_write _ _ _ _ written, lstat_remove _ _ _ removed]

theorem rename_room (t after : Tree Name Content) (source target : List Name)
    (renamed : t.rename source target = some after) :
    t.lstat target.dropLast = some .dir ∧ t.lstat target ≠ some .dir := by
  unfold rename at renamed
  split at renamed
  · cases renamed
  · cases renamed
  · next node leaf found =>
      obtain ⟨rest, removed, written⟩ := Option.bind_eq_some_iff.mp renamed
      obtain ⟨_, within, free⟩ := write_room _ _ _ _ written
      rw [lstat_remove _ _ _ removed] at within free
      refine ⟨?_, ?_⟩
      · split at within
        · cases within
        · exact within
      · split at free
        · next same =>
            rw [same, found]
            simpa using leaf
        · exact free

theorem rename_succeeds (t : Tree Name Content) (source target : List Name)
    (node : Node Name Content) (found : t.lstat source = some node) (leaf : node ≠ .dir)
    (named : target ≠ []) (within : t.lstat target.dropLast = some .dir)
    (free : t.lstat target ≠ some .dir) : ∃ after, t.rename source target = some after := by
  have sourceNamed : source ≠ [] := by
    rintro rfl
    rw [lstat_root, Option.some.injEq] at found
    exact leaf found.symm
  obtain ⟨rest, removed⟩ := t.remove_succeeds source sourceNamed (by simp [found])
    (fun q below => t.lstat_below source q below (by simpa [found] using leaf))
  have other : target.dropLast ≠ source := by
    intro same
    rw [same, found, Option.some.injEq] at within
    exact leaf within
  obtain ⟨after, written⟩ := rest.write_succeeds target node named
    (by rw [lstat_remove _ _ _ removed, if_neg other, within])
    (by
      rw [lstat_remove _ _ _ removed]
      split
      · simp
      · exact free)
  refine ⟨after, ?_⟩
  unfold rename
  rw [found]
  cases node with
  | dir => exact absurd rfl leaf
  | file content => simpa [removed] using written
  | link target resolves => simpa [removed] using written

theorem lstat_mkdirFrom (base rest : List Name) (t after : Tree Name Content)
    (made : t.mkdirFrom base rest = some after) (standing : t.lstat base = some .dir) :
    ∀ q, (after.lstat q = t.lstat q ∨
        t.lstat q = none ∧ after.lstat q = some .dir ∧ Below base q ∧ q <+: base ++ rest) ∧
      (base <+: q → q <+: base ++ rest → after.lstat q = some .dir) := by
  induction rest generalizing base t with
  | nil =>
      rw [mkdirFrom, Option.some.injEq] at made
      subst made
      intro q
      refine ⟨Or.inl rfl, ?_⟩
      intro above within
      rw [List.append_nil] at within
      rw [← above.eq_of_length_le (within.length_le)]
      exact standing
  | cons name rest ih =>
      have step : base ++ name :: rest = base ++ [name] ++ rest := by simp
      have longer : Below base (base ++ [name]) := ⟨by simp, by simp⟩
      have later : ∀ q, Below (base ++ [name]) q → Below base q := by
        rintro q ⟨above, different⟩
        refine ⟨longer.1.trans above, ?_⟩
        rintro rfl
        have shorter := above.length_le
        rw [List.length_append, List.length_singleton] at shorter
        omega
      have next : ∀ q, base <+: q → base = q ∨ ¬ q <+: base ++ [name] ++ rest ∨ base ++ [name] <+: q := by
        rintro q ⟨more, rfl⟩
        cases more with
        | nil => simp
        | cons first more =>
            right
            by_cases same : first = name
            · right; simp [same]
            · left
              intro within
              rw [List.append_assoc, List.prefix_append_right_inj] at within
              simp [List.cons_prefix_cons, same] at within
      rw [mkdirFrom] at made
      split at made
      · next there =>
          intro q
          obtain ⟨same, whole⟩ := ih _ _ made there q
          rw [step]
          refine ⟨?_, ?_⟩
          · rcases same with kept | ⟨absent, new, above, within⟩
            · exact Or.inl kept
            · exact Or.inr ⟨absent, new, later q above, within⟩
          · intro above within
            rcases next q above with rfl | outside | inside
            · rcases same with kept | ⟨absent, new, _⟩
              · rw [kept, standing]
              · exact new
            · exact absurd within outside
            · exact whole inside within
      · cases made
      · next absentHere =>
          obtain ⟨first, madeFirst, madeRest⟩ := Option.bind_eq_some_iff.mp made
          have after_first : ∀ q, first.lstat q =
              if q = base ++ [name] then some .dir else t.lstat q := by
            unfold mkdir at madeFirst
            split at madeFirst
            · rw [Option.some.injEq] at madeFirst
              intro q
              rw [← madeFirst, lstat_put]
            · cases madeFirst
          intro q
          obtain ⟨same, whole⟩ := ih _ _ madeRest (by simp [after_first]) q
          rw [after_first] at same
          rw [step]
          refine ⟨?_, ?_⟩
          · by_cases here : q = base ++ [name]
            · subst here
              right
              refine ⟨absentHere, whole (List.prefix_refl _) (by simp), longer, by simp⟩
            · rw [if_neg here] at same
              rcases same with kept | ⟨absent, new, above, within⟩
              · exact Or.inl kept
              · exact Or.inr ⟨absent, new, later q above, within⟩
          · intro above within
            rcases next q above with rfl | outside | inside
            · have other : base ≠ base ++ [name] := longer.2
              rw [if_neg other] at same
              rcases same with kept | ⟨absent, new, _⟩
              · rw [kept, standing]
              · exact new
            · exact absurd within outside
            · exact whole inside within

/-- mkdirAll turns what is absent above `p` into folders and changes nothing else. -/
theorem lstat_mkdirAll (t after : Tree Name Content) (p : List Name)
    (made : t.mkdirAll p = some after) (q : List Name) :
    after.lstat q = t.lstat q ∨
      t.lstat q = none ∧ after.lstat q = some .dir ∧ q <+: p := by
  rcases (lstat_mkdirFrom [] p t after made t.lstat_root q).1 with same | ⟨absent, new, _, within⟩
  · exact Or.inl same
  · exact Or.inr ⟨absent, new, by simpa using within⟩

theorem mkdirAll_dir (t after : Tree Name Content) (p q : List Name)
    (made : t.mkdirAll p = some after) (above : q <+: p) : after.lstat q = some .dir :=
  (lstat_mkdirFrom [] p t after made t.lstat_root q).2 (by simp) (by simpa using above)

theorem mkdirFrom_succeeds (base rest : List Name) (t : Tree Name Content)
    (standing : t.lstat base = some .dir)
    (clear : ∀ q, Below base q → q <+: base ++ rest →
      t.lstat q = none ∨ t.lstat q = some .dir) :
    ∃ after, t.mkdirFrom base rest = some after := by
  induction rest generalizing base t with
  | nil => exact ⟨t, rfl⟩
  | cons name rest ih =>
      have longer : Below base (base ++ [name]) := ⟨by simp, by simp⟩
      have further : ∀ q, Below (base ++ [name]) q → q <+: base ++ [name] ++ rest →
          t.lstat q = none ∨ t.lstat q = some .dir := by
        rintro q ⟨above, different⟩ within
        refine clear q ⟨longer.1.trans above, ?_⟩ (by simpa using within)
        rintro rfl
        have shorter := above.length_le
        rw [List.length_append, List.length_singleton] at shorter
        omega
      rw [mkdirFrom]
      split
      · next there => exact ih _ _ there further
      · next node other found =>
          rcases clear _ longer (by simp) with absent | there
          · rw [absent] at found
            cases found
          · rw [there, Option.some.injEq] at found
            exact absurd found.symm other
      · next absent =>
          have room : base ++ [name] ≠ [] ∧
              t.lstat (base ++ [name]).dropLast = some .dir ∧ t.lstat (base ++ [name]) = none :=
            ⟨by simp, by simpa using standing, absent⟩
          simp only [mkdir, dif_pos room, Option.bind_some]
          refine ih _ _ (by simp) ?_
          intro q above within
          rw [lstat_put, if_neg (Ne.symm above.2)]
          exact further q above within

theorem mkdirAll_succeeds (t : Tree Name Content) (p : List Name)
    (clear : ∀ q, q <+: p → t.lstat q = none ∨ t.lstat q = some .dir) :
    ∃ after, t.mkdirAll p = some after :=
  mkdirFrom_succeeds [] p t t.lstat_root fun q _ within => clear q (by simpa using within)

/-- `after` is `t` with some of the folders above or at `p` made. -/
def Grows (t after : Tree Name Content) (p : List Name) : Prop :=
  ∀ q, after.lstat q = t.lstat q ∨ t.lstat q = none ∧ after.lstat q = some .dir ∧ q <+: p

theorem grows_refl (t : Tree Name Content) (p : List Name) : t.Grows t p :=
  fun _ => Or.inl rfl

theorem grows_mkdirAll (t after : Tree Name Content) (p above : List Name)
    (made : t.mkdirAll above = some after) (prefixed : above <+: p) : t.Grows after p := by
  intro q
  rcases t.lstat_mkdirAll after above made q with same | ⟨absent, new, within⟩
  · exact Or.inl same
  · exact Or.inr ⟨absent, new, within.trans prefixed⟩

theorem Grows.further {t after : Tree Name Content} {p longer : List Name}
    (grown : t.Grows after p) (within : p <+: longer) : t.Grows after longer := by
  intro q
  rcases grown q with same | ⟨absent, new, above⟩
  · exact Or.inl same
  · exact Or.inr ⟨absent, new, above.trans within⟩

theorem Grows.present {t after : Tree Name Content} {p : List Name} (grown : t.Grows after p)
    {q : List Name} {node : Node Name Content} (found : t.lstat q = some node) :
    after.lstat q = some node := by
  rcases grown q with same | ⟨absent, _⟩
  · rw [same, found]
  · rw [absent] at found
    cases found

theorem Grows.aside {t after : Tree Name Content} {p : List Name} (grown : t.Grows after p)
    {q : List Name} (outside : ¬ q <+: p) : after.lstat q = t.lstat q := by
  rcases grown q with same | ⟨_, _, within⟩
  · exact same
  · exact absurd within outside

end Tree

end ProxmoxBackup.FileTree
