import Mathlib.Data.List.Pairwise
import ProxmoxBackup.ParallelExtract

/-! What a span walk that fails leaves behind for the walk of the whole archive
after it: the list of results and the progress start again, the disk and the
links made from the archive do not. -/

namespace ProxmoxBackup.RestartExtract

open RestorePaths TransitionSystem ParallelExtract

variable {Content : Type}

/-! Folders on a way without links. -/

/-- Down to a path there are folders, or nothing. -/
def Clear (d : Disk Content) (p : Path) : Prop :=
  ∀ q, q <+: p → q ≠ [] → d q = none ∨ d q = some .dir

def grow (d : Disk Content) (p : Path) : Disk Content :=
  fun q => if q ≠ [] ∧ q <+: p ∧ (d q).isNone then some .dir else d q

theorem makeFrom_root (d after : Disk Content) (here : Path) (rest : List Text)
    (made : makeFrom d here rest = some after) : after [] = d [] := by
  induction rest generalizing d here with
  | nil =>
      cases made
      rfl
  | cons name rest ih =>
      rw [makeFrom] at made
      split at made
      · exact ih _ _ made
      · cases made
      · split at made
        · split at made
          · exact ih _ _ made
          · cases made
        · cases made
      · rw [ih _ _ made]
        exact if_neg (by simp)

theorem makeFrom_clear (d : Disk Content) (here : Path) (rest : List Text)
    (clear : ∀ front, front <+: rest → front ≠ [] →
      d (here ++ front) = none ∨ d (here ++ front) = some .dir) :
    ∃ after, makeFrom d here rest = some after := by
  induction rest generalizing d here with
  | nil => exact ⟨d, rfl⟩
  | cons name rest ih =>
      have later (front : Path) (within : front <+: rest) :
          d (here ++ [name] ++ front) = none ∨ d (here ++ [name] ++ front) = some .dir := by
        rw [List.append_assoc]
        exact clear (name :: front) (by simpa using within) (by simp)
      rw [makeFrom]
      rcases clear [name] (by simp) (by simp) with nothing | folder
      · rw [nothing]
        refine ih _ _ fun front within _ => ?_
        unfold setNode
        split
        · exact Or.inr rfl
        · exact later front within
      · rw [folder]
        exact ih _ _ fun front within _ => later front within

theorem Clear.unlinked {d : Disk Content} {p : Path} (clear : Clear d p) : Unlinked d p := by
  intro q within named target link
  rcases clear q within named with nothing | folder
  · rw [nothing] at link
    cases link
  · rw [folder] at link
    cases link

theorem mkdirAll_clear (d : Disk Content) (p : Path) (clear : Clear d p) :
    mkdirAll d p = some (grow d p) := by
  obtain ⟨after, made⟩ := makeFrom_clear d [] p fun front within named => clear front within named
  obtain ⟨changes, folders⟩ := mkdirAll_effect d after p clear.unlinked made
  have root := makeFrom_root d after [] p made
  -- what is made is told twice: nothing else changed, and all of it is there
  have grown : after = grow d p := by
    funext q
    unfold grow
    by_cases named : q = []
    · rw [if_neg (fun new => new.1 named), named, root]
    split
    · next new =>
        have folder := folders q new.2.1
        rwa [look, if_neg named] at folder
    · next old =>
        rcases changes q with same | ⟨nothing, -, within⟩
        · exact same
        · exact absurd ⟨named, within, by rw [nothing]; rfl⟩ old
  rw [← grown]
  exact made

theorem mkdirAll_blocked (d : Disk Content) (p : Path) (free : Unlinked d p)
    (blocked : ¬Clear d p) : mkdirAll d p = none := by
  cases made : mkdirAll d p with
  | none => rfl
  | some after =>
      obtain ⟨changes, folders⟩ := mkdirAll_effect d after p free made
      refine absurd (fun q within named => ?_) blocked
      rcases changes q with same | ⟨nothing, -, -⟩
      · have folder := folders q within
        rw [look, if_neg named, same] at folder
        exact Or.inr folder
      · exact Or.inl nothing

theorem grow_link {d : Disk Content} {p q target : Path} (link : grow d p q = some (.link target)) :
    d q = some (.link target) := by
  unfold grow at link
  split at link
  · cases link
  · exact link

theorem look_grow (d : Disk Content) (a p : Path) (aside : ¬p <+: a) :
    look (grow d a) p = look d p := by
  have same : grow d a p = d p := if_neg fun new => aside new.2.1
  rw [look, look, same]

theorem look_grow_parent (d : Disk Content) (p : Path) :
    look (grow d p.dropLast) p = look d p := by
  by_cases root : p = []
  · rw [look, look, if_pos root, if_pos root]
  · exact look_grow d _ p fun within => dropLast_proper within root rfl

theorem grow_ready (d : Disk Content) (p : Path) (clear : Clear d p.dropLast) :
    Ready (grow d p.dropLast) p := by
  intro q within proper
  obtain ⟨-, folders⟩ := mkdirAll_effect d _ _ clear.unlinked (mkdirAll_clear d _ clear)
  exact folders q (within_parent within proper)

theorem clear_grow (d : Disk Content) (a b : Path) : Clear (grow d a) b ↔ Clear d b := by
  refine forall_congr' fun q => forall_congr' fun within => forall_congr' fun named => ?_
  unfold grow
  split
  · next new =>
      have nothing := Option.isNone_iff_eq_none.mp new.2.2
      exact ⟨fun _ => Or.inl nothing, fun _ => Or.inr rfl⟩
  · exact Iff.rfl

theorem clear_set (d : Disk Content) (p b : Path) (node : Node Content) (aside : ¬p <+: b) :
    Clear (setNode d p node) b ↔ Clear d b := by
  refine forall_congr' fun q => forall_congr' fun within => forall_congr' fun named => ?_
  unfold setNode
  rw [if_neg]
  rintro rfl
  exact aside within

theorem grow_comm (d : Disk Content) (a b : Path) : grow (grow d a) b = grow (grow d b) a := by
  funext q
  unfold grow
  by_cases first : q ≠ [] ∧ q <+: a ∧ (d q).isNone
  · by_cases second : q ≠ [] ∧ q <+: b ∧ (d q).isNone
    · rw [if_pos first, if_pos second]
      simp
    · rw [if_pos first, if_neg second, if_pos first]
      simp
  · by_cases second : q ≠ [] ∧ q <+: b ∧ (d q).isNone
    · rw [if_neg first, if_pos second]
      simp
    · rw [if_neg first, if_neg second, if_neg first]

theorem grow_grow (d : Disk Content) (a : Path) : grow (grow d a) a = grow d a := by
  funext q
  unfold grow
  by_cases first : q ≠ [] ∧ q <+: a ∧ (d q).isNone
  · rw [if_pos first]
    simp
  · rw [if_neg first, if_neg first]

theorem grow_set (d : Disk Content) (a p : Path) (node : Node Content) (aside : ¬p <+: a) :
    grow (setNode d p node) a = setNode (grow d a) p node := by
  funext q
  unfold grow setNode
  by_cases here : q = p
  · subst here
    rw [if_neg (fun new => aside new.2.1), if_pos rfl, if_pos rfl]
  · rw [if_neg here, if_neg here]

/-! An entry on a way without links. -/

section

variable (o : Options)

/-- The folder an entry needs. -/
def folderOf (e : Entry Content) (p : Path) : Path :=
  match e.kind with
  | .dir => p
  | _ => p.dropLast

/-- What an entry puts in its place, by what is there. -/
def placed (e : Entry Content) (here : Option (Node Content)) : Option (Node Content) :=
  match e.kind with
  | .dir => none
  | .link target =>
      if here.isSome && !o.overwrite then none
      else if isDir here then none
      else some (.link target)
  | .file content _ readable =>
      if !o.overwrite && here.isSome then none
      else if !readable then none
      else if isDir here then none
      else some (.file content)

/-- What is reported of an entry that has its folder, by what is in its place. -/
def told (e : Entry Content) (here : Option (Node Content)) : Outcome :=
  match e.kind with
  | .dir =>
      .made (if !pathSelected e.path o.includes then true
        else if o.overwrite then false
        else here.isSome)
  | .link _ =>
      if here.isSome && !o.overwrite then .skipped .alreadyExists true
      else if isDir here then .skipped .directoryAtLink false
      else .made false
  | .file _ _ readable =>
      if !o.overwrite && here.isSome then .skipped .alreadyExists true
      else if !readable then .skipped .write false
      else if isDir here then .skipped .rename false
      else .made false

def refused (e : Entry Content) : Outcome :=
  match e.kind with
  | .dir => .skipped .mkdir false
  | _ => .skipped .mkdirParent false

def lay (d : Disk Content) (a p : Path) : Option (Node Content) → Disk Content
  | none => grow d a
  | some node => setNode (grow d a) p node

open Classical in
noncomputable def settle (e : Entry Content) (p : Path) (d : Disk Content) :
    Disk Content × Outcome :=
  if Clear d (folderOf e p) then
    (lay d (folderOf e p) p (placed o e (look d p)), told o e (look d p))
  else (d, refused e)

theorem settle_clear (e : Entry Content) (p : Path) (d : Disk Content)
    (clear : Clear d (folderOf e p)) :
    settle o e p d = (lay d (folderOf e p) p (placed o e (look d p)), told o e (look d p)) :=
  if_pos clear

theorem settle_blocked (e : Entry Content) (p : Path) (d : Disk Content)
    (blocked : ¬Clear d (folderOf e p)) : settle o e p d = (d, refused e) :=
  if_neg blocked

/-- On a way without links an entry does this. -/
theorem extractEntry_settle (s : Extraction Content) (e : Entry Content) (p : Path)
    (target : Target o e p) (open_ : underCreatedLink s.links p = false)
    (plain : Plain o s.disk e p) :
    (extractEntry o s e).disk = (settle o e p s.disk).1 ∧
      (extractEntry o s e).results = s.results ++ [⟨e, some p, (settle o e p s.disk).2⟩] ∧
      ∀ link ∈ (extractEntry o s e).links, link ∈ s.links ∨ link = p ∧ e.kind.isLink = true := by
  unfold extractEntry
  cases kind : e.kind with
  | link goal =>
      have folder : folderOf e p = p.dropLast := by rw [folderOf, kind]
      rw [handle_link o _ _ e p goal target open_ kind]
      unfold extractSymlink
      by_cases clear : Clear s.disk p.dropLast
      · have still : Unlinked (grow s.disk p.dropLast) p.dropLast :=
          ((clear_grow _ _ _).mpr clear).unlinked
        rw [settle_clear o e p _ (by rwa [folder]), folder, mkdirAll_clear _ _ clear]
        dsimp only
        rw [lstat_unlinked _ p still, place_unlinked _ p still, look_grow_parent]
        unfold placed told
        rw [kind]
        dsimp only
        split
        · exact ⟨rfl, rfl, fun link listed => Or.inl listed⟩
        · split
          · exact ⟨rfl, rfl, fun link listed => Or.inl listed⟩
          · refine ⟨rfl, rfl, fun link listed => ?_⟩
            rcases List.mem_cons.mp listed with here | listed
            · exact Or.inr ⟨here, rfl⟩
            · exact Or.inl listed
      · rw [settle_blocked o e p _ (by rwa [folder]), mkdirAll_blocked _ _ plain.above clear]
        unfold refused
        rw [kind]
        exact ⟨rfl, rfl, fun link listed => Or.inl listed⟩
  | dir =>
      have folder : folderOf e p = p := by rw [folderOf, kind]
      rw [handle_dir o _ _ e p target open_ kind]
      by_cases clear : Clear s.disk p
      · rw [settle_clear o e p _ (by rwa [folder]), folder, mkdirAll_clear _ _ clear]
        unfold placed told folderKeepsOwnTime
        rw [kind, lstat_unlinked _ p plain.above]
        exact ⟨rfl, rfl, fun link listed => Or.inl listed⟩
      · have free := plain.here (by rw [followed, kind])
        rw [settle_blocked o e p _ (by rwa [folder]), mkdirAll_blocked _ _ free clear]
        unfold refused
        rw [kind]
        exact ⟨rfl, rfl, fun link listed => Or.inl listed⟩
  | file content size readable =>
      have folder : folderOf e p = p.dropLast := by rw [folderOf, kind]
      rw [handle_file o _ _ e p target open_ content size readable kind]
      by_cases clear : Clear s.disk p.dropLast
      · have ready := grow_ready s.disk p clear
        rw [settle_clear o e p _ (by rwa [folder]), folder, mkdirAll_clear _ _ clear]
        dsimp only
        have there : (!o.overwrite && (stat (grow s.disk p.dropLast) p).isSome) =
            (!o.overwrite && (look s.disk p).isSome) := by
          -- only without overwriting is the place itself looked at
          cases over_ : o.overwrite with
          | true => rfl
          | false =>
              have unlinked := plain.here (by rw [followed, kind, over_]; rfl)
              have still : Unlinked (grow s.disk p.dropLast) p :=
                fun q within named goal link => unlinked q within named goal (grow_link link)
              rw [stat_unlinked _ p still, look_grow_parent]
        rw [there]
        unfold placed told
        rw [kind]
        cases !o.overwrite && (look s.disk p).isSome with
        | true => exact ⟨rfl, rfl, fun link listed => Or.inl listed⟩
        | false =>
            simp only [Bool.false_eq_true, if_false]
            rw [writeFile_ready _ _ ready]
            unfold puts put written
            dsimp only
            rw [look_grow_parent]
            cases readable with
            | false => exact ⟨rfl, rfl, fun link listed => Or.inl listed⟩
            | true =>
                cases isDir (look s.disk p) with
                | false => exact ⟨rfl, rfl, fun link listed => Or.inl listed⟩
                | true => exact ⟨rfl, rfl, fun link listed => Or.inl listed⟩
      · rw [settle_blocked o e p _ (by rwa [folder]), mkdirAll_blocked _ _ plain.above clear]
        unfold refused
        rw [kind]
        exact ⟨rfl, rfl, fun link listed => Or.inl listed⟩

end

/-! One entry beside another. -/

section

variable (o : Options)

theorem folderOf_within (e : Entry Content) (p : Path) : folderOf e p <+: p := by
  unfold folderOf
  split
  · exact List.prefix_refl p
  · exact List.dropLast_prefix p

theorem placed_some {e : Entry Content} {here : Option (Node Content)} {node : Node Content}
    (puts : placed o e here = some node) : e.kind ≠ .dir ∧ isDir here = false := by
  unfold placed at puts
  cases kind : e.kind with
  | dir =>
      rw [kind] at puts
      cases puts
  | link target =>
      rw [kind] at puts
      refine ⟨fun same => (by cases same), ?_⟩
      cases folder : isDir here with
      | false => rfl
      | true =>
          rw [folder] at puts
          simp at puts
  | file content size readable =>
      rw [kind] at puts
      refine ⟨fun same => (by cases same), ?_⟩
      cases folder : isDir here with
      | false => rfl
      | true =>
          rw [folder] at puts
          simp at puts

/-- What an entry puts does not depend on where. -/
theorem placed_same {e : Entry Content} {here there : Option (Node Content)}
    {node other : Node Content} (first : placed o e here = some node)
    (second : placed o e there = some other) : other = node := by
  unfold placed at first second
  cases kind : e.kind with
  | dir =>
      rw [kind] at first
      cases first
  | link target =>
      rw [kind] at first second
      simp at first second
      rw [← first.2.2, ← second.2.2]
  | file content size readable =>
      rw [kind] at first second
      simp at first second
      rw [← first.2.2.2, ← second.2.2.2]

theorem placed_dir {e : Entry Content} (kind : e.kind = .dir) (here : Option (Node Content)) :
    placed o e here = none := by
  rw [placed, kind]

theorem folderOf_parent {e : Entry Content} (kind : e.kind ≠ .dir) (p : Path) :
    folderOf e p = p.dropLast := by
  unfold folderOf
  split
  · next same => exact absurd same kind
  · rfl

theorem placed_aside {e : Entry Content} {p : Path} {d : Disk Content} {node : Node Content}
    (puts : placed o e (look d p) = some node) : ¬p <+: folderOf e p := by
  obtain ⟨kind, there⟩ := placed_some o puts
  have named : p ≠ [] := by
    rintro rfl
    cases there
  rw [folderOf_parent kind]
  exact fun within => dropLast_proper within named rfl

theorem clear_lay (d : Disk Content) (a p b : Path) (node : Option (Node Content))
    (aside : node ≠ none → ¬p <+: b) : Clear (lay d a p node) b ↔ Clear d b := by
  cases node with
  | none => exact clear_grow d a b
  | some node =>
      exact (clear_set _ p b node (aside (Option.some_ne_none _))).trans (clear_grow d a b)

theorem look_lay (d : Disk Content) (a p q : Path) (node : Option (Node Content))
    (aside : ¬q <+: a) (other : q ≠ p) : look (lay d a p node) q = look d q := by
  cases node with
  | none => exact look_grow d a q aside
  | some node => exact (look_set _ p q node other).trans (look_grow d a q aside)

theorem lay_comm (d : Disk Content) (a b p q : Path) (node other : Option (Node Content))
    (apart : p ≠ q) (first : node ≠ none → ¬p <+: b) (second : other ≠ none → ¬q <+: a) :
    lay (lay d a p node) b q other = lay (lay d b q other) a p node := by
  cases node with
  | none =>
      cases other with
      | none => exact grow_comm d a b
      | some other =>
          show setNode (grow (grow d a) b) q other = grow (setNode (grow d b) q other) a
          rw [grow_set _ a q other (second (Option.some_ne_none _)), grow_comm]
  | some node =>
      have here := first (Option.some_ne_none _)
      cases other with
      | none =>
          show grow (setNode (grow d a) p node) b = setNode (grow (grow d b) a) p node
          rw [grow_set _ b p node here, grow_comm]
      | some other =>
          show setNode (grow (setNode (grow d a) p node) b) q other =
            setNode (grow (setNode (grow d b) q other) a) p node
          rw [grow_set _ b p node here, grow_set _ a q other (second (Option.some_ne_none _)),
            grow_comm, set_swap _ p q node other apart]

theorem lay_again (d : Disk Content) (a p : Path) (node : Option (Node Content))
    (aside : node ≠ none → ¬p <+: a) : lay (lay d a p node) a p node = lay d a p node := by
  cases node with
  | none => exact grow_grow d a
  | some node =>
      show setNode (grow (setNode (grow d a) p node) a) p node = setNode (grow d a) p node
      rw [grow_set _ a p node (aside (Option.some_ne_none _)), grow_grow]
      funext q
      unfold setNode
      split <;> rfl

theorem clear_settle (e : Entry Content) (p b : Path) (d : Disk Content)
    (aside : p <+: b → e.kind = .dir) : Clear (settle o e p d).1 b ↔ Clear d b := by
  by_cases clear : Clear d (folderOf e p)
  · rw [settle_clear o e p d clear]
    refine clear_lay d _ p b _ fun puts within => ?_
    obtain ⟨node, here⟩ := Option.ne_none_iff_exists'.mp puts
    exact (placed_some o here).1 (aside within)
  · rw [settle_blocked o e p d clear]

theorem clear_settle_self (e : Entry Content) (p : Path) (d : Disk Content) :
    Clear (settle o e p d).1 (folderOf e p) ↔ Clear d (folderOf e p) := by
  by_cases clear : Clear d (folderOf e p)
  · rw [settle_clear o e p d clear]
    refine clear_lay d _ p _ _ fun puts => ?_
    obtain ⟨node, here⟩ := Option.ne_none_iff_exists'.mp puts
    exact placed_aside o here
  · rw [settle_blocked o e p d clear]

theorem look_settle (e : Entry Content) (p q : Path) (d : Disk Content) (aside : ¬q <+: p) :
    look (settle o e p d).1 q = look d q := by
  by_cases clear : Clear d (folderOf e p)
  · rw [settle_clear o e p d clear]
    refine look_lay d _ p q _ (fun within => aside (within.trans (folderOf_within e p))) ?_
    rintro rfl
    exact aside (List.prefix_refl q)
  · rw [settle_blocked o e p d clear]

theorem placed_settle (e e' : Entry Content) (p p' : Path) (d : Disk Content)
    (above : p <+: p' → e.kind = .dir) :
    placed o e (look (settle o e' p' d).1 p) = placed o e (look d p) := by
  by_cases kind : e.kind = .dir
  · rw [placed_dir o kind, placed_dir o kind]
  · rw [look_settle o e' p' p d fun within => kind (above within)]

theorem settle_comm (e e' : Entry Content) (p p' : Path) (d : Disk Content) (apart : p ≠ p')
    (above : p <+: p' → e.kind = .dir) (below : p' <+: p → e'.kind = .dir) :
    (settle o e' p' (settle o e p d).1).1 = (settle o e p (settle o e' p' d).1).1 := by
  -- neither sees what the other makes: its folder is as free as before and
  -- in its place is what was there
  have clearFirst := clear_settle o e p (folderOf e' p') d
    fun within => above (within.trans (folderOf_within e' p'))
  have clearSecond := clear_settle o e' p' (folderOf e p) d
    fun within => below (within.trans (folderOf_within e p))
  have placedFirst := placed_settle o e e' p p' d above
  have placedSecond := placed_settle o e' e p' p d below
  by_cases first : Clear d (folderOf e p)
  · by_cases second : Clear d (folderOf e' p')
    · rw [settle_clear o e' p' _ (clearFirst.mpr second),
        settle_clear o e p _ (clearSecond.mpr first), placedFirst, placedSecond,
        settle_clear o e p d first, settle_clear o e' p' d second]
      refine lay_comm d _ _ p p' _ _ apart (fun puts within => ?_) (fun puts within => ?_)
      · obtain ⟨node, here⟩ := Option.ne_none_iff_exists'.mp puts
        exact (placed_some o here).1 (above (within.trans (folderOf_within e' p')))
      · obtain ⟨node, here⟩ := Option.ne_none_iff_exists'.mp puts
        exact (placed_some o here).1 (below (within.trans (folderOf_within e p)))
    · rw [settle_blocked o e' p' _ (fun clear => second (clearFirst.mp clear)),
        settle_blocked o e' p' d second]
  · rw [settle_blocked o e p _ (fun clear => first (clearSecond.mp clear)),
      settle_blocked o e p d first]

/-- Once more changes nothing on the disk, overwriting or not. -/
theorem settle_again (e : Entry Content) (p : Path) (d : Disk Content) :
    (settle o e p (settle o e p d).1).1 = (settle o e p d).1 := by
  by_cases clear : Clear d (folderOf e p)
  · rw [settle_clear o e p _ ((clear_settle_self o e p d).mpr clear), settle_clear o e p d clear]
    dsimp only
    cases first : placed o e (look d p) with
    | some node =>
        have aside := placed_aside o first
        -- overwriting puts the same node again, not overwriting puts none
        cases second : placed o e (look (lay d (folderOf e p) p (some node)) p) with
        | some other =>
            rw [placed_same o first second]
            exact lay_again d _ p (some node) fun _ => aside
        | none =>
            show grow (setNode (grow d (folderOf e p)) p node) (folderOf e p) =
              setNode (grow d (folderOf e p)) p node
            rw [grow_set _ _ p node aside, grow_grow]
    | none =>
        have second : placed o e (look (lay d (folderOf e p) p none) p) = none := by
          by_cases kind : e.kind = .dir
          · exact placed_dir o kind _
          · show placed o e (look (grow d (folderOf e p)) p) = none
            rw [folderOf_parent kind, look_grow_parent, first]
        rw [second]
        exact lay_again d _ p none fun puts => absurd rfl puts
  · rw [settle_blocked o e p d clear, settle_blocked o e p d clear]

theorem settle_link (e : Entry Content) (p q target : Path) (d : Disk Content)
    (link : (settle o e p d).1 q = some (.link target)) :
    d q = some (.link target) ∨ q = p ∧ e.kind.isLink = true ∧ ¬p <+: folderOf e p := by
  by_cases clear : Clear d (folderOf e p)
  · rw [settle_clear o e p d clear] at link
    cases puts : placed o e (look d p) with
    | none =>
        rw [puts] at link
        exact Or.inl (grow_link link)
    | some node =>
        rw [puts] at link
        change setNode (grow d (folderOf e p)) p node q = some (.link target) at link
        unfold setNode at link
        split at link
        · next here =>
            refine Or.inr ⟨here, ?_, placed_aside o puts⟩
            cases link
            unfold placed at puts
            cases kind : e.kind with
            | dir =>
                rw [kind] at puts
                cases puts
            | link target => rfl
            | file content size readable =>
                rw [kind] at puts
                simp at puts
        · exact Or.inl (grow_link link)
  · rw [settle_blocked o e p d clear] at link
    exact Or.inl link

end

/-! A walk after a walk. -/

section

variable (o : Options)

/-- Entries go to different places, and only a folder's is above another's. -/
def Apart (all : List (Entry Content)) : Prop :=
  ∀ e ∈ all, ∀ other ∈ all, e ≠ other → ∀ p q, Target o e p → Target o other q →
    p ≠ q ∧ (p <+: q → e.kind = .dir)

theorem Target.same {e : Entry Content} {p q : Path} (first : Target o e p)
    (second : Target o e q) : p = q :=
  Option.some_inj.mp (first.2.2.symm.trans second.2.2)

def goal (e : Entry Content) : Option Path :=
  if matched o e && !isUnsafeArchivePath e.path then o.rewriter e.path else none

theorem goal_iff (e : Entry Content) (p : Path) : goal o e = some p ↔ Target o e p := by
  unfold goal Target
  cases matched o e with
  | false => simp
  | true =>
      cases isUnsafeArchivePath e.path with
      | false => simp
      | true => simp

noncomputable def settled (d : Disk Content) (e : Entry Content) : Disk Content :=
  match goal o e with
  | none => d
  | some p => (settle o e p d).1

noncomputable def report (d : Disk Content) (e : Entry Content) : Option (Extracted Content) :=
  if !matched o e then none
  else if isUnsafeArchivePath e.path then some ⟨e, none, .skipped .unsafePath false⟩
  else (o.rewriter e.path).map fun p => ⟨e, some p, (settle o e p d).2⟩

theorem settled_target {e : Entry Content} {p : Path} (target : Target o e p) (d : Disk Content) :
    settled o d e = (settle o e p d).1 := by
  rw [settled, (goal_iff o e p).mpr target]

theorem report_target {e : Entry Content} {p : Path} (target : Target o e p) (d : Disk Content) :
    report o d e = some ⟨e, some p, (settle o e p d).2⟩ := by
  obtain ⟨chosen, safe, rewritten⟩ := target
  rw [report, chosen, safe, rewritten]
  rfl

/-- Without a target an entry leaves the disk and is reported by itself. -/
theorem no_target {e : Entry Content} (none_ : goal o e = none) (d : Disk Content) :
    settled o d e = d ∧ ∀ other : Disk Content, report o d e = report o other e := by
  constructor
  · rw [settled, none_]
  · intro other
    unfold report
    unfold goal at none_
    cases chosen : matched o e with
    | false => rfl
    | true =>
        cases safe : isUnsafeArchivePath e.path with
        | true => rfl
        | false =>
            rw [chosen, safe] at none_
            change o.rewriter e.path = none at none_
            rw [none_]
            rfl

/-- No link is on a way that an entry still goes, and none made lies above one. -/
structure Going (all : List (Entry Content)) (s : Extraction Content) : Prop where
  links : ∀ link ∈ s.links, ∃ e ∈ all, e.kind.isLink = true ∧ Target o e link
  plain : ∀ e ∈ all, ∀ p, Target o e p → Plain o s.disk e p

theorem plain_settle {all : List (Entry Content)} (apart : Apart o all) (e other : Entry Content)
    (member : e ∈ all) (listed : other ∈ all) (p q : Path) (target : Target o e p)
    (second : Target o other q) (d : Disk Content) (plain : Plain o d e p) :
    Plain o (settle o other q d).1 e p := by
  -- only the entry's own link can be at or above its place
  have aside (linked : other.kind.isLink = true) (within : q <+: p) : other = e := by
    by_contra different
    have folder := (apart other listed e member different q p second target).2 within
    rw [folder] at linked
    cases linked
  constructor
  · intro r within named goal link
    rcases settle_link o other q r goal d link with old | ⟨rfl, linked, free⟩
    · exact plain.above r within named goal old
    · have same := aside linked (within.trans (List.dropLast_prefix p))
      subst same
      obtain rfl := Target.same o target second
      refine free ?_
      unfold folderOf
      split
      · exact List.prefix_refl _
      · exact within
  · intro follows r within named goal link
    rcases settle_link o other q r goal d link with old | ⟨rfl, linked, -⟩
    · exact plain.here follows r within named goal old
    · have same := aside linked within
      subst same
      unfold followed at follows
      cases kind : other.kind with
      | link target =>
          rw [kind] at follows
          cases follows
      | dir =>
          rw [kind] at linked
          cases linked
      | file content size readable =>
          rw [kind] at linked
          cases linked

theorem extractEntry_going {all : List (Entry Content)} (apart : Apart o all)
    (s : Extraction Content) (going : Going o all s) (e : Entry Content) (member : e ∈ all) :
    (extractEntry o s e).disk = settled o s.disk e ∧
      (extractEntry o s e).results = s.results ++ (report o s.disk e).toList ∧
      Going o all (extractEntry o s e) := by
  cases place : goal o e with
  | some p =>
      have target := (goal_iff o e p).mp place
      have open_ : underCreatedLink s.links p = false := by
        refine Bool.eq_false_iff.mpr fun under => ?_
        obtain ⟨link, listed, above⟩ := List.any_eq_true.mp under
        rw [Bool.and_eq_true, List.isPrefixOf_iff_prefix, decide_eq_true_eq] at above
        obtain ⟨maker, known, kind, second⟩ := going.links link listed
        -- a link above the place would belong to an entry above a link
        by_cases same : maker = e
        · subst same
          exact above.2 (Target.same o second target)
        · have folder := (apart maker known e member same link p second target).2 above.1
          rw [folder] at kind
          cases kind
      obtain ⟨disk, results, links⟩ :=
        extractEntry_settle o s e p target open_ (going.plain e member p target)
      rw [settled_target o target, report_target o target]
      refine ⟨disk, results, ⟨fun link listed => ?_, fun other listed q second => ?_⟩⟩
      · rcases links link listed with before | ⟨rfl, kind⟩
        · exact going.links link before
        · exact ⟨e, member, kind, target⟩
      · rw [disk]
        exact plain_settle o apart other e listed member q p second target _
          (going.plain other listed q second)
  | none =>
      rw [(no_target o place s.disk).1]
      unfold goal at place
      unfold extractEntry handle report
      cases chosen : matched o e with
      | false => exact ⟨rfl, (List.append_nil _).symm, going.links, going.plain⟩
      | true =>
          cases safe : isUnsafeArchivePath e.path with
          | true => exact ⟨rfl, rfl, going.links, going.plain⟩
          | false =>
              rw [chosen, safe] at place
              change o.rewriter e.path = none at place
              rw [place]
              exact ⟨rfl, (List.append_nil _).symm, going.links, going.plain⟩

noncomputable def reports : Disk Content → List (Entry Content) → List (Extracted Content)
  | _, [] => []
  | d, e :: rest => (report o d e).toList ++ reports (settled o d e) rest

theorem walk_going {all : List (Entry Content)} (apart : Apart o all) (walk : List (Entry Content))
    (members : walk ⊆ all) (s : Extraction Content) (going : Going o all s) :
    (walk.foldl (extractEntry o) s).disk = walk.foldl (settled o) s.disk ∧
      (walk.foldl (extractEntry o) s).results = s.results ++ reports o s.disk walk ∧
      Going o all (walk.foldl (extractEntry o) s) := by
  induction walk generalizing s with
  | nil => exact ⟨rfl, (List.append_nil _).symm, going⟩
  | cons e rest ih =>
      obtain ⟨disk, results, still⟩ :=
        extractEntry_going o apart s going e (members List.mem_cons_self)
      obtain ⟨disks, all_, last⟩ := ih (fun _ listed => members (List.mem_cons_of_mem e listed))
        (extractEntry o s e) still
      rw [List.foldl_cons, List.foldl_cons]
      refine ⟨by rw [disks, disk], ?_, last⟩
      rw [all_, results, disk, List.append_assoc]
      rfl

/-! The disk after both walks. -/

theorem settled_comm {all : List (Entry Content)} (apart : Apart o all) (e other : Entry Content)
    (member : e ∈ all) (listed : other ∈ all) (d : Disk Content) :
    settled o (settled o d e) other = settled o (settled o d other) e := by
  by_cases same : e = other
  · rw [same]
  cases first : goal o e with
  | none => rw [(no_target o first d).1, (no_target o first _).1]
  | some p =>
      have target := (goal_iff o e p).mp first
      cases second : goal o other with
      | none => rw [(no_target o second _).1, (no_target o second d).1]
      | some q =>
          have targetOther := (goal_iff o other q).mp second
          obtain ⟨different, above⟩ := apart e member other listed same p q target targetOther
          have below := (apart other listed e member (Ne.symm same) q p targetOther target).2
          rw [settled_target o target, settled_target o target, settled_target o targetOther,
            settled_target o targetOther]
          exact settle_comm o e other p q d different above below

theorem settled_again (e : Entry Content) (d : Disk Content) :
    settled o (settled o d e) e = settled o d e := by
  cases first : goal o e with
  | none => rw [(no_target o first d).1, (no_target o first d).1]
  | some p =>
      have target := (goal_iff o e p).mp first
      rw [settled_target o target, settled_target o target]
      exact settle_again o e p d

theorem walk_comm {all : List (Entry Content)} (apart : Apart o all) (walk : List (Entry Content))
    (members : walk ⊆ all) (e : Entry Content) (member : e ∈ all) (d : Disk Content) :
    walk.foldl (settled o) (settled o d e) = settled o (walk.foldl (settled o) d) e := by
  induction walk generalizing d with
  | nil => rfl
  | cons other rest ih =>
      rw [List.foldl_cons, List.foldl_cons,
        settled_comm o apart e other member (members List.mem_cons_self) d]
      exact ih (fun _ listed => members (List.mem_cons_of_mem other listed)) _

/-- What a walk will do itself may be done before. -/
theorem walk_absorbs {all : List (Entry Content)} (apart : Apart o all)
    (walk : List (Entry Content)) (members : walk ⊆ all) (e : Entry Content) (inside : e ∈ walk)
    (d : Disk Content) : walk.foldl (settled o) (settled o d e) = walk.foldl (settled o) d := by
  induction walk generalizing d with
  | nil => cases inside
  | cons other rest ih =>
      rw [List.foldl_cons, List.foldl_cons]
      by_cases here : e = other
      · rw [here, settled_again]
      -- moved past the others until the walk comes to it itself
      · rw [settled_comm o apart e other (members inside) (members List.mem_cons_self) d]
        exact ih (fun _ listed => members (List.mem_cons_of_mem other listed))
          ((List.mem_cons.mp inside).resolve_left here) _

theorem walk_again {all : List (Entry Content)} (apart : Apart o all)
    (front walk : List (Entry Content)) (members : walk ⊆ all) (inside : front ⊆ walk)
    (d : Disk Content) :
    walk.foldl (settled o) (front.foldl (settled o) d) = walk.foldl (settled o) d := by
  induction front generalizing d with
  | nil => rfl
  | cons e rest ih =>
      rw [List.foldl_cons, ih (fun _ listed => inside (List.mem_cons_of_mem e listed)),
        walk_absorbs o apart walk members e (inside List.mem_cons_self)]

/-! The results after both walks. -/

/-- Where one entry goes at or below another, the other's report is the same
whether its folder was there or not. -/
def Unseen (e other : Entry Content) : Prop :=
  ∀ p q, Target o e p → Target o other q → p <+: q →
    o.overwrite = true ∨ pathSelected e.path o.includes = false

theorem told_folder {e : Entry Content} (kind : e.kind = .dir)
    (fixed : o.overwrite = true ∨ pathSelected e.path o.includes = false)
    (here there : Option (Node Content)) : told o e here = told o e there := by
  unfold told
  rw [kind]
  dsimp only
  rcases fixed with over_ | aside
  · rw [over_]
    rfl
  · rw [aside]
    rfl

theorem report_other {all : List (Entry Content)} (apart : Apart o all) (e other : Entry Content)
    (member : e ∈ all) (listed : other ∈ all) (different : e ≠ other) (unseen : Unseen o e other)
    (d : Disk Content) : report o (settled o d other) e = report o d e := by
  cases first : goal o e with
  | none => exact (no_target o first _).2 d
  | some p =>
      have target := (goal_iff o e p).mp first
      cases second : goal o other with
      | none => rw [(no_target o second d).1]
      | some q =>
          have targetOther := (goal_iff o other q).mp second
          have above := (apart e member other listed different p q target targetOther).2
          have below :=
            (apart other listed e member (Ne.symm different) q p targetOther target).2
          have clears := clear_settle o other q (folderOf e p) d
            fun within => below (within.trans (folderOf_within e p))
          rw [report_target o target, report_target o target, settled_target o targetOther]
          congr 2
          by_cases clear : Clear d (folderOf e p)
          · rw [settle_clear o e p _ (clears.mpr clear), settle_clear o e p d clear]
            -- only a folder has another's place below its own
            by_cases within : p <+: q
            · exact told_folder o (above within) (unseen p q target targetOther within) _ _
            · rw [look_settle o other q p d within]
          · rw [settle_blocked o e p _ (fun now => clear (clears.mp now)),
              settle_blocked o e p d clear]

theorem report_walk {all : List (Entry Content)} (apart : Apart o all)
    (walk : List (Entry Content)) (members : walk ⊆ all) (e : Entry Content) (member : e ∈ all)
    (outside : e ∉ walk) (unseen : ∀ other ∈ walk, Unseen o e other) (d : Disk Content) :
    report o (walk.foldl (settled o) d) e = report o d e := by
  induction walk generalizing d with
  | nil => rfl
  | cons other rest ih =>
      rw [List.foldl_cons, ih (fun _ listed => members (List.mem_cons_of_mem other listed))
        (fun listed => outside (List.mem_cons_of_mem other listed))
        (fun third listed => unseen third (List.mem_cons_of_mem other listed))]
      refine report_other o apart e other member (members List.mem_cons_self) ?_
        (unseen other List.mem_cons_self) d
      rintro rfl
      exact outside List.mem_cons_self

/-- An entry goes neither where one before it goes nor above, and below it only
if that is a folder. -/
def InOrder (walk : List (Entry Content)) : Prop :=
  walk.Pairwise fun e later => ∀ p q, Target o e p → Target o later q →
    ¬q <+: p ∧ (p <+: q → e.kind = .dir)

/-- Apart, said of two entries alike. -/
def Beside (e other : Entry Content) : Prop :=
  ∀ p q, Target o e p → Target o other q →
    p ≠ q ∧ (p <+: q → e.kind = .dir) ∧ (q <+: p → other.kind = .dir)

instance : Std.Symm (@Beside Content o) where
  symm _ _ beside p q target second :=
    have ⟨different, above, below⟩ := beside q p second target
    ⟨different.symm, below, above⟩

theorem InOrder.apart {walk : List (Entry Content)} (order : InOrder o walk) : Apart o walk := by
  have beside : walk.Pairwise (Beside o) := by
    refine List.Pairwise.imp (fun {e other} ordered p q target second => ?_) order
    obtain ⟨aside, above⟩ := ordered p q target second
    refine ⟨?_, above, fun within => absurd within aside⟩
    rintro rfl
    exact aside (List.prefix_refl p)
  intro e member other listed different p q target second
  obtain ⟨apart, above, -⟩ := beside.forall member listed different p q target second
  exact ⟨apart, above⟩

/-- A walk in order reports each entry as if it were the only one. -/
theorem reports_each (walk : List (Entry Content)) (order : InOrder o walk) (d : Disk Content) :
    reports o d walk = walk.filterMap (report o d) := by
  induction walk generalizing d with
  | nil => rfl
  | cons e rest ih =>
      have apart := order.apart
      obtain ⟨before, order⟩ := List.pairwise_cons.mp order
      have same : rest.filterMap (report o (settled o d e)) = rest.filterMap (report o d) := by
        refine List.filterMap_congr fun third listed => ?_
        -- handed over twice it can only be an entry without a target
        by_cases here : third = e
        · cases place : goal o e with
          | none => rw [(no_target o place d).1]
          | some p =>
              have target := (goal_iff o e p).mp place
              exact absurd (List.prefix_refl p)
                (before third listed p p target (here ▸ target)).1
        · exact report_other o apart third e (List.mem_cons_of_mem e listed) List.mem_cons_self here
            (fun p q target second within =>
              absurd within (before third listed q p second target).1) d
      rw [reports, ih order, same]
      cases first : report o d e with
      | none =>
          rw [List.filterMap_cons_none first]
          rfl
      | some result =>
          rw [List.filterMap_cons_some first]
          rfl

/-- An entry that a walk handles is as handled last. -/
theorem walk_last {all : List (Entry Content)} (apart : Apart o all) (walk : List (Entry Content))
    (members : walk ⊆ all) (e : Entry Content) (inside : e ∈ walk) (d : Disk Content) :
    ∃ rest, rest ⊆ walk ∧ e ∉ rest ∧
      walk.foldl (settled o) d = settled o (rest.foldl (settled o) d) e := by
  induction walk generalizing d with
  | nil => cases inside
  | cons other tail ih =>
      have later : tail ⊆ all := fun _ listed => members (List.mem_cons_of_mem other listed)
      -- the last time counts: what it did before it would do again
      by_cases again : e ∈ tail
      · obtain ⟨rest, part, outside, walked⟩ := ih later again (settled o d other)
        rw [List.foldl_cons, walked]
        by_cases here : e = other
        · subst here
          refine ⟨rest, fun _ listed => List.mem_cons_of_mem e (part listed), outside, ?_⟩
          rw [walk_comm o apart rest (fun _ listed => later (part listed)) e
            (members List.mem_cons_self), settled_again]
        · refine ⟨other :: rest, List.cons_subset_cons other part, ?_, rfl⟩
          rw [List.mem_cons, not_or]
          exact ⟨here, outside⟩
      · obtain rfl := (List.mem_cons.mp inside).resolve_right again
        refine ⟨tail, List.subset_cons_self e tail, again, ?_⟩
        rw [List.foldl_cons, walk_comm o apart tail later e (members List.mem_cons_self)]

/-- What a walk has put or made a second one finds. -/
def New (d : Disk Content) (e : Entry Content) : Prop :=
  ∃ p, Target o e p ∧ Clear d (folderOf e p) ∧ look d p = none ∧
    match e.kind with
    | .dir => pathSelected e.path o.includes = true
    | .link _ => True
    | .file _ _ readable => readable = true

theorem told_again (e : Entry Content) (kind : e.kind ≠ .dir) (here : Option (Node Content)) :
    told o e ((placed o e here).or here) = told o e here ↔
      o.overwrite = true ∨ ¬(here = none ∧
        match e.kind with
        | .dir => pathSelected e.path o.includes = true
        | .link _ => True
        | .file _ _ readable => readable = true) := by
  unfold told placed
  cases kind_ : e.kind with
  | dir => exact absurd kind_ kind
  | link target =>
      cases o.overwrite <;> rcases here with - | (- | - | -) <;> simp [isDir]
  | file content size readable =>
      cases o.overwrite <;> cases readable <;> rcases here with - | (- | - | -) <;> simp [isDir]

theorem told_folder_again (e : Entry Content) (kind : e.kind = .dir)
    (here : Option (Node Content)) :
    told o e (some .dir) = told o e here ↔
      o.overwrite = true ∨ ¬(here = none ∧
        match e.kind with
        | .dir => pathSelected e.path o.includes = true
        | .link _ => True
        | .file _ _ readable => readable = true) := by
  unfold told
  rw [kind]
  cases pathSelected e.path o.includes <;> cases o.overwrite <;> cases here <;> simp

theorem look_settle_folder (e : Entry Content) (p : Path) (d : Disk Content)
    (clear : Clear d (folderOf e p)) (kind : e.kind = .dir) :
    look (settle o e p d).1 p = some .dir := by
  have folder : folderOf e p = p := by rw [folderOf, kind]
  rw [settle_clear o e p d clear, placed_dir o kind, folder]
  rw [folder] at clear
  exact (mkdirAll_effect d _ p clear.unlinked (mkdirAll_clear d p clear)).2 p (List.prefix_refl p)

theorem look_settle_self (e : Entry Content) (p : Path) (d : Disk Content)
    (clear : Clear d (folderOf e p)) (kind : e.kind ≠ .dir) :
    look (settle o e p d).1 p = (placed o e (look d p)).or (look d p) := by
  rw [settle_clear o e p d clear]
  dsimp only
  cases puts : placed o e (look d p) with
  | none =>
      show look (grow d (folderOf e p)) p = look d p
      rw [folderOf_parent kind, look_grow_parent]
  | some node =>
      have named : p ≠ [] := by
        rintro rfl
        cases (placed_some o puts).2
      show look (setNode (grow d (folderOf e p)) p node) p = some node
      rw [look, if_neg named]
      exact if_pos rfl

theorem walk_clear {all : List (Entry Content)} (apart : Apart o all)
    (walk : List (Entry Content)) (members : walk ⊆ all) (e : Entry Content) (member : e ∈ all)
    (outside : e ∉ walk) (p : Path) (target : Target o e p) (d : Disk Content) :
    (Clear (walk.foldl (settled o) d) (folderOf e p) ↔ Clear d (folderOf e p)) ∧
      (e.kind ≠ .dir → look (walk.foldl (settled o) d) p = look d p) := by
  induction walk generalizing d with
  | nil => exact ⟨Iff.rfl, fun _ => rfl⟩
  | cons other rest ih =>
      obtain ⟨clear, same⟩ := ih (fun _ listed => members (List.mem_cons_of_mem other listed))
        (fun listed => outside (List.mem_cons_of_mem other listed)) (settled o d other)
      rw [List.foldl_cons]
      cases place : goal o other with
      | none =>
          rw [(no_target o place d).1] at clear same ⊢
          exact ⟨clear, same⟩
      | some q =>
          have second := (goal_iff o other q).mp place
          have listed := members (List.mem_cons_self (a := other) (l := rest))
          have different : e ≠ other := by
            rintro rfl
            exact outside List.mem_cons_self
          have above := (apart e member other listed different p q target second).2
          have below := (apart other listed e member different.symm q p second target).2
          rw [settled_target o second] at clear same ⊢
          refine ⟨clear.trans (clear_settle o other q _ d fun within =>
            below (within.trans (folderOf_within e p))), fun kind => ?_⟩
          rw [same kind]
          exact look_settle o other q p d fun within => kind (above within)

/-- An entry that was handled before is reported again as it was, unless it was
new then and is not overwritten. -/
theorem report_again {all : List (Entry Content)} (apart : Apart o all)
    (walk : List (Entry Content)) (members : walk ⊆ all) (e : Entry Content) (inside : e ∈ walk)
    (d : Disk Content) :
    report o (walk.foldl (settled o) d) e = report o d e ↔ o.overwrite = true ∨ ¬New o d e := by
  have member := members inside
  cases place : goal o e with
  | none =>
      refine iff_of_true ((no_target o place _).2 d) (Or.inr ?_)
      rintro ⟨p, target, -⟩
      rw [(goal_iff o e p).mpr target] at place
      cases place
  | some p =>
      have target := (goal_iff o e p).mp place
      have new : New o d e ↔ Clear d (folderOf e p) ∧ look d p = none ∧
          match e.kind with
          | .dir => pathSelected e.path o.includes = true
          | .link _ => True
          | .file _ _ readable => readable = true := by
        constructor
        · rintro ⟨q, second, shape⟩
          rw [Target.same o target second]
          exact shape
        · exact fun shape => ⟨p, target, shape⟩
      obtain ⟨rest, part, outside, walked⟩ := walk_last o apart walk members e inside d
      obtain ⟨clears, same⟩ :=
        walk_clear o apart rest (fun _ listed => members (part listed)) e member outside p target d
      rw [report_target o target, report_target o target, walked, settled_target o target, new]
      by_cases clear : Clear d (folderOf e p)
      · have before := clears.mpr clear
        rw [settle_clear o e p _ ((clear_settle_self o e p _).mpr before),
          settle_clear o e p d clear]
        simp only [Option.some.injEq, Extracted.mk.injEq, true_and]
        by_cases kind : e.kind = .dir
        · rw [look_settle_folder o e p _ before kind, told_folder_again o e kind (look d p)]
          tauto
        · rw [look_settle_self o e p _ before kind, same kind, told_again o e kind (look d p)]
          tauto
      · have still (now : Clear (settle o e p (rest.foldl (settled o) d)).1 (folderOf e p)) :
            False :=
          clear (clears.mp ((clear_settle_self o e p _).mp now))
        rw [settle_blocked o e p _ still, settle_blocked o e p d clear]
        exact iff_of_true rfl (Or.inr fun shape => clear shape.1)

theorem filterMap_eq_iff {α β : Type} (f g : α → Option β)
    (alike : ∀ x, (f x).isSome = (g x).isSome) (xs : List α) :
    xs.filterMap f = xs.filterMap g ↔ ∀ x ∈ xs, f x = g x := by
  induction xs with
  | nil => simp
  | cons x rest ih =>
      have here := alike x
      cases first : f x with
      | none =>
          have second : g x = none := by simpa [first] using here.symm
          simp [first, second, ih]
      | some y =>
          obtain ⟨z, second⟩ : ∃ z, g x = some z := by
            simpa [first, Option.isSome_iff_exists] using here.symm
          simp [first, second, ih]

theorem report_alike (d later : Disk Content) (e : Entry Content) :
    (report o d e).isSome = (report o later e).isSome := by
  cases place : goal o e with
  | none => rw [(no_target o place d).2 later]
  | some p =>
      have target := (goal_iff o e p).mp place
      rw [report_target o target, report_target o target]
      rfl

/-! The span walk and the walk of everything. -/

/-- The same entry of the archive; what it weighs depends on the walk. -/
structure SameEntry (e other : Entry Content) : Prop where
  path : e.path = other.path
  kind : e.kind = other.kind
  attributes : e.attributes = other.attributes

/-- What the failed walk handed over is part of what the other does, in the same
order; with what is in a folder that is selected there was the folder. -/
structure PartOf (front walk part : List (Entry Content)) : Prop where
  same : List.Forall₂ SameEntry front part
  sublist : part.Sublist walk
  whole : ∀ folder ∈ walk, ∀ e ∈ part, ∀ p q, Target o folder p → Target o e q → p <+: q →
    pathSelected folder.path o.includes = true → folder ∈ part

theorem SameEntry.target {e other : Entry Content} (same : SameEntry e other) (p : Path) :
    Target o e p ↔ Target o other p := by
  unfold Target matched
  rw [same.path]

theorem SameEntry.settled {e other : Entry Content} (same : SameEntry e other) (d : Disk Content) :
    settled o d e = settled o d other := by
  cases e
  cases other
  obtain ⟨path, kind, attributes⟩ := same
  cases path
  cases kind
  cases attributes
  rfl

theorem SameEntry.new {e other : Entry Content} (same : SameEntry e other) (d : Disk Content) :
    New o d e ↔ New o d other := by
  cases e
  cases other
  obtain ⟨path, kind, attributes⟩ := same
  cases path
  cases kind
  cases attributes
  exact Iff.rfl

theorem same_member {front part : List (Entry Content)}
    (same : List.Forall₂ SameEntry front part) :
    (∀ e ∈ front, ∃ other ∈ part, SameEntry e other) ∧
      ∀ other ∈ part, ∃ e ∈ front, SameEntry e other := by
  induction same with
  | nil => exact ⟨fun _ listed => absurd listed List.not_mem_nil,
      fun _ listed => absurd listed List.not_mem_nil⟩
  | cons first _ ih =>
      constructor
      · intro e listed
        rcases List.mem_cons.mp listed with rfl | listed
        · exact ⟨_, List.mem_cons_self, first⟩
        · obtain ⟨other, known, alike⟩ := ih.1 e listed
          exact ⟨other, List.mem_cons_of_mem _ known, alike⟩
      · intro other listed
        rcases List.mem_cons.mp listed with rfl | listed
        · exact ⟨_, List.mem_cons_self, first⟩
        · obtain ⟨e, known, alike⟩ := ih.2 other listed
          exact ⟨e, List.mem_cons_of_mem _ known, alike⟩

theorem same_walk {front part : List (Entry Content)} (same : List.Forall₂ SameEntry front part)
    (d : Disk Content) : front.foldl (settled o) d = part.foldl (settled o) d := by
  induction same generalizing d with
  | nil => rfl
  | cons first _ ih =>
      rw [List.foldl_cons, List.foldl_cons, first.settled]
      exact ih _

theorem same_order {front part : List (Entry Content)} (same : List.Forall₂ SameEntry front part)
    (order : InOrder o part) : InOrder o front := by
  induction same with
  | nil => exact List.Pairwise.nil
  | @cons e other front part first rest ih =>
      obtain ⟨before, order⟩ := List.pairwise_cons.mp order
      refine List.pairwise_cons.mpr ⟨fun later listed p q target second => ?_, ih order⟩
      obtain ⟨third, known, alike⟩ := (same_member rest).1 later listed
      rw [first.kind]
      exact before third known p q ((first.target o p).mp target) ((alike.target o q).mp second)

theorem InOrder.filesApart {walk : List (Entry Content)} (order : InOrder o walk) :
    FilesApart o walk := by
  refine List.Pairwise.imp (fun {e later} ordered kind p q target second within => ?_) order
  have folder := (ordered p q target second).2 within
  rw [folder] at kind
  cases kind

theorem plain_walk {all : List (Entry Content)} (apart : Apart o all)
    (walk : List (Entry Content)) (members : walk ⊆ all) (d : Disk Content)
    (plain : ∀ e ∈ all, ∀ p, Target o e p → Plain o d e p) :
    ∀ e ∈ all, ∀ p, Target o e p → Plain o (walk.foldl (settled o) d) e p := by
  induction walk generalizing d with
  | nil => exact plain
  | cons other rest ih =>
      refine ih (fun _ listed => members (List.mem_cons_of_mem other listed)) _
        fun e member p target => ?_
      cases place : goal o other with
      | none =>
          rw [(no_target o place d).1]
          exact plain e member p target
      | some q =>
          have second := (goal_iff o other q).mp place
          rw [settled_target o second]
          exact plain_settle o apart e other member (members List.mem_cons_self) p q target second d
            (plain e member p target)

/-- No link gets in the way of an entry, the walks are in order, and what the
failed one handed over is part of the other. -/
structure Orderly (d : Disk Content) (w : Walks Content) : Prop where
  noLinks : NoLinks o d w
  order : InOrder o w.entries
  part : ∀ front, w.failed = some front → ∃ part, PartOf o front w.entries part

/-- Nothing that the failed walk handed over was still to be made. -/
def NothingNew (d : Disk Content) (w : Walks Content) : Prop :=
  ∀ front, w.failed = some front → ∀ e ∈ front, ¬New o d e

def fullWalk (w : Walks Content) : Walks Content := ⟨none, w.entries⟩

/-- With and without the failed walk before it, the walk of everything leaves
the same on the disk and reports the same, file by file or by a pool. -/
structure RestartClean (d : Disk Content) (w : Walks Content) : Prop where
  sequential : (extractWithRewriter o d w).disk = (extractWithRewriter o d (fullWalk w)).disk ∧
    (extractWithRewriter o d w).results = (extractWithRewriter o d (fullWalk w)).results
  pool : ∀ (workers : Int) (actions alone : List Action) (s t : Pool Content),
    Run (poolSystem o (workerCount workers) d w) (poolStart d w) actions s → s.finished →
    Run (poolSystem o (workerCount workers) d (fullWalk w)) (poolStart d (fullWalk w)) alone t →
    t.finished → s.extraction.disk = t.extraction.disk ∧
      s.extraction.results.Perm t.extraction.results

theorem going_start (d : Disk Content) (w : Walks Content) (noLinks : NoLinks o d w)
    (walk : List (Entry Content)) (members : walk ⊆ w.all) : Going o walk ⟨d, [], [], 0⟩ where
  links := fun _ listed => absurd listed List.not_mem_nil
  plain := fun e member p target =>
    plain_of_noLinks o (d := d) noLinks ⟨fun _ goal link => Or.inl ⟨goal, link⟩,
      fun _ listed => absurd listed List.not_mem_nil⟩ e (members member) p target rfl

theorem full_walk (d : Disk Content) (w : Walks Content) (noLinks : NoLinks o d w)
    (order : InOrder o w.entries) :
    (extractWithRewriter o d (fullWalk w)).disk = w.entries.foldl (settled o) d ∧
      (extractWithRewriter o d (fullWalk w)).results = w.entries.filterMap (report o d) := by
  obtain ⟨disk, results, -⟩ := walk_going o order.apart w.entries (List.Subset.refl _)
    ⟨d, [], [], 0⟩ (going_start o d w noLinks w.entries (List.subset_append_right _ _))
  refine ⟨disk, results.trans ?_⟩
  rw [List.nil_append]
  exact reports_each o w.entries order d

theorem restarted_walk (d : Disk Content) (w : Walks Content) (noLinks : NoLinks o d w)
    (order : InOrder o w.entries) (front part : List (Entry Content))
    (failed : w.failed = some front) (partOf : PartOf o front w.entries part) :
    (extractWithRewriter o d w).disk = w.entries.foldl (settled o) d ∧
      (extractWithRewriter o d w).results =
        w.entries.filterMap (report o (part.foldl (settled o) d)) := by
  have inside : front ⊆ w.all := by
    intro e listed
    rw [Walks.all, failed]
    exact List.mem_append_left _ listed
  have within : w.entries ⊆ w.all := List.subset_append_right _ _
  have frontOrder : InOrder o front :=
    same_order o partOf.same (List.Pairwise.sublist partOf.sublist order)
  obtain ⟨firstDisk, -, going⟩ := walk_going o frontOrder.apart front (List.Subset.refl _)
    ⟨d, [], [], 0⟩ (going_start o d w noLinks front inside)
  rw [same_walk o partOf.same] at firstDisk
  -- the links of the failed walk are still known to the second
  have again : Going o w.entries (front.foldl (extractEntry o) ⟨d, [], [], 0⟩).restart := by
    constructor
    · intro link listed
      obtain ⟨e, known, kind, target⟩ := going.links link listed
      obtain ⟨other, here, same⟩ := (same_member partOf.same).1 e known
      exact ⟨other, partOf.sublist.subset here, same.kind ▸ kind, (same.target o link).mp target⟩
    · show ∀ e ∈ w.entries, ∀ p, Target o e p →
        Plain o (front.foldl (extractEntry o) ⟨d, [], [], 0⟩).disk e p
      rw [firstDisk]
      exact plain_walk o order.apart part partOf.sublist.subset d
        (going_start o d w noLinks w.entries within).plain
  obtain ⟨disk, results, -⟩ :=
    walk_going o order.apart w.entries (List.Subset.refl _) _ again
  have start : (front.foldl (extractEntry o) ⟨d, [], [], 0⟩).restart.disk =
      part.foldl (settled o) d := firstDisk
  have sequential : extractWithRewriter o d w = w.entries.foldl (extractEntry o)
      (front.foldl (extractEntry o) ⟨d, [], [], 0⟩).restart := by
    rw [extractWithRewriter, failed]
  rw [sequential, disk, results, start]
  refine ⟨walk_again o order.apart part w.entries (List.Subset.refl _) partOf.sublist.subset d, ?_⟩
  rw [reports_each o w.entries order]
  rfl

/-- The disk is always the same; what is reported is, if nothing was new or if
it is overwritten anyway. -/
theorem sequential_restart (d : Disk Content) (w : Walks Content) (orderly : Orderly o d w) :
    (extractWithRewriter o d w).disk = (extractWithRewriter o d (fullWalk w)).disk ∧
      ((extractWithRewriter o d w).results = (extractWithRewriter o d (fullWalk w)).results ↔
        o.overwrite = true ∨ NothingNew o d w) := by
  obtain ⟨noLinks, order, parts⟩ := orderly
  obtain ⟨fullDisk, fullResults⟩ := full_walk o d w noLinks order
  rw [fullDisk, fullResults]
  cases failed : w.failed with
  | none =>
      have same : w = fullWalk w := by
        cases w
        cases failed
        rfl
      have nothing : NothingNew o d w := by
        intro front known
        rw [failed] at known
        cases known
      rw [same, fullDisk, fullResults, ← same]
      exact ⟨rfl, iff_of_true rfl (Or.inr nothing)⟩
  | some front =>
      obtain ⟨part, partOf⟩ := parts front failed
      obtain ⟨disk, results⟩ := restarted_walk o d w noLinks order front part failed partOf
      have inside : part ⊆ w.entries := partOf.sublist.subset
      have members := same_member partOf.same
      rw [disk, results, filterMap_eq_iff _ _ (report_alike o _ d)]
      refine ⟨rfl, fun alike => ?_, fun clean e member => ?_⟩
      -- a file that was new is there now, and the report says so
      · refine or_iff_not_imp_left.mpr fun keeping other known e listed new => ?_
        rw [failed] at known
        cases known
        obtain ⟨second, here, same⟩ := members.1 e listed
        rcases (report_again o order.apart part inside second here d).mp
          (alike second (inside here)) with over_ | old
        · exact keeping over_
        · exact old ((same.new o d).mp new)
      · by_cases here : e ∈ part
        · refine (report_again o order.apart part inside e here d).mpr (clean.imp_right ?_)
          intro nothing new
          obtain ⟨first, listed, same⟩ := members.2 e here
          exact nothing front failed first listed ((same.new o d).mpr new)
        -- an entry the failed walk did not reach: a folder of it holds nothing it made
        · refine report_walk o order.apart part inside e member here
            (fun other listed p q target second within => ?_) d
          refine Or.inr (Bool.eq_false_iff.mpr fun selected => here ?_)
          exact partOf.whole e member other listed p q target second within selected

end

/-- The span walk has handed over "f" when it fails. -/
def failsAfterFirst : Walks Nat := ⟨some [plainFile "f"], [plainFile "f", plainFile "g"]⟩

def overwriting : Options := { intoFolder with overwrite := true }

theorem failsAfterFirst_orderly : Orderly overwriting emptyFolder failsAfterFirst := by
  have files (e : Entry Nat) (member : e ∈ failsAfterFirst.all) : e.kind.isLink = false := by
    rcases List.mem_cons.mp member with rfl | member
    · rfl
    · rcases List.mem_cons.mp member with rfl | member
      · rfl
      · rw [List.mem_singleton.mp member]
        rfl
  constructor
  · constructor
    · intro e _ p _ q _ _ target link
      unfold emptyFolder at link
      split at link
      · cases link
      · cases link
    · intro link member e _ kind
      rw [files link member] at kind
      cases kind
  · refine List.pairwise_cons.mpr ⟨?_, List.pairwise_singleton _ _⟩
    rintro later member p q ⟨-, -, first⟩ ⟨-, -, second⟩
    rw [List.mem_singleton.mp member] at second
    cases first
    cases second
    exact ⟨by decide +kernel, fun within => absurd within (by decide +kernel)⟩
  · rintro front failed
    cases failed
    refine ⟨[plainFile "f"], List.Forall₂.cons ⟨rfl, rfl, rfl⟩ List.Forall₂.nil,
      List.singleton_sublist.mpr List.mem_cons_self, ?_⟩
    rintro folder listed e member p q ⟨-, -, first⟩ ⟨-, -, second⟩ within -
    rcases List.mem_cons.mp listed with rfl | listed
    · exact List.mem_cons_self
    · rw [List.mem_singleton.mp listed] at first
      rw [List.mem_singleton.mp member] at second
      cases first
      cases second
      exact absurd within (by decide +kernel)

end ProxmoxBackup.RestartExtract
