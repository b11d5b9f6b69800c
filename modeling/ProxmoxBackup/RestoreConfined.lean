import ProxmoxBackup.ParallelExtract

/-! Where the changes of a restore land: both extractors of pbscommon/pxar_reader.go with
the owner and the time of each file, and gui/restore_dirtimes.go behind them. -/

namespace ProxmoxBackup.RestoreConfined

open ParallelExtract RestorePaths TransitionSystem

variable {Content : Type}

def isLink : Option (Node Content) → Bool
  | some (.link _) => true
  | _ => false

/-- One change: whether a link of this extraction is on its way, and where it lands. -/
structure Touch where
  through : Bool
  lands : Option Path

def through (d : Disk Content) (links : List Path) (route : Path) : Bool :=
  links.any fun link => link.isPrefixOf route && isLink (look d link)

/-- A change of the name itself: no link in its own place is followed. -/
def touchName (d : Disk Content) (links : List Path) (p : Path) : Touch :=
  ⟨through d links p.dropLast, place d p⟩

/-- A change of what the name leads to. -/
def touchFile (d : Disk Content) (links : List Path) (p : Path) : Touch :=
  ⟨through d links p, follow d maxLinks p⟩

structure Settings where
  options : Options
  restoreOwner : Bool
  keepNewTimes : Bool

/-- A job that settles has its file in place; owner, mode and time are still to come. The
folders are those that are left to do behind the extraction. -/
structure Restore (Content : Type) where
  pool : Pool Content
  settling : List (Job Content)
  folders : Option (List Path)
  touches : List Touch

inductive Action where
  | walk
  | write (worker : Nat)
  | settle (worker : Nat)
  | restart
  | close
  | folder

def isFolder : Kind Content → Bool
  | .dir => true
  | _ => false

def hasTime (a : Attributes) : Bool := a.modTimeSet || a.modTime != 0

/-- The length of a path as the string it is. -/
def pathLength (p : Path) : Nat := p.foldr (fun name rest => name.length + 1 + rest) 0

def deepestFirst (dirs : List Path) : List Path :=
  dirs.mergeSort fun p q => pathLength q ≤ pathLength p

def isFolderMade (r : Extracted Content) (keepsTime : Bool) : Bool :=
  isFolder r.entry.kind && (r.outcome == .made false || keepsTime && r.outcome == .made true)

def applyDirectoryTimes (extracted : List (Extracted Content)) : List Path :=
  deepestFirst ((extracted.filter fun r =>
    isFolderMade r false && hasTime r.entry.attributes).filterMap Extracted.path)

def applyDirectoryOwnership (extracted : List (Extracted Content)) : List Path :=
  deepestFirst ((extracted.filter fun r => isFolderMade r true).filterMap Extracted.path)

section

variable (c : Settings)

def deferred (extracted : List (Extracted Content)) : List Path :=
  (if c.keepNewTimes then [] else applyDirectoryTimes extracted) ++
    if c.restoreOwner then applyDirectoryOwnership extracted else []

/-- Where an entry goes that is neither dropped nor refused. -/
def entryTouches (d : Disk Content) (links : List Path) (e : Entry Content) : List Touch :=
  if matched c.options e && !isUnsafeArchivePath e.path then
    match c.options.rewriter e.path with
    | none => []
    | some p => if underCreatedLink links p then [] else [touchName d links p]
  else []

/-- Without workers each file is done before the next entry. -/
def busy (workers : Option Nat) (s : Restore Content) : Bool :=
  match workers with
  | none => !s.pool.pending.isEmpty || !s.settling.isEmpty
  | some workers => 3 * workers < s.pool.pending.length + s.settling.length

def walk (workers : Option Nat) (s : Restore Content) : Option (Restore Content) :=
  match s.pool.walk with
  | [] => none
  | e :: _ =>
      if busy workers s then none
      else
        let x := s.pool.extraction
        (walkStep c.options (workers.getD 0) s.pool).map fun pool =>
          { s with pool := pool, touches := s.touches ++ entryTouches c x.disk x.links e }

/-- The temporary file and its rename. -/
def write (workers : Option Nat) (s : Restore Content) (worker : Nat) : Option (Restore Content) :=
  match s.pool.pending[worker]? with
  | none => none
  | some job =>
      let x := s.pool.extraction
      (writeStep c.options (workers.getD 1 - s.settling.length) s.pool worker).map fun pool =>
        { s with
          pool := pool
          settling := s.settling ++ if (writeFile x.disk job).2 = .made false then [job] else []
          touches := s.touches ++ [touchName x.disk x.links job.fullPath] }

/-- applyModeOwner and os.Chtimes. -/
def settle (s : Restore Content) (worker : Nat) : Option (Restore Content) :=
  match s.settling[worker]? with
  | none => none
  | some job =>
      let x := s.pool.extraction
      some { s with
        settling := s.settling.eraseIdx worker
        touches := s.touches ++
          if c.restoreOwner || !c.keepNewTimes && hasTime job.entry.attributes then
            [touchFile x.disk x.links job.fullPath]
          else [] }

def close (s : Restore Content) : Option (Restore Content) :=
  match s.pool.walk, s.pool.pending, s.pool.later, s.settling, s.folders with
  | [], [], none, [], none => some { s with folders := some (deferred c s.pool.extraction.results) }
  | _, _, _, _, _ => none

/-- os.Chtimes or ApplyDirMetadata of one folder. -/
def folder (s : Restore Content) : Option (Restore Content) :=
  match s.folders with
  | some (p :: rest) =>
      let x := s.pool.extraction
      some { s with folders := some rest, touches := s.touches ++ [touchFile x.disk x.links p] }
  | _ => none

def step (workers : Option Nat) (s : Restore Content) : Action → Option (Restore Content)
  | .walk => walk c workers s
  | .write worker => write c workers s worker
  | .settle worker => settle c s worker
  | .restart =>
      if s.settling.isEmpty then (restartStep s.pool).map fun pool => { s with pool := pool }
      else none
  | .close => close c s
  | .folder => folder s

def restores (workers : Option Nat) (d : Disk Content) (w : Walks Content) :
    System (Restore Content) Action where
  start s := s = ⟨poolStart d w, [], none, []⟩
  step s action after := step c workers s action = some after

end

/-! What a restore must keep to. -/

def Safe (root : Path) (t : Touch) : Prop :=
  t.through = false ∧ ∀ spot, t.lands = some spot → root <+: spot

/-- Outside the root nothing is new but folders on the way to it. -/
def Frame (root : Path) (d₀ d : Disk Content) : Prop :=
  ∀ q, ¬root <+: q → d q = d₀ q ∨ d₀ q = none ∧ d q = some .dir ∧ q <+: root

structure Confined (root : Path) (d₀ : Disk Content) (s : Restore Content) : Prop where
  frame : Frame root d₀ s.pool.extraction.disk
  touches : ∀ t ∈ s.touches, Safe root t

/-- The steps that leave no change to a link of the extraction: a folder's entry does not
come to a link that leads to a folder, nor a link's to a file that is still to settle. -/
def Allowed (c : Settings) (s : Restore Content) : Action → Prop
  | .walk => ∀ e ∈ s.pool.walk.head?, ∀ p ∈ c.options.rewriter e.path, Target c.options e p →
      underCreatedLink s.pool.extraction.links p = false →
        (isFolder e.kind = true → (mkdirAll s.pool.extraction.disk p).isSome →
          isLink (look s.pool.extraction.disk p) = false) ∧
        (e.kind.isLink = true → c.options.overwrite = true →
          ∀ job ∈ s.settling, job.fullPath ≠ p)
  | _ => True

/-- The rewriter's places are the root and below, and the disk has no link there. -/
structure Lies (c : Settings) (root : Path) (d : Disk Content) : Prop where
  below : ∀ path p, isUnsafeArchivePath path = false → c.options.rewriter path = some p → root <+: p
  unlinked : ∀ q, q <+: root ∨ root <+: q → isLink (look d q) = false

/-! What a step can do to the disk. -/

section

variable {root p q : Path} {d₀ d after : Disk Content} {links : List Path}

theorem isLink_eq {node : Option (Node Content)} (is : isLink node = true) :
    ∃ target, node = some (.link target) := by
  cases node with
  | none => cases is
  | some node =>
      cases node with
      | link target => exact ⟨target, rfl⟩
      | file content => cases is
      | dir => cases is

/-- Folders on the way to p are made, and at p something else than a folder is replaced. -/
def Moves (d after : Disk Content) (p : Path) : Prop :=
  ∀ q, after q = d q ∨ (d q = none ∧ after q = some .dir ∧ q <+: p) ∨
    (q = p ∧ isDir (look d q) = false ∧ isDir (after q) = false)

theorem moves_of_changes {linked : Bool} (changes : Changes d after p linked) :
    Moves d after p := by
  intro q
  rcases changes q with same | made | ⟨_, here, vacant, target, put⟩
  · exact Or.inl same
  · exact Or.inr (Or.inl made)
  · refine Or.inr (Or.inr ⟨here, vacant, ?_⟩)
    rw [put]
    rfl

theorem moves_put (job : Job Content) : Moves d (put (puts d job) job d) job.fullPath := by
  intro q
  unfold put
  split
  · rename_i does
    unfold puts at does
    rw [Bool.and_eq_true, Bool.not_eq_true'] at does
    by_cases here : q = job.fullPath
    · subst here
      refine Or.inr (Or.inr ⟨rfl, does.2, ?_⟩)
      rw [setNode, if_pos rfl]
      rfl
    · exact Or.inl (if_neg here)
  · exact Or.inl rfl

/-- A folder stays one. -/
theorem Moves.folder (moves : Moves d after p) (there : look d q = some .dir) :
    look after q = some .dir := by
  unfold look at there ⊢
  split
  · rfl
  · rename_i named
    rw [if_neg named] at there
    rcases moves q with same | ⟨nothing, _, _⟩ | ⟨_, vacant, _⟩
    · rw [same, there]
    · rw [there] at nothing
      cases nothing
    · rw [look, if_neg named, there] at vacant
      cases vacant

/-- All of a path is folders. -/
def Stands (d : Disk Content) (p : Path) : Prop := ∀ q, q <+: p → look d q = some .dir

theorem Stands.moved {r : Path} (stands : Stands d r) (moves : Moves d after p) :
    Stands after r := fun q within => moves.folder (stands q within)

theorem ready_moved {r : Path} (ready : Ready d r) (moves : Moves d after p) : Ready after r :=
  fun q within proper => moves.folder (ready q within proper)

theorem Stands.unlinked (stands : Stands d p) : Unlinked d p := by
  intro q within named target link
  have folder := stands q within
  rw [look, if_neg named, link] at folder
  cases folder

theorem file_unlinked {content : Content} (ready : Ready d p)
    (there : d p = some (.file content)) : Unlinked d p := by
  intro q within named target link
  by_cases here : q = p
  · rw [here, there] at link
    cases link
  · have folder := ready q within here
    rw [look, if_neg named, link] at folder
    cases folder

/-! Where links are. -/

theorem look_link {target : Path} (named : q ≠ []) (link : d q = some (.link target)) :
    isLink (look d q) = true := by
  rw [look, if_neg named, link]
  rfl

theorem look_changed (moves : Moves d after p) (link : isLink (look after q) = true) :
    look after q = look d q ∨ q = p := by
  unfold look at link ⊢
  split
  · exact Or.inl rfl
  · rename_i named
    rw [if_neg named] at link
    rcases moves q with same | ⟨_, new, _⟩ | ⟨here, _, _⟩
    · exact Or.inl same
    · rw [new] at link
      cases link
    · exact Or.inr here

/-- Every link in the way is one that the extraction made, and the rest of the disk is as
it was. -/
structure Way (root : Path) (d₀ d : Disk Content) (links : List Path) : Prop where
  inRoot : ∀ link ∈ links, root <+: link
  linked : ∀ q, q <+: root ∨ root <+: q → isLink (look d q) = true → q ∈ links
  frame : Frame root d₀ d

theorem Way.unlinked (way : Way root d₀ d links) (below : root <+: p)
    (open_ : underCreatedLink links p = false) : Unlinked d p.dropLast := by
  intro q within named target link
  -- The link and the root both lie on the way to p, so it is one the extraction made.
  have prefix_ : q <+: p := within.trans (List.dropLast_prefix p)
  have member := way.linked q (List.prefix_or_prefix_of_prefix prefix_ below) (look_link named link)
  have refused : underCreatedLink links p = true := by
    apply List.any_eq_true.mpr
    refine ⟨q, member, ?_⟩
    simp [dropLast_proper within named, prefix_]
  rw [refused] at open_
  cases open_

theorem unlinked_whole (above : Unlinked d p.dropLast) (here : isLink (look d p) = false) :
    Unlinked d p := by
  intro q within named target link
  by_cases whole : q = p
  · subst whole
    rw [look, if_neg named, link] at here
    cases here
  · exact above q (within_parent within whole) named target link

theorem Way.moved {later : List Path} (way : Way root d₀ d links) (moves : Moves d after p)
    (below : root <+: p) (more : ∀ link ∈ links, link ∈ later)
    (only : ∀ link ∈ later, link ∈ links ∨ link = p)
    (known : isLink (look after p) = true → p ∈ later) : Way root d₀ after later := by
  constructor
  · intro link member
    cases only link member with
    | inl earlier => exact way.inRoot link earlier
    | inr here => exact here ▸ below
  · intro q near link
    cases look_changed moves link with
    | inl same => exact more q (way.linked q near (same ▸ link))
    | inr here =>
        subst here
        exact known link
  · intro q outside
    rcases moves q with same | ⟨nothing, new, within⟩ | ⟨here, _, _⟩
    · rw [same]
      exact way.frame q outside
    · -- A folder on the way to p that is not below the root is one on the way to the root.
      have onWay : q <+: root :=
        (List.prefix_or_prefix_of_prefix within below).resolve_right outside
      rcases way.frame q outside with same | ⟨_, made, _⟩
      · exact Or.inr ⟨same ▸ nothing, new, onWay⟩
      · rw [made] at nothing
        cases nothing
    · exact (outside (here ▸ below)).elim

/-! Changes that are safe. -/

theorem not_through (free : Unlinked d p) : through d links p = false := by
  apply List.any_eq_false.mpr
  intro link member
  rw [Bool.and_eq_true]
  intro both
  obtain ⟨target, is⟩ := isLink_eq both.2
  have within : link <+: p := List.isPrefixOf_iff_prefix.mp both.1
  unfold look at is
  split at is
  · cases is
  · rename_i named
    exact free link within named target is

theorem touchName_safe (free : Unlinked d p.dropLast) (below : root <+: p) :
    Safe root (touchName d links p) := by
  refine ⟨not_through free, ?_⟩
  intro spot lands
  rw [touchName, place_unlinked d p free] at lands
  exact Option.some.inj lands ▸ below

theorem touchFile_safe (free : Unlinked d p) (below : root <+: p) :
    Safe root (touchFile d links p) := by
  refine ⟨not_through free, ?_⟩
  intro spot lands
  rw [touchFile, follow_unlinked d maxLinks p free] at lands
  exact Option.some.inj lands ▸ below

/-- Without overwriting no link comes to a place that is taken. -/
theorem extractSymlink_keeps (o : Options) (goal : Path) {node : Node Content}
    (free : Unlinked d p.dropLast) (keeps : o.overwrite = false) (there : d p = some node) :
    (extractSymlink o d links p goal).2.1 = links := by
  unfold extractSymlink
  cases made : mkdirAll d p.dropLast with
  | none => rfl
  | some ready =>
      have still : Unlinked ready p.dropLast := unlinked_mkdirAll free made free
      have taken : (look ready p).isSome = true := by
        unfold look
        split
        · rfl
        · rcases (mkdirAll_effect d ready _ free made).1 p with same | ⟨nothing, _, _⟩
          · rw [same, there]
            rfl
          · rw [there] at nothing
            cases nothing
      dsimp only
      rw [lstat_unlinked ready p still, taken, keeps]
      rfl

/-! What holds between the steps. -/

structure Kept (root : Path) (d₀ d : Disk Content) (links : List Path)
    (results : List (Extracted Content)) (pending settling : List (Job Content))
    (folders : Option (List Path)) (touches : List Touch) : Prop where
  way : Way root d₀ d links
  made : ∀ r ∈ results, isFolder r.entry.kind = true → ∀ p keep, r.path = some p →
    r.outcome = .made keep → root <+: p ∧ Stands d p
  pending : ∀ job ∈ pending, root <+: job.fullPath ∧ Ready d job.fullPath ∧
    isFolder job.entry.kind = false
  settling : ∀ job ∈ settling, root <+: job.fullPath ∧ Ready d job.fullPath ∧
    ∃ content, d job.fullPath = some (.file content)
  folders : ∀ ps, folders = some ps → ∀ p ∈ ps, root <+: p ∧ Stands d p
  touches : ∀ t ∈ touches, Safe root t

variable {results : List (Extracted Content)} {pending settling : List (Job Content)}
  {folders : Option (List Path)} {touches : List Touch} {later : List Path}

theorem Kept.moved (kept : Kept root d₀ d links results pending settling folders touches)
    (moves : Moves d after p) (way : Way root d₀ after later)
    (files : ∀ job ∈ settling, ∃ content, after job.fullPath = some (.file content)) :
    Kept root d₀ after later results pending settling folders touches := by
  constructor
  · exact way
  · intro r member is place keep at_ outcome
    obtain ⟨below, stands⟩ := kept.made r member is place keep at_ outcome
    exact ⟨below, stands.moved moves⟩
  · intro job member
    obtain ⟨below, ready, file⟩ := kept.pending job member
    exact ⟨below, ready_moved ready moves, file⟩
  · intro job member
    obtain ⟨below, ready, _⟩ := kept.settling job member
    exact ⟨below, ready_moved ready moves, files job member⟩
  · intro ps is place member
    obtain ⟨below, stands⟩ := kept.folders ps is place member
    exact ⟨below, stands.moved moves⟩
  · exact kept.touches

/-- A file still to settle is not where folders are made. -/
theorem Kept.file_stays (kept : Kept root d₀ d links results pending settling folders touches)
    {job : Job Content} (member : job ∈ settling) (moves : Moves d after p)
    (here : job.fullPath = p → ∃ content, after p = some (.file content)) :
    ∃ content, after job.fullPath = some (.file content) := by
  obtain ⟨_, _, content, there⟩ := kept.settling job member
  rcases moves job.fullPath with same | ⟨nothing, _, _⟩ | ⟨same, _, _⟩
  · exact ⟨content, same.trans there⟩
  · rw [there] at nothing
    cases nothing
  · rw [same]
    exact here same

theorem Kept.result (kept : Kept root d₀ d links results pending settling folders touches)
    (r : Extracted Content) (new : isFolder r.entry.kind = true → ∀ p keep, r.path = some p →
      r.outcome = .made keep → root <+: p ∧ Stands d p) :
    Kept root d₀ d links (results ++ [r]) pending settling folders touches := by
  refine { kept with made := ?_ }
  intro other member
  cases List.mem_append.mp member with
  | inl earlier => exact kept.made other earlier
  | inr last => exact List.mem_singleton.mp last ▸ new

theorem Kept.touched (kept : Kept root d₀ d links results pending settling folders touches)
    (more : List Touch) (safe : ∀ t ∈ more, Safe root t) :
    Kept root d₀ d links results pending settling folders (touches ++ more) := by
  refine { kept with touches := ?_ }
  intro t member
  cases List.mem_append.mp member with
  | inl earlier => exact kept.touches t earlier
  | inr new => exact safe t new

/-! The steps. -/

/-- Where no link is made, what is at p was there or is a folder now. -/
theorem old_link (way : Way root d₀ d links) (below : root <+: p)
    (changes : Changes d after p false) (link : isLink (look after p) = true) : p ∈ links := by
  apply way.linked p (Or.inr below)
  unfold look at link ⊢
  split
  · rename_i named
    rw [if_pos named] at link
    exact link
  · rename_i named
    rw [if_neg named] at link
    rcases changes p with still | ⟨_, new, _⟩ | ⟨wrong, _⟩
    · exact still ▸ link
    · rw [new] at link
      cases link
    · cases wrong

/-- Folders on the way to p, and nothing else. -/
theorem Kept.quiet (kept : Kept root d₀ d links results pending settling folders touches)
    (below : root <+: p) (changes : Changes d after p false) :
    Kept root d₀ after links results pending settling folders touches := by
  have moves := moves_of_changes changes
  have way := kept.way.moved moves below (fun _ member => member) (fun _ member => Or.inl member)
    (old_link kept.way below changes)
  apply kept.moved moves way
  intro job member
  obtain ⟨_, _, content, there⟩ := kept.settling job member
  rcases changes job.fullPath with still | ⟨nothing, _, _⟩ | ⟨wrong, _⟩
  · exact ⟨content, still.trans there⟩
  · rw [there] at nothing
    cases nothing
  · cases wrong

theorem kept_folders (kept : Kept root d₀ d links results pending settling folders touches)
    {above : Path} (below : root <+: p) (free : Unlinked d above) (within : above <+: p)
    (made : mkdirAll d above = some after) :
    Kept root d₀ after links results pending settling folders touches :=
  kept.quiet below (changes_mkdirAll d after p above false free made within)

theorem kept_link (o : Options) (e : Entry Content) (goal : Path)
    (kept : Kept root d₀ d links results pending settling folders touches)
    (below : root <+: p) (open_ : underCreatedLink links p = false) (kind : e.kind = .link goal)
    (apart : o.overwrite = true → ∀ job ∈ settling, job.fullPath ≠ p) :
    Kept root d₀ (extractSymlink o d links p goal).1 (extractSymlink o d links p goal).2.1
      (results ++ [⟨e, some p, (extractSymlink o d links p goal).2.2⟩]) pending settling folders
      touches := by
  have free := kept.way.unlinked below open_
  have plain : isFolder e.kind = true → False := by
    rw [kind]
    exact nofun
  obtain ⟨changes, which⟩ := extractSymlink_changes o d links p goal free
  apply Kept.result _ _ fun is => (plain is).elim
  rcases which with ⟨same, quiet⟩ | new
  · rw [same]
    exact kept.quiet below quiet
  · have moves := moves_of_changes changes
    have way := kept.way.moved moves below
      (fun _ member => new ▸ List.mem_cons_of_mem p member)
      (fun link member => (List.mem_cons.mp (new ▸ member)).symm)
      (fun _ => new ▸ List.mem_cons_self)
    apply kept.moved moves way
    intro job member
    apply kept.file_stays member moves
    intro here
    cases over_ : o.overwrite with
    | true => exact (apart over_ job member here).elim
    | false =>
        -- The file is in the way of the link, which then is not made.
        obtain ⟨_, _, content, there⟩ := kept.settling job member
        rw [here] at there
        have same : (extractSymlink o d links p goal).2.1 = links :=
          extractSymlink_keeps o goal free over_ there
        rw [new] at same
        exact (List.cons_ne_self p links same).elim

/-- An entry is dropped, refused with a skip, or goes to its target. -/
theorem handle_target (o : Options) (e : Entry Content) :
    handle o d links e = .dropped ∨
      (∃ path reason expected,
        handle o d links e = .done d links ⟨e, path, .skipped reason expected⟩) ∨
      ∃ p, Target o e p ∧ underCreatedLink links p = false := by
  unfold handle Target
  cases matched o e with
  | false => exact Or.inl rfl
  | true =>
      cases isUnsafeArchivePath e.path with
      | true => exact Or.inr (Or.inl ⟨_, _, _, rfl⟩)
      | false =>
          cases o.rewriter e.path with
          | none => exact Or.inl rfl
          | some p =>
              cases refused : underCreatedLink links p with
              | true =>
                  refine Or.inr (Or.inl ⟨some p, .throughLink, false, ?_⟩)
                  simp [refused]
              | false => exact Or.inr (Or.inr ⟨p, ⟨rfl, rfl, rfl⟩, refused⟩)

/-- What an entry comes to keeps what holds. -/
def Handles (root : Path) (d₀ : Disk Content) (links : List Path)
    (results : List (Extracted Content)) (pending settling : List (Job Content))
    (folders : Option (List Path)) (touches : List Touch) : Handled Content → Prop
  | .dropped => True
  | .done after later result =>
      Kept root d₀ after later (results ++ [result]) pending settling folders touches
  | .write after job => Kept root d₀ after links results (pending ++ [job]) settling folders touches

theorem handle_kept (o : Options) (e : Entry Content)
    (kept : Kept root d₀ d links results pending settling folders touches)
    (below : ∀ p, Target o e p → root <+: p)
    (allowed : ∀ p, Target o e p → underCreatedLink links p = false →
      (isFolder e.kind = true → (mkdirAll d p).isSome → isLink (look d p) = false) ∧
      (e.kind.isLink = true → o.overwrite = true → ∀ job ∈ settling, job.fullPath ≠ p)) :
    Handles root d₀ links results pending settling folders touches (handle o d links e) := by
  rcases handle_target o e with dropped | ⟨path, reason, expected, refused⟩ | ⟨p, target, open_⟩
  · rw [dropped]
    trivial
  · rw [refused]
    exact kept.result _ fun _ _ _ _ wrong => by cases wrong
  have free := kept.way.unlinked (below p target) open_
  obtain ⟨aside, apart⟩ := allowed p target open_
  cases kind : e.kind with
  | link goal =>
      rw [handle_link o d links e p goal target open_ kind]
      apply kept_link o e goal kept (below p target) open_ kind
      exact apart (by rw [kind]; rfl)
  | dir =>
      rw [handle_dir o d links e p target open_ kind]
      cases made : mkdirAll d p with
      | none => exact kept.result _ fun _ _ _ _ wrong => by cases wrong
      | some after =>
          -- MkdirAll has gone through, so no link stands in the folder's own place.
          have here : isLink (look d p) = false := by
            apply aside
            · rw [kind]
              rfl
            · rw [made]
              rfl
          have whole := unlinked_whole free here
          have next := kept_folders kept (below p target) whole (List.prefix_refl p) made
          apply next.result
          intro _ q keep at_ _
          cases at_
          exact ⟨below p target, (mkdirAll_effect d after p whole made).2⟩
  | file content size readable =>
      rw [handle_file o d links e p target open_ content size readable kind]
      cases made : mkdirAll d p.dropLast with
      | none => exact kept.result _ fun _ _ _ _ wrong => by cases wrong
      | some after =>
          have next := kept_folders kept (below p target) free (List.dropLast_prefix p) made
          dsimp only
          split
          · exact next.result _ fun _ _ _ _ wrong => by cases wrong
          · refine { next with pending := ?_ }
            intro job member
            cases List.mem_append.mp member with
            | inl earlier => exact next.pending job earlier
            | inr last =>
                rw [List.mem_singleton.mp last]
                refine ⟨below p target, ?_, ?_⟩
                · intro q within proper
                  exact (mkdirAll_effect d after _ free made).2 q (within_parent within proper)
                · show isFolder e.kind = false
                  rw [kind]
                  rfl

theorem entryTouches_safe (c : Settings) (e : Entry Content) (way : Way root d₀ d links)
    (below : ∀ p, Target c.options e p → root <+: p) :
    ∀ t ∈ entryTouches c d links e, Safe root t := by
  intro t member
  unfold entryTouches at member
  split at member
  · rename_i chosen
    rw [Bool.and_eq_true, Bool.not_eq_true'] at chosen
    split at member
    · cases member
    · rename_i p placed
      split at member
      · cases member
      · rename_i open_
        have is := List.mem_singleton.mp member
        have root_ := below p ⟨chosen.1, chosen.2, placed⟩
        rw [is]
        exact touchName_safe (way.unlinked root_ (by simpa using open_)) root_
  · cases member

/-- A file comes to its place, and is then one that is still to settle. -/
theorem kept_file (kept : Kept root d₀ d links results pending settling folders touches)
    (job : Job Content) (member : job ∈ pending) (rest : List (Job Content))
    (fewer : ∀ other ∈ rest, other ∈ pending) :
    Kept root d₀ (writeFile d job).1 links (results ++ [job.result (writeFile d job).2]) rest
      (settling ++ if (writeFile d job).2 = .made false then [job] else []) folders touches := by
  obtain ⟨below, ready, file⟩ := kept.pending job member
  have moves : Moves d (put (puts d job) job d) job.fullPath := moves_put job
  have placed (does : puts d job = true) :
      put (puts d job) job d job.fullPath = some (.file job.content) := by
    rw [does]
    exact if_pos rfl
  have way : Way root d₀ (put (puts d job) job d) links := by
    apply kept.way.moved moves below (fun _ is => is) (fun _ is => Or.inl is)
    intro link
    cases does : puts d job with
    | false =>
        rw [does] at link
        exact kept.way.linked job.fullPath (Or.inr below) link
    | true =>
        have there := placed does
        unfold look at link
        split at link
        · cases link
        · rw [there] at link
          cases link
  -- Another file of the same place is replaced, but by a file again.
  have files : ∀ other ∈ settling,
      ∃ content, put (puts d job) job d other.fullPath = some (.file content) := by
    intro other settles
    apply kept.file_stays settles moves
    intro here
    cases does : puts d job with
    | true => exact ⟨job.content, does ▸ placed does⟩
    | false =>
        obtain ⟨_, _, content, there⟩ := kept.settling other settles
        exact ⟨content, here ▸ there⟩
  rw [writeFile_ready d job ready]
  have next := (kept.moved moves way files).result (job.result (written d job)) fun is => by
    rw [Job.result, file] at is
    cases is
  refine { next with pending := fun other is => next.pending other (fewer other is), settling := ?_ }
  intro other is
  cases List.mem_append.mp is with
  | inl earlier => exact next.settling other earlier
  | inr last =>
      dsimp only at last
      split at last
      · rename_i made
        have does : puts d job = true := by
          unfold written at made
          unfold puts
          cases readable : job.readable with
          | false =>
              rw [readable] at made
              cases made
          | true =>
              cases taken : isDir (look d job.fullPath) with
              | false => rfl
              | true =>
                  rw [readable, taken] at made
                  cases made
        rw [List.mem_singleton.mp last]
        exact ⟨below, ready_moved ready moves, job.content, placed does⟩
      · cases last

theorem deferred_made (c : Settings) (extracted : List (Extracted Content)) (place : Path)
    (member : place ∈ deferred c extracted) :
    ∃ r ∈ extracted, isFolder r.entry.kind = true ∧ r.path = some place ∧
      ∃ keep, r.outcome = .made keep := by
  -- Both lists are picked from the results by one filter, then sorted.
  have sorted (keepsTime : Bool) (also : Extracted Content → Bool)
      (is : place ∈ deepestFirst ((extracted.filter fun r =>
        isFolderMade r keepsTime && also r).filterMap Extracted.path)) :
      ∃ r ∈ extracted, isFolder r.entry.kind = true ∧ r.path = some place ∧
        ∃ keep, r.outcome = .made keep := by
    rw [deepestFirst, List.mem_mergeSort] at is
    obtain ⟨r, chosen, at_⟩ := List.mem_filterMap.mp is
    obtain ⟨listed, made⟩ := List.mem_filter.mp chosen
    rw [Bool.and_eq_true, isFolderMade, Bool.and_eq_true, Bool.or_eq_true] at made
    obtain ⟨⟨folder, outcome⟩, _⟩ := made
    refine ⟨r, listed, folder, at_, ?_⟩
    cases outcome with
    | inl plain => exact ⟨false, eq_of_beq plain⟩
    | inr keeps =>
        rw [Bool.and_eq_true] at keeps
        exact ⟨true, eq_of_beq keeps.2⟩
  cases List.mem_append.mp member with
  | inl times =>
      split at times
      · cases times
      · exact sorted false _ times
  | inr owners =>
      split at owners
      · apply sorted true fun _ => true
        simpa [applyDirectoryOwnership] using owners
      · cases owners

/-! A whole restore. -/

def Holds (root : Path) (d₀ : Disk Content) (s : Restore Content) : Prop :=
  Kept root d₀ s.pool.extraction.disk s.pool.extraction.links s.pool.extraction.results
    s.pool.pending s.settling s.folders s.touches

theorem kept_empty (way : Way root d₀ d links) : Kept root d₀ d links [] [] [] none [] where
  way := way
  made _ member := (List.not_mem_nil member).elim
  pending _ member := (List.not_mem_nil member).elim
  settling _ member := (List.not_mem_nil member).elim
  folders _ is := by cases is
  touches _ member := (List.not_mem_nil member).elim

theorem holds_start {c : Settings} (w : Walks Content) (lies : Lies c root d) :
    Holds root d (Restore.mk (poolStart d w) [] none []) := by
  have way : Way root d d [] := by
    refine ⟨nofun, ?_, fun _ _ => Or.inl rfl⟩
    intro q near link
    rw [lies.unlinked q near] at link
    cases link
  unfold Holds poolStart
  cases w.failed with
  | none => exact kept_empty way
  | some front => exact kept_empty way

end

section

variable {c : Settings} {root : Path} {d₀ : Disk Content} {workers : Option Nat}
  {s after : Restore Content}

theorem holds_walk (holds : Holds root d₀ s)
    (below : ∀ path p, isUnsafeArchivePath path = false → c.options.rewriter path = some p →
      root <+: p)
    (allowed : Allowed c s .walk) (taken : walk c workers s = some after) :
    Holds root d₀ after := by
  unfold walk at taken
  split at taken
  · cases taken
  rename_i e rest left
  split at taken
  · cases taken
  obtain ⟨pool, moved, is⟩ := Option.map_eq_some_iff.mp taken
  subst is
  have under (p : Path) (target : Target c.options e p) : root <+: p :=
    below e.path p target.2.1 target.2.2
  have first : e ∈ s.pool.walk.head? := by
    rw [left]
    rfl
  -- What is allowed of the step speaks of the first entry, which is this one.
  have handled := handle_kept c.options e holds under fun p target open_ =>
    allowed e first p target.2.2 target open_
  have safe := entryTouches_safe c e holds.way under
  unfold walkStep at moved
  rw [left] at moved
  dsimp only at moved
  split at moved
  · cases moved
  split at moved
  · cases moved
    exact holds.touched _ safe
  · rename_i disk links result done
    rw [done] at handled
    cases moved
    exact Kept.touched handled _ safe
  · rename_i disk job done
    rw [done] at handled
    cases moved
    exact Kept.touched handled _ safe

theorem holds_write (worker : Nat) (holds : Holds root d₀ s)
    (taken : write c workers s worker = some after) : Holds root d₀ after := by
  unfold write at taken
  split at taken
  · cases taken
  rename_i job there
  obtain ⟨pool, moved, is⟩ := Option.map_eq_some_iff.mp taken
  subst is
  have member : job ∈ s.pool.pending := List.mem_of_getElem? there
  obtain ⟨below, ready, _⟩ := holds.pending job member
  have safe : ∀ t ∈ [touchName s.pool.extraction.disk s.pool.extraction.links job.fullPath],
      Safe root t := by
    intro t last
    rw [List.mem_singleton.mp last]
    exact touchName_safe ready.unlinked below
  unfold writeStep at moved
  rw [there] at moved
  dsimp only at moved
  split at moved
  · cases moved
    exact (kept_file holds job member _ fun _ is => List.mem_of_mem_eraseIdx is).touched _ safe
  · cases moved

theorem holds_settle (worker : Nat) (holds : Holds root d₀ s)
    (taken : settle c s worker = some after) : Holds root d₀ after := by
  unfold settle at taken
  split at taken
  · cases taken
  rename_i job there
  have member : job ∈ s.settling := List.mem_of_getElem? there
  obtain ⟨below, ready, content, placed⟩ := holds.settling job member
  cases taken
  have fewer : Holds root d₀ { s with settling := s.settling.eraseIdx worker } :=
    { holds with settling := fun other is => holds.settling other (List.mem_of_mem_eraseIdx is) }
  apply Kept.touched fewer
  intro t is
  split at is
  · rw [List.mem_singleton.mp is]
    exact touchFile_safe (file_unlinked ready placed) below
  · cases is

theorem holds_restart (holds : Holds root d₀ s) {pool : Pool Content}
    (taken : restartStep s.pool = some pool) : Holds root d₀ { s with pool := pool } := by
  unfold restartStep at taken
  split at taken
  · cases taken
    exact { holds with
      made := fun _ member => (List.not_mem_nil member).elim
      pending := fun _ member => (List.not_mem_nil member).elim }
  · cases taken

theorem holds_close (holds : Holds root d₀ s) (taken : close c s = some after) :
    Holds root d₀ after := by
  unfold close at taken
  split at taken
  · cases taken
    refine { holds with folders := ?_ }
    intro ps is place member
    cases is
    obtain ⟨r, listed, folder, at_, keep, outcome⟩ := deferred_made c _ place member
    exact holds.made r listed folder place keep at_ outcome
  · cases taken

theorem holds_folder (holds : Holds root d₀ s) (taken : folder s = some after) :
    Holds root d₀ after := by
  unfold folder at taken
  split at taken
  · rename_i place rest left
    cases taken
    obtain ⟨below, stands⟩ := holds.folders _ left place List.mem_cons_self
    have fewer : Holds root d₀ { s with folders := some rest } := by
      refine { holds with folders := ?_ }
      intro ps is other member
      cases is
      exact holds.folders _ left other (List.mem_cons_of_mem place member)
    apply Kept.touched fewer
    intro t is
    rw [List.mem_singleton.mp is]
    exact touchFile_safe stands.unlinked below
  · cases taken

theorem holds_step (lies : Lies c root d₀) (action : Action) (holds : Holds root d₀ s)
    (allowed : Allowed c s action) (taken : step c workers s action = some after) :
    Holds root d₀ after := by
  cases action with
  | walk => exact holds_walk holds lies.below allowed taken
  | write worker => exact holds_write worker holds taken
  | settle worker => exact holds_settle worker holds taken
  | restart =>
      rw [step] at taken
      split at taken
      · obtain ⟨pool, restarted, is⟩ := Option.map_eq_some_iff.mp taken
        exact is ▸ holds_restart holds restarted
      · cases taken
  | close => exact holds_close holds taken
  | folder => exact holds_folder holds taken

end

instance (o : Options) (e : Entry Content) (p : Path) : Decidable (Target o e p) :=
  inferInstanceAs (Decidable (_ ∧ _ ∧ _))

instance (c : Settings) (s : Restore Content) : (action : Action) → Decidable (Allowed c s action)
  | .walk => inferInstanceAs (Decidable (∀ e ∈ s.pool.walk.head?,
      ∀ p ∈ c.options.rewriter e.path, Target c.options e p → _ → _ ∧ _))
  | .write _ => isTrue trivial
  | .settle _ => isTrue trivial
  | .restart => isTrue trivial
  | .close => isTrue trivial
  | .folder => isTrue trivial

def attributes : Attributes := ⟨0o755, 0, 0, true, 0, 0⟩

def folderAt (path : String) : Entry Nat := ⟨named path, .dir, attributes, 100⟩

def linkAt (path : String) : Entry Nat := ⟨named path, .link [named "etc"], attributes, 100⟩

def replacing : Settings := ⟨{ intoFolder with overwrite := true }, true, false⟩

/-- The folder "r" to restore into, and "etc" beside it. -/
def besideEtc : Disk Nat := fun p => if p = [named "r"] ∨ p = [named "etc"] then some .dir else none

theorem besideEtc_lies : Lies replacing [named "r"] besideEtc := by
  constructor
  · intro path p _ placed
    cases placed
    exact List.prefix_append [named "r"] _
  · intro q _
    unfold look besideEtc
    split
    · rfl
    · split
      · rfl
      · rfl

def loose (t : Touch) : Bool := t.through && t.lands == some [named "etc"]

theorem loose_unsafe {t : Touch} (is : loose t = true) : ¬Safe [named "r"] t := by
  intro safe
  rw [loose, Bool.and_eq_true, safe.1] at is
  cases is.1

theorem loose_reached (workers : Option Nat) (w : Walks Nat) (actions : List Action)
    (executed : (actions.foldlM (step replacing workers)
      (Restore.mk (poolStart besideEtc w) [] none [])).map (fun s => s.touches.any loose) =
        some true) :
    ∃ s, Reachable (restores replacing workers besideEtc w) s ∧ ¬Confined [named "r"] besideEtc s := by
  obtain ⟨s, ran, found⟩ := Option.map_eq_some_iff.mp executed
  obtain ⟨t, member, is⟩ := List.any_eq_true.mp found
  have run : Run (restores replacing workers besideEtc w)
      (Restore.mk (poolStart besideEtc w) [] none []) actions s :=
    run_of_foldlM (step replacing workers) (fun _ _ _ taken => taken) ran
  exact ⟨s, ⟨_, actions, rfl, run⟩, fun confined => loose_unsafe is (confined.touches t member)⟩

/-- A folder's entry at a link of the archive: its time goes where the link leads. -/
def folderAtLink : Walks Nat := ⟨none, [linkAt "a", folderAt "a"]⟩

/-- A link's entry at a file that a worker has renamed into place: so does the file's. -/
def linkAtFile : Walks Nat := ⟨none, [plainFile "a", linkAt "a"]⟩

/-- A folder, a file and a link in it, and an entry through the link, which is refused. -/
def tree : Walks Nat := ⟨none,
  [folderAt "d", plainFile "d/f", linkAt "d/l", folderAt "d/l/x"]⟩

end ProxmoxBackup.RestoreConfined
