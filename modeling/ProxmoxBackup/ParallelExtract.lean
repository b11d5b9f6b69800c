import Mathlib.Data.List.Perm.Basic
import ProxmoxBackup.RestorePaths
import ProxmoxBackup.TransitionSystem

/-! ExtractWithRewriter and ExtractWithRewriterParallel of
pbscommon/pxar_reader.go on a disk with links, on Linux. An archive is what its
walks hand over: the entries of a span walk that failed, if there was one, and
those of the walk that was not started again. A file's temporary has a name
nobody else uses, so making it, filling it and renaming it is one step; whether
its content can be read is told beforehand. The owner, time and hash settings
are the same for both functions and are left out. -/

namespace ProxmoxBackup.ParallelExtract

open RestorePaths TransitionSystem

abbrev Path := List Text

variable {Content : Type}

inductive Node (Content : Type) where
  | file (content : Content)
  | link (target : Path)
  | dir

/-- A place that holds no node holds nothing below it either. -/
abbrev Disk (Content : Type) := Path → Option (Node Content)

def isDir : Option (Node Content) → Bool
  | some .dir => true
  | _ => false

/-- The root is a folder. -/
def look (d : Disk Content) (p : Path) : Option (Node Content) :=
  if p = [] then some .dir else d p

def setNode (d : Disk Content) (p : Path) (node : Node Content) : Disk Content :=
  fun q => if q = p then some node else d q

/-! Following links. -/

/-- Where the first link on the way leads, and what is left to go from there. -/
def firstLink (d : Disk Content) (here : Path) : List Text → Option (Path × List Text)
  | [] => none
  | name :: rest =>
      match d (here ++ [name]) with
      | some (.link target) => some (target, rest)
      | _ => firstLink d (here ++ [name]) rest

/-- The path without links; a way through more than `links` of them is refused. -/
def follow (d : Disk Content) (links : Nat) (p : Path) : Option Path :=
  match firstLink d [] p with
  | none => some p
  | some (target, rest) =>
      match links with
      | 0 => none
      | links + 1 => follow d links (target ++ rest)

def maxLinks : Nat := 40

/-- The folder of a path followed, its last name not. -/
def place (d : Disk Content) (p : Path) : Option Path :=
  match p.getLast? with
  | none => some []
  | some name => (follow d maxLinks p.dropLast).map (· ++ [name])

def lstat (d : Disk Content) (p : Path) : Option (Node Content) := (place d p).bind (look d)

def stat (d : Disk Content) (p : Path) : Option (Node Content) := (follow d maxLinks p).bind (look d)

/-- os.MkdirAll from a folder that is there. It fails at what is there and leads
to no folder, before it has made anything. -/
def makeFrom (d : Disk Content) (here : Path) : List Text → Option (Disk Content)
  | [] => some d
  | name :: rest =>
      match d (here ++ [name]) with
      | some .dir => makeFrom d (here ++ [name]) rest
      | some (.file _) => none
      | some (.link _) =>
          match follow d maxLinks (here ++ [name]) with
          | some there => if isDir (look d there) then makeFrom d there rest else none
          | none => none
      | none => makeFrom (setNode d (here ++ [name]) .dir) (here ++ [name]) rest

def mkdirAll (d : Disk Content) (p : Path) : Option (Disk Content) := makeFrom d [] p

/-! What is extracted. -/

inductive Kind (Content : Type) where
  | file (content : Content) (size : Nat) (readable : Bool)
  | dir
  | link (target : Path)

structure Attributes where
  mode : Nat
  modTime : Int
  modNanos : Nat
  modTimeSet : Bool
  uid : Nat
  gid : Nat

structure Entry (Content : Type) where
  path : Text
  kind : Kind Content
  attributes : Attributes
  weight : Int

inductive Reason where
  | unsafePath
  | throughLink
  | mkdir
  | mkdirParent
  | alreadyExists
  | directoryAtLink
  | symlink
  | create
  | write
  | rename
  deriving DecidableEq

inductive Outcome where
  | made (keepOwnTime : Bool)
  | skipped (reason : Reason) (expected : Bool)
  deriving DecidableEq

/-- What is reported of an entry, and of which path: a refused entry by its own. -/
structure Extracted (Content : Type) where
  entry : Entry Content
  path : Option Path
  outcome : Outcome

structure Options where
  rewriter : Text → Option Path
  includes : List Text
  overwrite : Bool
  selectedProgress : Bool

structure Job (Content : Type) where
  entry : Entry Content
  fullPath : Path
  content : Content
  readable : Bool

section

variable (o : Options)

def matched (e : Entry Content) : Bool := pathMatches e.path o.includes

def progressWeight (e : Entry Content) : Int :=
  if !o.selectedProgress then e.weight
  else if !matched o e then 0
  else match e.kind with
    | .file _ size _ => size
    | _ => 0

/-- A path below a link that was made from the archive. -/
def underCreatedLink (links : List Path) (p : Path) : Bool :=
  links.any fun link => link.isPrefixOf p && link ≠ p

def folderKeepsOwnTime (d : Disk Content) (archivePath : Text) (fullPath : Path) : Bool :=
  if !pathSelected archivePath o.includes then true
  else if o.overwrite then false
  else (lstat d fullPath).isSome

def extractSymlink (d : Disk Content) (links : List Path) (fullPath target : Path) :
    Disk Content × List Path × Outcome :=
  match mkdirAll d fullPath.dropLast with
  | none => (d, links, .skipped .mkdirParent false)
  | some ready =>
      -- the link itself, not what it leads to
      let there := lstat ready fullPath
      if there.isSome && !o.overwrite then (ready, links, .skipped .alreadyExists true)
      else if isDir there then (ready, links, .skipped .directoryAtLink false)
      else match place ready fullPath with
        | none => (ready, links, .skipped .symlink false)
        | some spot => (setNode ready spot (.link target), fullPath :: links, .made false)

/-- What the walking side does with an entry, up to where a file is written. -/
inductive Handled (Content : Type) where
  | dropped
  | done (disk : Disk Content) (links : List Path) (result : Extracted Content)
  | write (disk : Disk Content) (job : Job Content)

def handle (d : Disk Content) (links : List Path) (e : Entry Content) : Handled Content :=
  if !matched o e then .dropped
  else if isUnsafeArchivePath e.path then .done d links ⟨e, none, .skipped .unsafePath false⟩
  else match o.rewriter e.path with
    | none => .dropped
    | some fullPath =>
        if underCreatedLink links fullPath then
          .done d links ⟨e, some fullPath, .skipped .throughLink false⟩
        else match e.kind with
          | .link target =>
              let (disk, links, outcome) := extractSymlink o d links fullPath target
              .done disk links ⟨e, some fullPath, outcome⟩
          | .dir =>
              let keepTime := folderKeepsOwnTime o d e.path fullPath
              match mkdirAll d fullPath with
              | none => .done d links ⟨e, some fullPath, .skipped .mkdir false⟩
              | some made => .done made links ⟨e, some fullPath, .made keepTime⟩
          | .file content _ readable =>
              match mkdirAll d fullPath.dropLast with
              | none => .done d links ⟨e, some fullPath, .skipped .mkdirParent false⟩
              | some ready =>
                  -- looked at before the files still waiting are written
                  if !o.overwrite && (stat ready fullPath).isSome then
                    .done ready links ⟨e, some fullPath, .skipped .alreadyExists true⟩
                  else .write ready ⟨e, fullPath, content, readable⟩

end

/-- extractOneFileParallel, and the same steps of ExtractWithRewriter: a
temporary beside the target, renamed over it. -/
def writeFile (d : Disk Content) (job : Job Content) : Disk Content × Outcome :=
  match place d job.fullPath with
  | none => (d, .skipped .create false)
  | some spot =>
      if !isDir (look d spot.dropLast) then (d, .skipped .create false)
      else if !job.readable then (d, .skipped .write false)
      else if isDir (look d spot) then (d, .skipped .rename false)
      else (setNode d spot (.file job.content), .made false)

def Job.result (job : Job Content) (outcome : Outcome) : Extracted Content :=
  ⟨job.entry, some job.fullPath, outcome⟩

/-! One file at a time. -/

structure Extraction (Content : Type) where
  disk : Disk Content
  links : List Path
  results : List (Extracted Content)
  progress : Int

section

variable (o : Options)

def extractEntry (s : Extraction Content) (e : Entry Content) : Extraction Content :=
  let progress := s.progress + progressWeight o e
  match handle o s.disk s.links e with
  | .dropped => { s with progress := progress }
  | .done disk links result =>
      { disk := disk, links := links, results := s.results ++ [result], progress := progress }
  | .write disk job =>
      let (written, outcome) := writeFile disk job
      { disk := written, links := s.links
        results := s.results ++ [job.result outcome], progress := progress }

/-- The entries of a span walk that failed, and those of the walk that was not
started again. -/
structure Walks (Content : Type) where
  failed : Option (List (Entry Content))
  entries : List (Entry Content)

def Extraction.restart (s : Extraction Content) : Extraction Content :=
  { s with results := [], progress := 0 }

def extractWithRewriter (d : Disk Content) (w : Walks Content) : Extraction Content :=
  let start : Extraction Content := ⟨d, [], [], 0⟩
  match w.failed with
  | none => w.entries.foldl (extractEntry o) start
  | some front =>
      w.entries.foldl (extractEntry o) (front.foldl (extractEntry o) start).restart

/-! Files written by a pool. -/

structure Pool (Content : Type) where
  walk : List (Entry Content)
  later : Option (List (Entry Content))
  extraction : Extraction Content
  pending : List (Job Content)

inductive Action where
  | walk
  | write (worker : Nat)
  | restart

/-- The channel holds `2 * workers` jobs and each worker one; with one more in
its own hands the walker waits. -/
def walkStep (workers : Nat) (s : Pool Content) : Option (Pool Content) :=
  match s.walk with
  | [] => none
  | e :: rest =>
      if 3 * workers < s.pending.length then none
      else
        let x := s.extraction
        let progress := x.progress + progressWeight o e
        match handle o x.disk x.links e with
        | .dropped => some { s with walk := rest, extraction := { x with progress := progress } }
        | .done disk links result =>
            some { s with
              walk := rest
              extraction := {
                disk := disk, links := links, results := x.results ++ [result]
                progress := progress } }
        | .write disk job =>
            some { s with
              walk := rest, extraction := { x with disk := disk }
              pending := s.pending ++ [job] }

/-- The jobs in the workers' hands are the oldest ones. -/
def writeStep (workers : Nat) (s : Pool Content) (worker : Nat) : Option (Pool Content) :=
  if worker < workers then
    match s.pending[worker]? with
    | none => none
    | some job =>
        let x := s.extraction
        let (written, outcome) := writeFile x.disk job
        some { s with
          extraction := { x with
            disk := written, results := x.results ++ [job.result outcome]
            progress := x.progress + progressWeight o job.entry }
          pending := s.pending.eraseIdx worker }
  else none

/-- The pool is stopped, and so empty, before the walk starts again. -/
def restartStep (s : Pool Content) : Option (Pool Content) :=
  match s.walk, s.pending, s.later with
  | [], [], some entries =>
      some { walk := entries, later := none, extraction := s.extraction.restart, pending := [] }
  | _, _, _ => none

def poolStep (workers : Nat) (s : Pool Content) : Action → Option (Pool Content)
  | .walk => walkStep o workers s
  | .write worker => writeStep o workers s worker
  | .restart => restartStep s

def poolStart (d : Disk Content) (w : Walks Content) : Pool Content :=
  match w.failed with
  | none => ⟨w.entries, none, ⟨d, [], [], 0⟩, []⟩
  | some front => ⟨front, some w.entries, ⟨d, [], [], 0⟩, []⟩

def poolSystem (workers : Nat) (d : Disk Content) (w : Walks Content) :
    System (Pool Content) Action where
  start s := s = poolStart d w
  step s action after := poolStep o workers s action = some after

def Pool.finished (s : Pool Content) : Prop := s.walk = [] ∧ s.pending = [] ∧ s.later = none

def workerCount (workers : Int) : Nat := if workers ≤ 0 then 4 else workers.toNat

/-- However the workers are scheduled, they come to an end, and what they leave
is what one file after the other leaves: the disk, the results in some order and
the progress. -/
structure ParallelEquals (workers : Int) (d : Disk Content) (w : Walks Content) : Prop where
  ends : ∃ most, ∀ actions s,
    Run (poolSystem o (workerCount workers) d w) (poolStart d w) actions s →
      actions.length ≤ most ∧ (s.finished ∨
        ∃ action after, poolStep o (workerCount workers) s action = some after)
  same : ∀ actions s, Run (poolSystem o (workerCount workers) d w) (poolStart d w) actions s →
    s.finished → s.extraction.disk = (extractWithRewriter o d w).disk ∧
      s.extraction.results.Perm (extractWithRewriter o d w).results ∧
      s.extraction.progress = (extractWithRewriter o d w).progress

end

/-! When the two are the same. -/

def Kind.isFile : Kind Content → Bool
  | .file _ _ _ => true
  | _ => false

def Kind.isLink : Kind Content → Bool
  | .link _ => true
  | _ => false

section

variable (o : Options)

/-- Where an entry goes, if it is selected, safe and not dropped. -/
def Target (e : Entry Content) (p : Path) : Prop :=
  matched o e = true ∧ isUnsafeArchivePath e.path = false ∧ o.rewriter e.path = some p

def Walks.all (w : Walks Content) : List (Entry Content) := w.failed.getD [] ++ w.entries

/-- What one walk hands over goes to different places. -/
def TargetsDistinct (w : Walks Content) : Prop :=
  ∀ entries, w.failed = some entries ∨ entries = w.entries →
    entries.Pairwise fun e later => ∀ p, Target o e p → ¬Target o later p

/-- No file goes where an entry after it goes, or above. -/
def FilesApart (entries : List (Entry Content)) : Prop :=
  entries.Pairwise fun e later => e.kind.isFile = true → ∀ p q, Target o e p → Target o later q →
    ¬p <+: q

/-- A link in its own place would be followed: that of a folder always, that of
a file only to see whether the file is there. -/
def followed (e : Entry Content) : Bool :=
  match e.kind with
  | .link _ => false
  | .dir => true
  | .file _ _ _ => !o.overwrite

/-- The disk has no link on the way to a target, and none in its place that is
followed; nor does the archive put one there. -/
structure NoLinks (d : Disk Content) (w : Walks Content) : Prop where
  disk : ∀ e ∈ w.all, ∀ p, Target o e p → ∀ q, q <+: p → (q = p → followed o e = true) →
    ∀ target, d q ≠ some (.link target)
  made : ∀ link ∈ w.all, ∀ e ∈ w.all, link.kind.isLink = true → e.kind.isLink = false →
    ∀ p, Target o link p → ¬Target o e p

end

/-! Paths without links. -/

def Unlinked (d : Disk Content) (p : Path) : Prop :=
  ∀ q, q <+: p → q ≠ [] → ∀ target, d q ≠ some (.link target)

theorem firstLink_none (d : Disk Content) (here : Path) (rest : List Text)
    (free : ∀ front, front <+: rest → front ≠ [] → ∀ target, d (here ++ front) ≠ some (.link target)) :
    firstLink d here rest = none := by
  induction rest generalizing here with
  | nil => rfl
  | cons name rest ih =>
      have first := free [name] (by simp) (by simp)
      rw [firstLink]
      split
      · next target link => exact absurd link (first target)
      · refine ih (here ++ [name]) fun front within named target => ?_
        rw [List.append_assoc]
        exact free (name :: front) (by simpa using within) (by simp) target

theorem follow_unlinked (d : Disk Content) (links : Nat) (p : Path) (free : Unlinked d p) :
    follow d links p = some p := by
  unfold follow
  rw [firstLink_none d [] p fun front within named => free front within named]

theorem place_unlinked (d : Disk Content) (p : Path) (free : Unlinked d p.dropLast) :
    place d p = some p := by
  unfold place
  split
  · next empty =>
      rw [List.getLast?_eq_none_iff] at empty
      rw [empty]
  · next name last =>
      rw [follow_unlinked d _ _ free, Option.map_some]
      congr 1
      obtain ⟨front, rfl⟩ := List.getLast?_eq_some_iff.mp last
      simp

theorem lstat_unlinked (d : Disk Content) (p : Path) (free : Unlinked d p.dropLast) :
    lstat d p = look d p := by
  rw [lstat, place_unlinked d p free]
  rfl

theorem stat_unlinked (d : Disk Content) (p : Path) (free : Unlinked d p) :
    stat d p = look d p := by
  rw [stat, follow_unlinked d _ p free]
  rfl

theorem look_set (d : Disk Content) (p q : Path) (node : Node Content) (other : q ≠ p) :
    look (setNode d p node) q = look d q := by
  unfold look setNode
  rw [if_neg other]

theorem set_swap (d : Disk Content) (p q : Path) (node other : Node Content) (apart : p ≠ q) :
    setNode (setNode d p node) q other = setNode (setNode d q other) p node := by
  funext r
  unfold setNode
  by_cases first : r = p
  · rw [if_pos first, if_pos first, if_neg (fun second => apart (first.symm.trans second))]
  · rw [if_neg first, if_neg first]

/-! Making folders. -/

theorem makeFrom_set (d : Disk Content) (here : Path) (rest : List Text) (p : Path)
    (node : Node Content)
    (free : ∀ front, front <+: rest → front ≠ [] →
      (∀ target, d (here ++ front) ≠ some (.link target)) ∧ here ++ front ≠ p) :
    makeFrom (setNode d p node) here rest = (makeFrom d here rest).map (setNode · p node) := by
  induction rest generalizing d here with
  | nil => rfl
  | cons name rest ih =>
      obtain ⟨unlinked, other⟩ := free [name] (by simp) (by simp)
      have later (d' : Disk Content) (same : ∀ q target, d' q = some (.link target) →
          d q = some (.link target)) : ∀ front, front <+: rest → front ≠ [] →
          (∀ target, d' (here ++ [name] ++ front) ≠ some (.link target)) ∧
            here ++ [name] ++ front ≠ p := by
        intro front within named
        have below := free (name :: front) (by simpa using within) (by simp)
        rw [List.append_assoc]
        exact ⟨fun target link => below.1 target (same _ _ link), below.2⟩
      have seen : setNode d p node (here ++ [name]) = d (here ++ [name]) := if_neg other
      rw [makeFrom, makeFrom, seen]
      cases found : d (here ++ [name]) with
      | none =>
          dsimp only
          rw [set_swap d p (here ++ [name]) node .dir other.symm]
          refine ih (setNode d (here ++ [name]) .dir) (here ++ [name]) (later _ fun q target link => ?_)
          unfold setNode at link
          split at link
          · cases link
          · exact link
      | some there =>
          cases there with
          | dir => exact ih d (here ++ [name]) (later d fun _ _ link => link)
          | file _ => rfl
          | link target => exact absurd found (unlinked target)

theorem makeFrom_effect (d after : Disk Content) (here : Path) (rest : List Text)
    (free : ∀ front, front <+: rest → front ≠ [] → ∀ target, d (here ++ front) ≠ some (.link target))
    (made : makeFrom d here rest = some after) :
    (∀ q, after q = d q ∨ d q = none ∧ after q = some .dir ∧ q <+: here ++ rest) ∧
      ∀ front, front <+: rest → front ≠ [] → after (here ++ front) = some .dir := by
  induction rest generalizing d here with
  | nil =>
      cases made
      refine ⟨fun q => Or.inl rfl, fun front within named => ?_⟩
      exact absurd (List.prefix_nil.mp within) named
  | cons name rest ih =>
      have unlinked := free [name] (by simp) (by simp)
      have later (d' : Disk Content) (same : ∀ q target, d' q = some (.link target) →
          d q = some (.link target)) : ∀ front, front <+: rest → front ≠ [] →
          ∀ target, d' (here ++ [name] ++ front) ≠ some (.link target) := by
        intro front within named target link
        rw [List.append_assoc] at link
        exact free (name :: front) (by simpa using within) (by simp) target (same _ _ link)
      -- the folder just passed is the shortest front, the rest comes from below
      have whole (d' : Disk Content) (there : d' (here ++ [name]) = some .dir)
          (effect : (∀ q, after q = d' q ∨ d' q = none ∧ after q = some .dir ∧
              q <+: here ++ [name] ++ rest) ∧
            ∀ front, front <+: rest → front ≠ [] → after (here ++ [name] ++ front) = some .dir) :
          ∀ front, front <+: name :: rest → front ≠ [] → after (here ++ front) = some .dir := by
        intro front within named
        cases front with
        | nil => exact absurd rfl named
        | cons first front =>
            rw [List.cons_prefix_cons] at within
            obtain ⟨rfl, within⟩ := within
            cases front with
            | nil =>
                rcases effect.1 (here ++ [first]) with same | ⟨nothing, new, -⟩
                · rw [same, there]
                · exact new
            | cons second front =>
                have below := effect.2 (second :: front) within (by simp)
                rwa [List.append_assoc] at below
      have step : here ++ [name] ++ rest = here ++ name :: rest := by simp
      rw [makeFrom] at made
      cases found : d (here ++ [name]) with
      | none =>
          rw [found] at made
          dsimp only at made
          have effect := ih (setNode d (here ++ [name]) .dir) (here ++ [name])
            (later _ fun q target link => by
              unfold setNode at link
              split at link
              · cases link
              · exact link) made
          refine ⟨fun q => ?_, whole _ (if_pos rfl) effect⟩
          have each := effect.1 q
          unfold setNode at each
          split at each
          · next same =>
              rw [same]
              rcases each with new | ⟨nothing, -⟩
              · exact Or.inr ⟨found, by rw [← same, new], by simp⟩
              · cases nothing
          · rw [← step]
            exact each
      | some there =>
          rw [found] at made
          cases there with
          | dir =>
              have effect := ih d (here ++ [name]) (later d fun _ _ link => link) made
              refine ⟨fun q => ?_, whole d found effect⟩
              rw [← step]
              exact effect.1 q
          | file _ => cases made
          | link target => exact absurd found (unlinked target)

theorem mkdirAll_set (d : Disk Content) (p q : Path) (node : Node Content) (free : Unlinked d p)
    (apart : ¬q <+: p) : mkdirAll (setNode d q node) p = (mkdirAll d p).map (setNode · q node) := by
  refine makeFrom_set d [] p q node fun front within named => ⟨free front within named, ?_⟩
  rintro rfl
  exact apart within

theorem mkdirAll_effect (d after : Disk Content) (p : Path) (free : Unlinked d p)
    (made : mkdirAll d p = some after) :
    (∀ q, after q = d q ∨ d q = none ∧ after q = some .dir ∧ q <+: p) ∧
      ∀ q, q <+: p → look after q = some .dir := by
  obtain ⟨changes, folders⟩ := makeFrom_effect d after [] p
    (fun front within named => free front within named) made
  refine ⟨changes, fun q within => ?_⟩
  unfold look
  split
  · rfl
  · next named => exact folders q within named

/-- Making folders puts no link anywhere. -/
theorem unlinked_mkdirAll {d after : Disk Content} {p q : Path} (free : Unlinked d p)
    (made : mkdirAll d p = some after) (before : Unlinked d q) : Unlinked after q := by
  intro r within named target link
  rcases (mkdirAll_effect d after p free made).1 r with same | ⟨-, new, -⟩
  · exact before r within named target (same ▸ link)
  · rw [new] at link
    cases link

theorem unlinked_set (d : Disk Content) (p q : Path) (content : Content) (free : Unlinked d p) :
    Unlinked (setNode d q (.file content)) p := by
  intro r within named target
  unfold setNode
  split
  · intro link
    cases link
  · exact free r within named target

/-! Writing files. -/

/-- The folder of a path is there, reached without a link. -/
def Ready (d : Disk Content) (p : Path) : Prop := ∀ q, q <+: p → q ≠ p → look d q = some .dir

theorem within_parent {p q : Path} (within : q <+: p) (proper : q ≠ p) : q <+: p.dropLast := by
  obtain ⟨more, rfl⟩ := within
  rcases List.eq_nil_or_concat more with rfl | ⟨front, name, rfl⟩
  · exact absurd (List.append_nil q).symm proper
  · rw [List.concat_eq_append, ← List.append_assoc, List.dropLast_concat]
    exact List.prefix_append q front

theorem dropLast_proper {p q : Path} (within : q <+: p.dropLast) (named : q ≠ []) : q ≠ p := by
  rintro rfl
  have shorter := within.length_le
  have some_ := List.length_pos_iff.mpr named
  rw [List.length_dropLast] at shorter
  omega

theorem Ready.unlinked {d : Disk Content} {p : Path} (ready : Ready d p) :
    Unlinked d p.dropLast := by
  intro q within named target link
  have folder := ready q (within.trans (List.dropLast_prefix p)) (dropLast_proper within named)
  rw [look, if_neg named, link] at folder
  cases folder

theorem Ready.folder {d : Disk Content} {p : Path} (ready : Ready d p) :
    look d p.dropLast = some .dir := by
  by_cases root : p.dropLast = []
  · rw [look, if_pos root]
  · exact ready _ (List.dropLast_prefix p) (dropLast_proper (List.prefix_refl _) root)

def puts (d : Disk Content) (job : Job Content) : Bool :=
  job.readable && !isDir (look d job.fullPath)

def put (does : Bool) (job : Job Content) (d : Disk Content) : Disk Content :=
  if does then setNode d job.fullPath (.file job.content) else d

def written (d : Disk Content) (job : Job Content) : Outcome :=
  if !job.readable then .skipped .write false
  else if isDir (look d job.fullPath) then .skipped .rename false
  else .made false

theorem writeFile_ready (d : Disk Content) (job : Job Content) (ready : Ready d job.fullPath) :
    writeFile d job = (put (puts d job) job d, written d job) := by
  rw [writeFile, place_unlinked d _ ready.unlinked]
  dsimp only
  rw [ready.folder]
  unfold puts put written
  cases job.readable with
  | false => rfl
  | true =>
      cases isDir (look d job.fullPath) with
      | false => rfl
      | true => rfl

/-- What a file's writing depends on. -/
theorem puts_congr (d d' : Disk Content) (job : Job Content)
    (same : isDir (look d' job.fullPath) = isDir (look d job.fullPath)) :
    puts d' job = puts d job ∧ written d' job = written d job := by
  unfold puts written
  rw [same]
  exact ⟨rfl, rfl⟩

theorem ready_set (d : Disk Content) (p q : Path) (node : Node Content) (ready : Ready d p)
    (free : isDir (look d q) = false) : Ready (setNode d q node) p := by
  intro r within proper
  have folder := ready r within proper
  rw [look_set]
  · exact folder
  · rintro rfl
    rw [folder] at free
    cases free

theorem ready_put (d : Disk Content) (p : Path) (job : Job Content) (ready : Ready d p) :
    Ready (put (puts d job) job d) p := by
  unfold put
  split
  · next does =>
      refine ready_set d p _ _ ready ?_
      unfold puts at does
      rw [Bool.and_eq_true] at does
      simpa using does.2
  · exact ready

theorem put_look (d : Disk Content) (does : Bool) (job : Job Content) (p : Path)
    (other : p ≠ job.fullPath) : look (put does job d) p = look d p := by
  unfold put
  split
  · exact look_set d _ _ _ other
  · rfl

theorem put_swap (d : Disk Content) (does does' : Bool) (job job' : Job Content)
    (apart : job.fullPath ≠ job'.fullPath) :
    put does' job' (put does job d) = put does job (put does' job' d) := by
  unfold put
  cases does with
  | false => rfl
  | true =>
      cases does' with
      | false => rfl
      | true => exact set_swap d _ _ _ _ apart

/-! What the walking side does beside a file still to be written. -/

def Handled.map (change : Disk Content → Disk Content) : Handled Content → Handled Content
  | .dropped => .dropped
  | .done d links result => .done (change d) links result
  | .write d job => .write (change d) job

/-- An entry whose place is reached without links. -/
structure Plain (o : Options) (d : Disk Content) (e : Entry Content) (p : Path) : Prop where
  above : Unlinked d p.dropLast
  here : followed o e = true → Unlinked d p

section

variable (o : Options)

/-- An entry is dropped, refused whatever is on the disk, or goes to its target. -/
theorem handle_cases (links : List Path) (e : Entry Content) :
    (∀ d, handle o d links e = .dropped) ∨
      (∃ result, ∀ d, handle o d links e = .done d links result) ∨
      ∃ p, Target o e p ∧ underCreatedLink links p = false := by
  unfold handle Target
  cases matched o e with
  | false => exact Or.inl fun _ => rfl
  | true =>
      cases isUnsafeArchivePath e.path with
      | true => exact Or.inr (Or.inl ⟨_, fun _ => rfl⟩)
      | false =>
          cases o.rewriter e.path with
          | none => exact Or.inl fun _ => rfl
          | some p =>
              cases through : underCreatedLink links p with
              | true =>
                  refine Or.inr (Or.inl ⟨⟨e, some p, .skipped .throughLink false⟩, fun d => ?_⟩)
                  simp [through]
              | false => exact Or.inr (Or.inr ⟨p, ⟨rfl, rfl, rfl⟩, through⟩)

theorem handle_link (d : Disk Content) (links : List Path) (e : Entry Content) (p goal : Path)
    (target : Target o e p) (open_ : underCreatedLink links p = false)
    (kind : e.kind = .link goal) :
    handle o d links e =
      let (disk, links, outcome) := extractSymlink o d links p goal
      .done disk links ⟨e, some p, outcome⟩ := by
  obtain ⟨chosen, safe, rewritten⟩ := target
  rw [handle, chosen, safe, rewritten]
  simp only [Bool.not_true, Bool.false_eq_true, if_false, open_, kind]

theorem handle_dir (d : Disk Content) (links : List Path) (e : Entry Content) (p : Path)
    (target : Target o e p) (open_ : underCreatedLink links p = false) (kind : e.kind = .dir) :
    handle o d links e =
      match mkdirAll d p with
      | none => .done d links ⟨e, some p, .skipped .mkdir false⟩
      | some made => .done made links ⟨e, some p, .made (folderKeepsOwnTime o d e.path p)⟩ := by
  obtain ⟨chosen, safe, rewritten⟩ := target
  rw [handle, chosen, safe, rewritten]
  simp only [Bool.not_true, Bool.false_eq_true, if_false, open_, kind]

theorem handle_file (d : Disk Content) (links : List Path) (e : Entry Content) (p : Path)
    (target : Target o e p) (open_ : underCreatedLink links p = false) (content : Content)
    (size : Nat) (readable : Bool) (kind : e.kind = .file content size readable) :
    handle o d links e =
      match mkdirAll d p.dropLast with
      | none => .done d links ⟨e, some p, .skipped .mkdirParent false⟩
      | some ready =>
          if !o.overwrite && (stat ready p).isSome then
            .done ready links ⟨e, some p, .skipped .alreadyExists true⟩
          else .write ready ⟨e, p, content, readable⟩ := by
  obtain ⟨chosen, safe, rewritten⟩ := target
  rw [handle, chosen, safe, rewritten]
  simp only [Bool.not_true, Bool.false_eq_true, if_false, open_, kind]

theorem extractSymlink_set (d : Disk Content) (links : List Path) (p target q : Path)
    (content : Content) (free : Unlinked d p.dropLast) (apart : ¬q <+: p) :
    extractSymlink o (setNode d q (.file content)) links p target =
      ((fun r : Disk Content × List Path × Outcome => (setNode r.1 q (.file content), r.2.1, r.2.2))
        (extractSymlink o d links p target)) := by
  have aside : ¬q <+: p.dropLast := fun above => apart (above.trans (List.dropLast_prefix p))
  have other : p ≠ q := by
    rintro rfl
    exact apart (List.prefix_refl p)
  unfold extractSymlink
  rw [mkdirAll_set d _ q _ free aside]
  cases made : mkdirAll d p.dropLast with
  | none => rfl
  | some ready =>
      have still : Unlinked ready p.dropLast := unlinked_mkdirAll free made free
      have seen := lstat_unlinked ready p still
      have seenSet := lstat_unlinked (setNode ready q (.file content)) p (unlinked_set _ _ _ _ still)
      rw [look_set _ _ _ _ other] at seenSet
      rw [Option.map_some]
      dsimp only
      rw [seenSet, seen, place_unlinked ready p still,
        place_unlinked (setNode ready q (.file content)) p (unlinked_set _ _ _ _ still)]
      split
      · rfl
      · split
        · rfl
        · dsimp only
          rw [set_swap ready q p _ _ other.symm]

theorem handle_set (d : Disk Content) (links : List Path) (e : Entry Content) (q : Path)
    (content : Content) (plain : ∀ p, Target o e p → underCreatedLink links p = false → Plain o d e p)
    (apart : ∀ p, Target o e p → ¬q <+: p) :
    handle o (setNode d q (.file content)) links e =
      (handle o d links e).map (setNode · q (.file content)) := by
  rcases handle_cases o links e with dropped | ⟨result, done⟩ | ⟨p, target, open_⟩
  · rw [dropped, dropped]
    rfl
  · rw [done, done]
    rfl
  have free := plain p target open_
  have aside := apart p target
  have asideAbove : ¬q <+: p.dropLast := fun above => aside (above.trans (List.dropLast_prefix p))
  have other : p ≠ q := by
    rintro rfl
    exact aside (List.prefix_refl p)
  cases kind : e.kind with
  | link goal =>
      rw [handle_link o _ links e p goal target open_ kind,
        handle_link o _ links e p goal target open_ kind,
        extractSymlink_set o d links p goal q content free.above aside]
      rfl
  | dir =>
      have unlinked := free.here (by rw [followed, kind])
      have keep : folderKeepsOwnTime o (setNode d q (.file content)) e.path p =
          folderKeepsOwnTime o d e.path p := by
        unfold folderKeepsOwnTime
        rw [lstat_unlinked d p free.above,
          lstat_unlinked _ p (unlinked_set _ _ _ _ free.above), look_set _ _ _ _ other]
      rw [handle_dir o _ links e p target open_ kind, handle_dir o _ links e p target open_ kind,
        keep, mkdirAll_set d p q _ unlinked aside]
      cases mkdirAll d p with
      | none => rfl
      | some made => rfl
  | file data size readable =>
      rw [handle_file o _ links e p target open_ data size readable kind,
        handle_file o _ links e p target open_ data size readable kind,
        mkdirAll_set d _ q _ free.above asideAbove]
      cases made : mkdirAll d p.dropLast with
      | none => rfl
      | some ready =>
          rw [Option.map_some]
          dsimp only
          -- only without overwriting is the place itself looked at
          cases over_ : o.overwrite with
          | true => rfl
          | false =>
              have unlinked := free.here (by rw [followed, kind, over_]; rfl)
              have still := unlinked_mkdirAll free.above made unlinked
              rw [stat_unlinked ready p still, stat_unlinked _ p (unlinked_set _ _ _ _ still),
                look_set _ _ _ _ other]
              split
              · rfl
              · rfl

/-- What one entry changes: folders on its way, and a link in its place. -/
def Changes (d after : Disk Content) (p : Path) (linked : Bool) : Prop :=
  ∀ q, after q = d q ∨ d q = none ∧ after q = some .dir ∧ q <+: p ∨
    linked = true ∧ q = p ∧ isDir (look d q) = false ∧ ∃ target, after q = some (.link target)

theorem changes_refl (d : Disk Content) (p : Path) (linked : Bool) : Changes d d p linked :=
  fun _ => Or.inl rfl

theorem changes_mkdirAll (d after : Disk Content) (p above : Path) (linked : Bool)
    (free : Unlinked d above) (made : mkdirAll d above = some after) (within : above <+: p) :
    Changes d after p linked := by
  intro q
  rcases (mkdirAll_effect d after above free made).1 q with same | ⟨nothing, new, inside⟩
  · exact Or.inl same
  · exact Or.inr (Or.inl ⟨nothing, new, inside.trans within⟩)

theorem extractSymlink_changes (d : Disk Content) (links : List Path) (p target : Path)
    (free : Unlinked d p.dropLast) :
    Changes d (extractSymlink o d links p target).1 p true ∧
      ((extractSymlink o d links p target).2.1 = links ∧
          Changes d (extractSymlink o d links p target).1 p false ∨
        (extractSymlink o d links p target).2.1 = p :: links) := by
  unfold extractSymlink
  cases made : mkdirAll d p.dropLast with
  | none => exact ⟨changes_refl d p true, Or.inl ⟨rfl, changes_refl d p false⟩⟩
  | some ready =>
      obtain ⟨effect, folders⟩ := mkdirAll_effect d ready _ free made
      have made_ (linked : Bool) : Changes d ready p linked :=
        changes_mkdirAll d ready p _ linked free made (List.dropLast_prefix p)
      have still : Unlinked ready p.dropLast := unlinked_mkdirAll free made free
      dsimp only
      rw [lstat_unlinked ready p still, place_unlinked ready p still]
      split
      · exact ⟨made_ true, Or.inl ⟨rfl, made_ false⟩⟩
      · split
        · exact ⟨made_ true, Or.inl ⟨rfl, made_ false⟩⟩
        · next vacant =>
            refine ⟨fun q => ?_, Or.inr rfl⟩
            dsimp only [setNode]
            by_cases here : q = p
            · subst here
              refine Or.inr (Or.inr ⟨rfl, rfl, ?_, target, if_pos rfl⟩)
              have open_ : isDir (look ready q) = false := by simpa using vacant
              unfold look at open_ ⊢
              split
              · next root =>
                  rw [if_pos root] at open_
                  exact open_
              · next named =>
                  rw [if_neg named] at open_
                  rcases effect q with same | ⟨nothing, new, -⟩
                  · rw [same] at open_
                    exact open_
                  · rw [nothing]
                    rfl
            · rw [if_neg here]
              exact made_ true q

/-- What an entry handled at once has changed. -/
theorem handle_done (d after : Disk Content) (links later : List Path) (e : Entry Content)
    (result : Extracted Content)
    (plain : ∀ p, Target o e p → underCreatedLink links p = false → Plain o d e p)
    (handled : handle o d links e = .done after later result) :
    after = d ∧ later = links ∨ ∃ p, Target o e p ∧ Changes d after p e.kind.isLink ∧
      (later = links ∧ Changes d after p false ∨ later = p :: links ∧ e.kind.isLink = true) := by
  rcases handle_cases o links e with dropped | ⟨refused, done⟩ | ⟨p, target, open_⟩
  · rw [dropped] at handled
    cases handled
  · rw [done] at handled
    cases handled
    exact Or.inl ⟨rfl, rfl⟩
  have free := plain p target open_
  refine Or.inr ⟨p, target, ?_⟩
  cases kind : e.kind with
  | link goal =>
      rw [handle_link o d links e p goal target open_ kind] at handled
      obtain ⟨changes, which⟩ := extractSymlink_changes o d links p goal free.above
      cases handled
      refine ⟨changes, ?_⟩
      rcases which with same | more
      · exact Or.inl same
      · exact Or.inr ⟨more, rfl⟩
  | dir =>
      rw [handle_dir o d links e p target open_ kind] at handled
      have unlinked := free.here (by rw [followed, kind])
      split at handled
      · cases handled
        exact ⟨changes_refl _ _ _, Or.inl ⟨rfl, changes_refl _ _ _⟩⟩
      · next made =>
          cases handled
          have all (linked : Bool) := changes_mkdirAll d after p p linked unlinked
            made (List.prefix_refl p)
          exact ⟨all _, Or.inl ⟨rfl, all _⟩⟩
  | file content size readable =>
      rw [handle_file o d links e p target open_ content size readable kind] at handled
      split at handled
      · cases handled
        exact ⟨changes_refl _ _ _, Or.inl ⟨rfl, changes_refl _ _ _⟩⟩
      · next ready made =>
          split at handled
          · cases handled
            have all (linked : Bool) := changes_mkdirAll d after p _ linked
              free.above made (List.dropLast_prefix p)
            exact ⟨all _, Or.inl ⟨rfl, all _⟩⟩
          · cases handled

/-- A file handed on to be written has its folder. -/
theorem handle_write (d after : Disk Content) (links : List Path) (e : Entry Content)
    (job : Job Content)
    (plain : ∀ p, Target o e p → underCreatedLink links p = false → Plain o d e p)
    (handled : handle o d links e = .write after job) :
    Target o e job.fullPath ∧ job.entry = e ∧ e.kind.isFile = true ∧
      Changes d after job.fullPath false ∧ Ready after job.fullPath := by
  rcases handle_cases o links e with dropped | ⟨refused, done⟩ | ⟨p, target, open_⟩
  · rw [dropped] at handled
    cases handled
  · rw [done] at handled
    cases handled
  have free := plain p target open_
  cases kind : e.kind with
  | link goal =>
      rw [handle_link o d links e p goal target open_ kind] at handled
      cases handled
  | dir =>
      rw [handle_dir o d links e p target open_ kind] at handled
      split at handled
      · cases handled
      · cases handled
  | file content size readable =>
      rw [handle_file o d links e p target open_ content size readable kind] at handled
      split at handled
      · cases handled
      · next ready made =>
          split at handled
          · cases handled
          · cases handled
            refine ⟨target, rfl, rfl, ?_, ?_⟩
            · exact changes_mkdirAll d after p _ false free.above made (List.dropLast_prefix p)
            · intro q within proper
              refine (mkdirAll_effect d after _ free.above made).2 q ?_
              exact within_parent within proper

/-! Where links come from. -/

structure LinksFrom (d₀ : Disk Content) (all : List (Entry Content)) (d : Disk Content)
    (links : List Path) : Prop where
  origin : ∀ q target, d q = some (.link target) →
    (∃ other, d₀ q = some (.link other)) ∨ q ∈ links
  made : ∀ link ∈ links, ∃ e ∈ all, e.kind.isLink = true ∧ Target o e link

theorem plain_of_noLinks {d₀ d : Disk Content} {w : Walks Content} {links : List Path}
    (noLinks : NoLinks o d₀ w) (known : LinksFrom o d₀ w.all d links) (e : Entry Content)
    (member : e ∈ w.all) (p : Path) (target : Target o e p)
    (open_ : underCreatedLink links p = false) : Plain o d e p := by
  -- a link on the way was there before, which is excluded, or was made by the
  -- archive, and then the entry would have been refused
  have aside (q : Path) (within : q <+: p) (proper : q ≠ p) (goal : Path) :
      d q ≠ some (.link goal) := by
    intro link
    rcases known.origin q goal link with ⟨other, before⟩ | made
    · exact noLinks.disk e member p target q within (fun same => absurd same proper) other before
    · have under : underCreatedLink links p = true := by
        refine List.any_eq_true.mpr ⟨q, made, ?_⟩
        rw [Bool.and_eq_true, List.isPrefixOf_iff_prefix, decide_eq_true_eq]
        exact ⟨within, proper⟩
      rw [under] at open_
      cases open_
  constructor
  · intro q within named goal
    exact aside q (within.trans (List.dropLast_prefix p)) (dropLast_proper within named) goal
  · intro follows q within named goal link
    have plainKind : e.kind.isLink = false := by
      unfold followed at follows
      cases kind : e.kind with
      | link other =>
          rw [kind] at follows
          cases follows
      | dir => rfl
      | file content size readable => rfl
    by_cases here : q = p
    · subst here
      rcases known.origin q goal link with ⟨other, before⟩ | made
      · exact noLinks.disk e member q target q within (fun _ => follows) other before
      · obtain ⟨maker, listed, kind, same⟩ := known.made q made
        exact noLinks.made maker listed e member kind plainKind q same target
    · exact aside q within here goal link

/-! Files still to be written, all at once. -/

def applyAll (does : Job Content → Bool) (jobs : List (Job Content)) (d : Disk Content) :
    Disk Content :=
  jobs.foldl (fun x job => put (does job) job x) d

theorem applyAll_congr (does does' : Job Content → Bool) (jobs : List (Job Content))
    (d : Disk Content) (same : ∀ job ∈ jobs, does' job = does job) :
    applyAll does' jobs d = applyAll does jobs d := by
  induction jobs generalizing d with
  | nil => rfl
  | cons job rest ih =>
      show applyAll does' rest (put (does' job) job d) = applyAll does rest (put (does job) job d)
      rw [same job List.mem_cons_self]
      exact ih _ fun other member => same other (List.mem_cons_of_mem job member)

theorem applyAll_look (does : Job Content → Bool) (jobs : List (Job Content)) (d : Disk Content)
    (p : Path) (other : ∀ job ∈ jobs, p ≠ job.fullPath) :
    look (applyAll does jobs d) p = look d p := by
  induction jobs generalizing d with
  | nil => rfl
  | cons job rest ih =>
      show look (applyAll does rest _) p = look d p
      rw [ih _ fun job member => other job (List.mem_cons_of_mem _ member)]
      exact put_look d _ job p (other job List.mem_cons_self)

def ApartJobs (jobs : List (Job Content)) : Prop :=
  jobs.Pairwise fun job later => job.fullPath ≠ later.fullPath

theorem applyAll_erase (does : Job Content → Bool) (jobs : List (Job Content)) (i : Nat)
    (job : Job Content) (here : jobs[i]? = some job) (apart : ApartJobs jobs) (d : Disk Content) :
    applyAll does jobs d = applyAll does (jobs.eraseIdx i) (put (does job) job d) := by
  induction jobs generalizing i d with
  | nil => cases here
  | cons first rest ih =>
      obtain ⟨others, tail⟩ := List.pairwise_cons.mp apart
      cases i with
      | zero =>
          cases here
          rfl
      | succ i =>
          rw [List.getElem?_cons_succ] at here
          have different := others job (List.mem_of_getElem? here)
          show applyAll does rest (put (does first) first d) =
            applyAll does (rest.eraseIdx i) (put (does first) first (put (does job) job d))
          rw [ih i here tail, put_swap d _ _ first job different]

theorem applyAll_ready (d : Disk Content) (jobs : List (Job Content)) (apart : ApartJobs jobs)
    (x : Disk Content) (same : ∀ job ∈ jobs, look x job.fullPath = look d job.fullPath)
    (p : Path) (ready : Ready x p) : Ready (applyAll (puts d) jobs x) p := by
  induction jobs generalizing x with
  | nil => exact ready
  | cons job rest ih =>
      obtain ⟨others, tail⟩ := List.pairwise_cons.mp apart
      have here := same job List.mem_cons_self
      have does : puts x job = puts d job := (puts_congr d x job (by rw [here])).1
      refine ih tail (put (puts d job) job x) (fun other member => ?_) ?_
      · rw [put_look _ _ _ _ (others other member).symm]
        exact same other (List.mem_cons_of_mem job member)
      · rw [← does]
        exact ready_put x p job ready

theorem plain_put (d : Disk Content) (does : Bool) (job : Job Content) (e : Entry Content)
    (p : Path) (plain : Plain o d e p) : Plain o (put does job d) e p := by
  unfold put
  split
  · exact ⟨unlinked_set _ _ _ _ plain.above, fun kind => unlinked_set _ _ _ _ (plain.here kind)⟩
  · exact plain

theorem handle_put (d : Disk Content) (links : List Path) (e : Entry Content) (does : Bool)
    (job : Job Content)
    (plain : ∀ p, Target o e p → underCreatedLink links p = false → Plain o d e p)
    (apart : ∀ p, Target o e p → ¬job.fullPath <+: p) :
    handle o (put does job d) links e = (handle o d links e).map (put does job) := by
  cases does with
  | true => exact handle_set o d links e job.fullPath job.content plain apart
  | false =>
      show handle o d links e = (handle o d links e).map fun x => x
      cases handle o d links e with
      | dropped => rfl
      | done _ _ _ => rfl
      | write _ _ => rfl

/-- What is still to be written changes nothing the walking side decides. -/
theorem handle_applyAll (does : Job Content → Bool) (jobs : List (Job Content))
    (d : Disk Content) (links : List Path) (e : Entry Content)
    (plain : ∀ p, Target o e p → underCreatedLink links p = false → Plain o d e p)
    (apart : ∀ job ∈ jobs, ∀ p, Target o e p → ¬job.fullPath <+: p) :
    handle o (applyAll does jobs d) links e = (handle o d links e).map (applyAll does jobs) := by
  induction jobs generalizing d with
  | nil =>
      show handle o d links e = (handle o d links e).map fun x => x
      cases handle o d links e with
      | dropped => rfl
      | done _ _ _ => rfl
      | write _ _ => rfl
  | cons job rest ih =>
      show handle o (applyAll does rest (put (does job) job d)) links e = _
      rw [ih _ (fun p target open_ => plain_put o d _ job e p (plain p target open_))
        (fun other member => apart other (List.mem_cons_of_mem job member)),
        handle_put o d links e _ job plain (apart job List.mem_cons_self)]
      cases handle o d links e with
      | dropped => rfl
      | done _ _ _ => rfl
      | write _ _ => rfl

theorem changes_aside {d after : Disk Content} {p q : Path} {linked : Bool}
    (changes : Changes d after p linked) (apart : ¬q <+: p) : look after q = look d q := by
  unfold look
  rcases changes q with same | ⟨-, -, within⟩ | ⟨-, same, -⟩
  · rw [same]
  · exact absurd within apart
  · exact absurd (same ▸ List.prefix_refl q) apart

theorem changes_ready {d after : Disk Content} {p q : Path} {linked : Bool}
    (changes : Changes d after p linked) (ready : Ready d q) : Ready after q := by
  intro r within proper
  have folder := ready r within proper
  unfold look at folder ⊢
  split
  · rfl
  · next named =>
      rw [if_neg named] at folder
      rcases changes r with same | ⟨nothing, -⟩ | ⟨-, -, vacant, -⟩
      · rw [same, folder]
      · rw [nothing] at folder
        cases folder
      · rw [look, if_neg named, folder] at vacant
        cases vacant

theorem linksFrom_changes {d₀ d after : Disk Content} {all : List (Entry Content)}
    {links : List Path} (known : LinksFrom o d₀ all d links) (p : Path)
    (changes : Changes d after p false) : LinksFrom o d₀ all after links := by
  refine ⟨fun q target link => ?_, known.made⟩
  rcases changes q with same | ⟨-, new, -⟩ | ⟨linked, -⟩
  · exact known.origin q target (same ▸ link)
  · rw [new] at link
    cases link
  · cases linked

theorem linksFrom_link {d₀ d after : Disk Content} {all : List (Entry Content)}
    {links : List Path} (known : LinksFrom o d₀ all d links) (p : Path) (e : Entry Content)
    (member : e ∈ all) (kind : e.kind.isLink = true) (target : Target o e p)
    (changes : Changes d after p true) : LinksFrom o d₀ all after (p :: links) := by
  constructor
  · intro q goal link
    rcases changes q with same | ⟨-, new, -⟩ | ⟨-, same, -⟩
    · exact (known.origin q goal (same ▸ link)).imp_right (List.mem_cons_of_mem p)
    · rw [new] at link
      cases link
    · rw [same]
      exact Or.inr List.mem_cons_self
  · intro link listed
    rcases List.mem_cons.mp listed with rfl | listed
    · exact ⟨e, member, kind, target⟩
    · exact known.made link listed

theorem linksFrom_put {d₀ d : Disk Content} {all : List (Entry Content)} {links : List Path}
    (known : LinksFrom o d₀ all d links) (does : Bool) (job : Job Content) :
    LinksFrom o d₀ all (put does job d) links := by
  refine ⟨fun q target link => ?_, known.made⟩
  unfold put at link
  split at link
  · unfold setNode at link
    split at link
    · cases link
    · exact known.origin q target link
  · exact known.origin q target link

/-! The pool against one file after the other. -/

def owed : List (Job Content) → Int
  | [] => 0
  | job :: rest => progressWeight o job.entry + owed rest

theorem owed_erase (jobs : List (Job Content)) (i : Nat) (job : Job Content)
    (here : jobs[i]? = some job) :
    owed o jobs = progressWeight o job.entry + owed o (jobs.eraseIdx i) := by
  induction jobs generalizing i with
  | nil => cases here
  | cons first rest ih =>
      cases i with
      | zero =>
          cases here
          rfl
      | succ i =>
          rw [List.getElem?_cons_succ] at here
          rw [List.eraseIdx_cons_succ, owed, owed, ih i here]
          omega

theorem owed_append (jobs : List (Job Content)) (job : Job Content) :
    owed o (jobs ++ [job]) = owed o jobs + progressWeight o job.entry := by
  induction jobs with
  | nil =>
      show progressWeight o job.entry + 0 = 0 + progressWeight o job.entry
      omega
  | cons first rest ih =>
      show progressWeight o first.entry + owed o (rest ++ [job]) = _
      rw [ih, owed]
      omega

/-- The pool is behind by what is still to be written. -/
structure Behind (d₀ : Disk Content) (all : List (Entry Content)) (s : Extraction Content)
    (pool : Pool Content) : Prop where
  disk : s.disk = applyAll (puts pool.extraction.disk) pool.pending pool.extraction.disk
  links : s.links = pool.extraction.links
  results : s.results.Perm (pool.extraction.results ++
    pool.pending.map fun job => job.result (written pool.extraction.disk job))
  progress : s.progress = pool.extraction.progress + owed o pool.pending
  ready : ∀ job ∈ pool.pending, Ready pool.extraction.disk job.fullPath
  apart : ApartJobs pool.pending
  ahead : ∀ job ∈ pool.pending, ∀ e ∈ pool.walk, ∀ p, Target o e p → ¬job.fullPath <+: p
  known : LinksFrom o d₀ all pool.extraction.disk pool.extraction.links

theorem behind_write (d₀ : Disk Content) (all : List (Entry Content)) (s : Extraction Content)
    (workers worker : Nat) (pool after : Pool Content) (behind : Behind o d₀ all s pool)
    (step : writeStep o workers pool worker = some after) :
    Behind o d₀ all s after ∧ after.walk = pool.walk ∧ after.later = pool.later := by
  unfold writeStep at step
  split at step
  · split at step
    · cases step
    · next job here =>
        have member := List.mem_of_getElem? here
        have ready := behind.ready job member
        dsimp only at step
        rw [writeFile_ready _ job ready] at step
        cases step
        have less : ∀ other ∈ pool.pending.eraseIdx worker, other ∈ pool.pending :=
          fun other inside => List.mem_of_mem_eraseIdx inside
        have perm : (job :: pool.pending.eraseIdx worker).Perm pool.pending := by
          obtain ⟨bound, rfl⟩ := List.getElem?_eq_some_iff.mp here
          exact List.getElem_cons_eraseIdx_perm bound
        -- no two files still owed have the same place, so this one can go first
        have different : ∀ other ∈ pool.pending.eraseIdx worker,
            other.fullPath ≠ job.fullPath := by
          have pairs : ApartJobs (job :: pool.pending.eraseIdx worker) :=
            (perm.pairwise_iff fun differ => Ne.symm differ).mpr behind.apart
          exact fun other inside => ((List.pairwise_cons.mp pairs).1 other inside).symm
        have same : ∀ other ∈ pool.pending.eraseIdx worker,
            puts (put (puts pool.extraction.disk job) job pool.extraction.disk) other =
              puts pool.extraction.disk other ∧
            written (put (puts pool.extraction.disk job) job pool.extraction.disk) other =
              written pool.extraction.disk other := by
          intro other inside
          exact puts_congr _ _ other (by rw [put_look _ _ _ _ (different other inside)])
        refine ⟨⟨?_, behind.links, ?_, ?_, ?_, ?_, ?_, ?_⟩, rfl, rfl⟩
        · rw [behind.disk, applyAll_erase _ _ _ job here behind.apart]
          exact (applyAll_congr _ _ _ _ fun other inside => (same other inside).1).symm
        · refine behind.results.trans ?_
          refine ((perm.symm.map _).append_left _).trans ?_
          rw [List.map_cons, List.append_cons]
          refine List.Perm.append_left _ (List.Perm.of_eq (List.map_congr_left ?_))
          exact fun other inside => by rw [(same other inside).2]
        · rw [behind.progress, owed_erase o _ _ job here]
          dsimp only
          omega
        · exact fun other inside => ready_put _ _ job (behind.ready other (less other inside))
        · exact behind.apart.sublist (List.eraseIdx_sublist _ _)
        · exact fun other inside => behind.ahead other (less other inside)
        · exact linksFrom_put o behind.known _ job
  · cases step

theorem changes_puts {d after : Disk Content} {p : Path} {linked : Bool} (job : Job Content)
    (changes : Changes d after p linked) (apart : ¬job.fullPath <+: p) :
    puts after job = puts d job ∧ written after job = written d job :=
  puts_congr d after job (by rw [changes_aside changes apart])

/-- An entry handled at once leaves the extraction as far ahead. -/
theorem behind_done {d₀ : Disk Content} {w : Walks Content} {s : Extraction Content}
    {pool : Pool Content} {disk : Disk Content} {links : List Path} {e : Entry Content}
    {result : Extracted Content} (behind : Behind o d₀ w.all s pool) (member : e ∈ w.all)
    (plain : ∀ p, Target o e p → underCreatedLink pool.extraction.links p = false →
      Plain o pool.extraction.disk e p)
    (apart : ∀ job ∈ pool.pending, ∀ p, Target o e p → ¬job.fullPath <+: p)
    (handled : handle o pool.extraction.disk pool.extraction.links e = .done disk links result) :
    (∀ job ∈ pool.pending, puts disk job = puts pool.extraction.disk job ∧
        written disk job = written pool.extraction.disk job) ∧
      (∀ p, Ready pool.extraction.disk p → Ready disk p) ∧ LinksFrom o d₀ w.all disk links := by
  rcases handle_done o _ disk _ links e result plain handled with
    ⟨rfl, rfl⟩ | ⟨p, target, changes, which⟩
  · exact ⟨fun _ _ => ⟨rfl, rfl⟩, fun _ ready => ready, behind.known⟩
  · refine ⟨fun job inside => changes_puts job changes (apart job inside p target),
      fun q ready => changes_ready changes ready, ?_⟩
    rcases which with ⟨rfl, folders⟩ | ⟨rfl, kind⟩
    · exact linksFrom_changes o behind.known p folders
    · rw [kind] at changes
      exact linksFrom_link o behind.known p e member kind target changes

theorem behind_walk (d₀ : Disk Content) (w : Walks Content) (noLinks : NoLinks o d₀ w)
    (s : Extraction Content) (workers : Nat) (pool after : Pool Content) (e : Entry Content)
    (rest : List (Entry Content)) (walk : pool.walk = e :: rest) (member : e ∈ w.all)
    (filesApart : e.kind.isFile = true → ∀ later ∈ rest, ∀ p q, Target o e p →
      Target o later q → ¬p <+: q)
    (behind : Behind o d₀ w.all s pool) (step : walkStep o workers pool = some after) :
    Behind o d₀ w.all (extractEntry o s e) after ∧ after.walk = rest ∧
      after.later = pool.later := by
  have plain : ∀ p, Target o e p → underCreatedLink pool.extraction.links p = false →
      Plain o pool.extraction.disk e p := fun p target open_ =>
    plain_of_noLinks o noLinks behind.known e member p target open_
  have apart : ∀ job ∈ pool.pending, ∀ p, Target o e p → ¬job.fullPath <+: p :=
    fun job inside => behind.ahead job inside e (walk ▸ List.mem_cons_self)
  have ahead : ∀ job ∈ pool.pending, ∀ later ∈ rest, ∀ p, Target o later p →
      ¬job.fullPath <+: p := fun job inside later listed =>
    behind.ahead job inside later (walk ▸ List.mem_cons_of_mem e listed)
  -- what the walking side decides does not see the files still owed
  have decided := handle_applyAll o (puts pool.extraction.disk) pool.pending pool.extraction.disk
    pool.extraction.links e plain apart
  rw [← behind.disk, ← behind.links] at decided
  unfold walkStep at step
  rw [walk] at step
  dsimp only at step
  split at step
  · cases step
  · unfold extractEntry
    rw [decided]
    rw [← behind.links] at step plain
    cases handled : handle o pool.extraction.disk s.links e with
    | dropped =>
        rw [handled] at step
        cases step
        dsimp only [Handled.map]
        have known := behind.known
        rw [← behind.links] at known
        refine ⟨⟨behind.disk, rfl, behind.results, ?_, behind.ready, behind.apart, ahead, known⟩,
          rfl, rfl⟩
        have total := behind.progress
        dsimp only
        omega
    | done disk links result =>
        rw [handled] at step
        cases step
        rw [behind.links] at handled plain
        -- folders made on the way and a new link leave what is owed as it was
        obtain ⟨same, still, origin⟩ := behind_done o behind member plain apart handled
        dsimp only [Handled.map]
        refine ⟨⟨?_, rfl, ?_, ?_, fun job inside => still _ (behind.ready job inside), behind.apart,
          ahead, origin⟩, rfl, rfl⟩
        · exact (applyAll_congr _ _ _ _ fun job inside => (same job inside).1).symm
        · have results := behind.results
          have again : (pool.pending.map fun job => job.result (written disk job)) =
              pool.pending.map fun job => job.result (written pool.extraction.disk job) :=
            List.map_congr_left fun job inside => by rw [(same job inside).2]
          dsimp only
          rw [again, List.append_assoc]
          refine (results.append_right [result]).trans ?_
          rw [List.append_assoc]
          exact List.perm_append_comm.append_left _
        · have total := behind.progress
          dsimp only
          omega
    | write disk job =>
        rw [handled] at step
        cases step
        obtain ⟨target, entry, kind, changes, ready⟩ :=
          handle_write o _ disk s.links e job plain handled
        have known := behind.known
        rw [← behind.links] at known
        have same : ∀ other ∈ pool.pending, puts disk other = puts pool.extraction.disk other ∧
            written disk other = written pool.extraction.disk other := fun other inside =>
          changes_puts other changes (apart other inside _ target)
        have different : ∀ other ∈ pool.pending, job.fullPath ≠ other.fullPath := by
          intro other inside equal
          exact apart other inside _ target (equal ▸ List.prefix_refl _)
        have decision : applyAll (puts pool.extraction.disk) pool.pending disk =
            applyAll (puts disk) pool.pending disk :=
          (applyAll_congr _ _ _ _ fun other inside => (same other inside).1).symm
        -- the sequential extraction writes it now, after all that is owed
        have here : Ready (applyAll (puts disk) pool.pending disk) job.fullPath :=
          applyAll_ready disk _ behind.apart disk (fun _ _ => rfl) _ ready
        have seen : puts (applyAll (puts disk) pool.pending disk) job = puts disk job ∧
            written (applyAll (puts disk) pool.pending disk) job = written disk job :=
          puts_congr _ _ job (by rw [applyAll_look _ _ _ _ different])
        dsimp only [Handled.map]
        rw [decision, writeFile_ready _ job here, seen.1, seen.2]
        refine ⟨⟨?_, rfl, ?_, ?_, ?_, ?_, ?_, linksFrom_changes o known _ changes⟩, rfl, rfl⟩
        · dsimp only
          unfold applyAll
          rw [List.foldl_append]
          rfl
        · have results := behind.results
          have again : (pool.pending.map fun other => other.result (written disk other)) =
              pool.pending.map fun other => other.result (written pool.extraction.disk other) :=
            List.map_congr_left fun other inside => by rw [(same other inside).2]
          dsimp only
          rw [List.map_append, again, ← List.append_assoc]
          exact results.append_right _
        · have total := behind.progress
          dsimp only
          rw [owed_append, entry]
          omega
        · intro other inside
          rcases List.mem_append.mp inside with inside | inside
          · exact changes_ready changes (behind.ready other inside)
          · rw [List.mem_singleton.mp inside]
            exact ready
        · refine List.pairwise_append.mpr ⟨behind.apart, List.pairwise_singleton _ _, ?_⟩
          intro other inside new listed
          rw [List.mem_singleton.mp listed]
          exact (different other inside).symm
        · intro other inside later listed q goes
          rcases List.mem_append.mp inside with inside | inside
          · exact ahead other inside later listed q goes
          · rw [List.mem_singleton.mp inside]
            exact filesApart kind later listed _ q target goes

/-- The extraction the last walk starts from. -/
def lastStart (d : Disk Content) (w : Walks Content) : Extraction Content :=
  match w.failed with
  | none => ⟨d, [], [], 0⟩
  | some front => (front.foldl (extractEntry o) ⟨d, [], [], 0⟩).restart

theorem extractWithRewriter_eq (d : Disk Content) (w : Walks Content) :
    extractWithRewriter o d w = w.entries.foldl (extractEntry o) (lastStart o d w) := by
  unfold extractWithRewriter lastStart
  cases w.failed with
  | none => rfl
  | some _ => rfl

/-- Both walks keep files apart. -/
def WalksApart (w : Walks Content) : Prop :=
  (∀ front, w.failed = some front → FilesApart o front) ∧ FilesApart o w.entries

/-- Where the pool is in its walks, against the extraction one by one. -/
inductive Follows (d : Disk Content) (w : Walks Content) (pool : Pool Content) : Prop
  | first (front gone : List (Entry Content)) (failed : w.failed = some front)
      (split : gone ++ pool.walk = front) (later : pool.later = some w.entries)
      (behind : Behind o d w.all (gone.foldl (extractEntry o) ⟨d, [], [], 0⟩) pool)
  | last (gone : List (Entry Content)) (split : gone ++ pool.walk = w.entries)
      (later : pool.later = none)
      (behind : Behind o d w.all (gone.foldl (extractEntry o) (lastStart o d w)) pool)

theorem behind_start (d : Disk Content) (w : Walks Content) (walk : List (Entry Content))
    (later : Option (List (Entry Content))) :
    Behind o d w.all ⟨d, [], [], 0⟩ ⟨walk, later, ⟨d, [], [], 0⟩, []⟩ where
  disk := rfl
  links := rfl
  results := List.Perm.refl _
  progress := rfl
  ready := fun _ member => absurd member List.not_mem_nil
  apart := List.Pairwise.nil
  ahead := fun _ member => absurd member List.not_mem_nil
  known := ⟨fun _ target link => Or.inl ⟨target, link⟩, fun _ member =>
    absurd member List.not_mem_nil⟩

theorem follows_start (d : Disk Content) (w : Walks Content) :
    Follows o d w (poolStart d w) := by
  unfold poolStart
  cases failed : w.failed with
  | none =>
      refine Follows.last [] rfl rfl ?_
      rw [List.foldl_nil, lastStart, failed]
      exact behind_start o d w _ _
  | some front => exact Follows.first front [] failed rfl rfl (behind_start o d w _ _)

theorem apart_split (entries gone rest : List (Entry Content)) (e : Entry Content)
    (split : gone ++ e :: rest = entries) (apart : FilesApart o entries) :
    e.kind.isFile = true → ∀ later ∈ rest, ∀ p q, Target o e p → Target o later q → ¬p <+: q := by
  unfold FilesApart at apart
  rw [← split, List.pairwise_append, List.pairwise_cons] at apart
  exact fun kind later member => apart.2.1.1 later member kind

theorem follows_step (d : Disk Content) (w : Walks Content) (noLinks : NoLinks o d w)
    (apart : WalksApart o w) (workers : Nat) (pool after : Pool Content) (action : Action)
    (follows : Follows o d w pool) (step : poolStep o workers pool action = some after) :
    Follows o d w after := by
  cases action with
  | walk =>
      cases walk : pool.walk with
      | nil =>
          unfold poolStep walkStep at step
          rw [walk] at step
          cases step
      | cons e rest =>
          rcases follows with ⟨front, gone, failed, split, later, behind⟩ | ⟨gone, split, later, behind⟩
          · rw [walk] at split
            have member : e ∈ w.all := by
              unfold Walks.all
              rw [failed, Option.getD_some, ← split]
              exact List.mem_append_left _ (List.mem_append_right _ List.mem_cons_self)
            obtain ⟨next, walked, same⟩ := behind_walk o d w noLinks _ workers pool after e rest walk
              member (apart_split o front gone rest e split (apart.1 front failed)) behind step
            refine Follows.first front (gone ++ [e]) failed ?_ (same.trans later) ?_
            · rw [walked, List.append_assoc]
              exact split
            · rw [List.foldl_append]
              exact next
          · rw [walk] at split
            have member : e ∈ w.all := by
              unfold Walks.all
              rw [← split]
              exact List.mem_append_right _ (List.mem_append_right _ List.mem_cons_self)
            obtain ⟨next, walked, same⟩ := behind_walk o d w noLinks _ workers pool after e rest walk
              member (apart_split o w.entries gone rest e split apart.2) behind step
            refine Follows.last (gone ++ [e]) ?_ (same.trans later) ?_
            · rw [walked, List.append_assoc]
              exact split
            · rw [List.foldl_append]
              exact next
  | write worker =>
      rcases follows with ⟨front, gone, failed, split, later, behind⟩ | ⟨gone, split, later, behind⟩
      · obtain ⟨next, walked, same⟩ := behind_write o d w.all _ workers worker pool after behind step
        exact Follows.first front gone failed (walked ▸ split) (same.trans later) next
      · obtain ⟨next, walked, same⟩ := behind_write o d w.all _ workers worker pool after behind step
        exact Follows.last gone (walked ▸ split) (same.trans later) next
  | restart =>
      change restartStep pool = some after at step
      unfold restartStep at step
      split at step
      · next entries walk pending next =>
          cases step
          rcases follows with ⟨front, gone, failed, split, later, behind⟩ | ⟨gone, split, later, behind⟩
          · rw [walk, List.append_nil] at split
            subst split
            rw [next] at later
            cases later
            -- the pool is empty, so the disks are equal; the links stay as they are
            refine Follows.last [] rfl rfl ?_
            rw [List.foldl_nil, lastStart, failed]
            have disk := behind.disk
            rw [pending] at disk
            refine ⟨disk, behind.links, List.Perm.refl _, rfl, ?_, List.Pairwise.nil, ?_,
              behind.known⟩
            · exact fun _ member => absurd member List.not_mem_nil
            · exact fun _ member => absurd member List.not_mem_nil
          · rw [next] at later
            cases later
      · cases step

theorem follows_run (d : Disk Content) (w : Walks Content) (noLinks : NoLinks o d w)
    (apart : WalksApart o w) (workers : Nat) (actions : List Action) (pool : Pool Content)
    (run : Run (poolSystem o workers d w) (poolStart d w) actions pool) :
    Follows o d w pool :=
  run_keeps (Follows o d w)
    (fun before action after follows step => follows_step o d w noLinks apart workers before after
      action follows step) run (follows_start o d w)

/-! The pool comes to an end. -/

def Pool.work (pool : Pool Content) : Nat :=
  2 * pool.walk.length + pool.pending.length +
    match pool.later with
    | some entries => 2 * entries.length + 1
    | none => 0

theorem work_decreases (workers : Nat) (pool after : Pool Content) (action : Action)
    (step : poolStep o workers pool action = some after) : after.work < pool.work := by
  cases action with
  | walk =>
      change walkStep o workers pool = some after at step
      unfold walkStep at step
      split at step
      · cases step
      · next e rest walk =>
          unfold Pool.work
          rw [walk]
          split at step
          · cases step
          · dsimp only at step
            split at step
            · cases step
              dsimp only
              rw [List.length_cons]
              omega
            · cases step
              dsimp only
              rw [List.length_cons]
              omega
            · cases step
              dsimp only
              rw [List.length_cons, List.length_append, List.length_singleton]
              omega
  | write worker =>
      change writeStep o workers pool worker = some after at step
      unfold writeStep at step
      split at step
      · split at step
        · cases step
        · next job here =>
            cases step
            obtain ⟨bound, -⟩ := List.getElem?_eq_some_iff.mp here
            unfold Pool.work
            dsimp only
            rw [List.length_eraseIdx_of_lt bound]
            omega
      · cases step
  | restart =>
      change restartStep pool = some after at step
      unfold restartStep at step
      split at step
      · next entries walk pending later =>
          cases step
          unfold Pool.work
          rw [walk, pending, later, List.length_nil, List.length_nil]
          dsimp only
          omega
      · cases step

theorem run_work (workers : Nat) (d : Disk Content) (w : Walks Content) (before after : Pool Content)
    (actions : List Action) (run : Run (poolSystem o workers d w) before actions after) :
    actions.length + after.work ≤ before.work := by
  have always : Invariant (poolSystem o workers d w) fun _ => True :=
    ⟨fun _ _ => trivial, fun _ _ _ _ _ => trivial⟩
  have decreasing : Decreasing (poolSystem o workers d w) (fun _ => True) Pool.work :=
    fun pool action next _ step => work_decreases o workers pool next action step
  exact run_length_le_measure always decreasing run trivial

/-- Whoever has something to do can do it. -/
theorem pool_goes_on (workers : Nat) (positive : 0 < workers) (pool : Pool Content) :
    pool.finished ∨ ∃ action after, poolStep o workers pool action = some after := by
  cases pending : pool.pending with
  | cons job rest =>
      refine Or.inr ⟨.write 0, ?_⟩
      change ∃ after, writeStep o workers pool 0 = some after
      unfold writeStep
      rw [if_pos positive, pending]
      exact ⟨_, rfl⟩
  | nil =>
      cases walk : pool.walk with
      | cons e rest =>
          refine Or.inr ⟨.walk, ?_⟩
          change ∃ after, walkStep o workers pool = some after
          unfold walkStep
          rw [walk, pending, List.length_nil]
          dsimp only
          rw [if_neg (Nat.not_lt_zero _)]
          cases handle o pool.extraction.disk pool.extraction.links e with
          | dropped => exact ⟨_, rfl⟩
          | done _ _ _ => exact ⟨_, rfl⟩
          | write _ _ => exact ⟨_, rfl⟩
      | nil =>
          cases later : pool.later with
          | none => exact Or.inl ⟨walk, pending, later⟩
          | some entries =>
              refine Or.inr ⟨.restart, ?_⟩
              change ∃ after, restartStep pool = some after
              unfold restartStep
              rw [walk, pending, later]
              exact ⟨_, rfl⟩

theorem workerCount_positive (workers : Int) : 0 < workerCount workers := by
  unfold workerCount
  split <;> omega

end

def named (name : String) : Text := name.toUTF8.toList

/-- Everything, into the folder "r", nothing overwritten. -/
def intoFolder : Options where
  rewriter archivePath := some (named "r" :: archivePath.splitOn slash)
  includes := []
  overwrite := false
  selectedProgress := false

def plainFile (name : String) : Entry Nat where
  path := named name
  kind := .file 1 1 true
  attributes := ⟨0o644, 0, 0, true, 0, 0⟩
  weight := 100

def twoFiles : Walks Nat := ⟨none, [plainFile "f", plainFile "g"]⟩

def emptyFolder : Disk Nat := fun p => if p = [named "r"] then some .dir else none

/-- In the folder is a link to a file that is not there yet. -/
def danglingLink : Disk Nat :=
  setNode emptyFolder [named "r", named "g"] (.link [named "r", named "f"])

theorem twoFiles_distinct : TargetsDistinct intoFolder twoFiles := by
  rintro entries (failed | rfl)
  · cases failed
  refine List.pairwise_cons.mpr ⟨?_, List.pairwise_singleton _ _⟩
  rintro later member p ⟨-, -, first⟩ ⟨-, -, second⟩
  rw [List.mem_singleton.mp member] at second
  have same := Option.some_inj.mp (first.trans second.symm)
  revert same
  decide +kernel

theorem twoFiles_apart : WalksApart intoFolder twoFiles := by
  constructor
  · intro front failed
    cases failed
  refine List.pairwise_cons.mpr ⟨?_, List.pairwise_singleton _ _⟩
  rintro later member - p q ⟨-, -, first⟩ ⟨-, -, second⟩ within
  rw [List.mem_singleton.mp member] at second
  cases first
  cases second
  revert within
  decide +kernel

theorem emptyFolder_noLinks : NoLinks intoFolder emptyFolder twoFiles := by
  constructor
  · intro e _ p _ q _ _ target link
    unfold emptyFolder at link
    split at link
    · cases link
    · cases link
  · intro link member e _ kind
    rcases List.mem_cons.mp member with rfl | member
    · cases kind
    · rw [List.mem_singleton.mp member] at kind
      cases kind

theorem dangling_outcomes : ((([Action.walk, .walk, .write 0, .write 0]).foldlM
      (poolStep intoFolder 4) (poolStart danglingLink twoFiles)).map fun s =>
        (s.extraction.results.map (·.outcome), s.walk.length, s.pending.length, s.later.isNone)) =
      some ([.made false, .made false], 0, 0, true) ∧
    (extractWithRewriter intoFolder danglingLink twoFiles).results.map (·.outcome) =
      [.made false, .skipped .alreadyExists true] := by
  decide +kernel

end ProxmoxBackup.ParallelExtract
