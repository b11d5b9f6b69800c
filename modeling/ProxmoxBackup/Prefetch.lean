import ProxmoxBackup.TransitionSystem
import Mathlib.Algebra.BigOperators.Fin
import Mathlib.Data.List.Nodup
import Mathlib.Data.List.Perm.Subperm

/-! The read-ahead of one folder in pbscommon/pxar.go: startPrefetch with its producer and
workers, entry, release and stop, and the loop of WriteDir that archives the files. The
steps of the three sides come in any order. -/

namespace ProxmoxBackup.Prefetch

open TransitionSystem

variable {Path : Type} [DecidableEq Path]

def maxPrefetchFileSize : Nat := 128 * 1024 * 1024

/-- What startPrefetch and WriteDir ask about an entry of the folder. -/
structure DirEntry (Path : Type) where
  path : Path
  isDir : Bool
  systemFile : Bool
  isExcluded : Bool
  /-- The size from file.Info(), none where that fails. -/
  info : Option Nat
  isLinkEntry : Bool
  special : Bool
  reuseCandidate : Bool

def qualifies (file : DirEntry Path) : Bool :=
  !file.isDir && !file.systemFile && !file.isExcluded &&
    file.info.any (fun size => size ≤ maxPrefetchFileSize) &&
      !file.isLinkEntry && !file.special && !file.reuseCandidate

/-- A folder as ReadDir lists it, which names no entry twice, with PrefetchWorkers. -/
structure Folder (Path : Type) where
  files : List (DirEntry Path)
  distinct : (files.map DirEntry.path).Nodup
  prefetchWorkers : Int

/-- The paths startPrefetch collects; none is its nil set. -/
def pathsOf (prefetchWorkers : Int) (files : List (DirEntry Path)) : List Path :=
  (files.filter fun file => decide (0 < prefetchWorkers) && qualifies file).map DirEntry.path

def Folder.paths (folder : Folder Path) : List Path :=
  pathsOf folder.prefetchWorkers folder.files

/-- The capacity of slots and of jobs, and the number of workers. -/
def Folder.workers (folder : Folder Path) : Nat :=
  min folder.prefetchWorkers.toNat folder.paths.length

inductive Worker (Path : Type) where
  | idle
  | received (entry : Path)
  | reading (entry : Path)
  | filled (entry : Path)
  | exited
  deriving DecidableEq

/-- The entry a worker has not closed yet. -/
def Worker.entry : Worker Path → List Path
  | .received entry => [entry]
  | .reading entry => [entry]
  | .filled entry => [entry]
  | _ => []

/-- Where WriteDir is in its loop: before an entry, in WriteFile, waiting there on done,
in release on done and then on slots, and behind the loop before and after stop. -/
inductive Phase where
  | entry
  | writing
  | waiting
  | releasing
  | freeing
  | returning
  | returned
  deriving DecidableEq

structure State (Path : Type) where
  /-- What the producer has taken no slot for. -/
  untaken : List Path
  /-- The entry that has a slot and is not in jobs yet. -/
  offer : Option Path
  jobsClosed : Bool
  jobs : List Path
  /-- The channel's tokens, each with the file it was taken for. -/
  slots : List Path
  workers : List (Worker Path)
  done : List Path
  /-- The entries whose data is set. -/
  data : List Path
  stopped : Bool
  rest : List (DirEntry Path)
  phase : Phase
  /-- All slots taken and all given back so far. -/
  taken : List Path
  released : List Path

def State.init (folder : Folder Path) : State Path where
  untaken := folder.paths
  offer := none
  jobsClosed := false
  jobs := []
  slots := []
  workers := List.replicate folder.workers .idle
  done := []
  data := []
  stopped := false
  rest := folder.files
  phase := .entry
  taken := []
  released := []

inductive ProducerAction where
  | take
  | send
  | quit
  | close

/-- With both cases of its select ready the producer may take either. -/
def producerStep (folder : Folder Path) (s : State Path) : ProducerAction → Option (State Path)
  | .take =>
      match s.jobsClosed, s.offer, s.untaken with
      | false, none, p :: later =>
          if s.slots.length < folder.workers then
            some { s with untaken := later, offer := some p, slots := s.slots ++ [p],
                          taken := s.taken ++ [p] }
          else none
      | _, _, _ => none
  | .send =>
      match s.offer with
      | some p =>
          if s.jobs.length < folder.workers then
            some { s with offer := none, jobs := s.jobs ++ [p] }
          else none
      | none => none
  | .quit =>
      match s.jobsClosed, s.offer, s.stopped with
      | false, none, true => some { s with jobsClosed := true }
      | _, _, _ => none
  | .close =>
      match s.jobsClosed, s.offer, s.untaken with
      | false, none, [] => some { s with jobsClosed := true }
      | _, _, _ => none

def setWorker (s : State Path) (i : Nat) (next : Worker Path) : State Path :=
  { s with workers := s.workers.set i next }

/-- What a worker does next; `reads` is the outcome of readFileLimited. -/
def workerStep (s : State Path) (i : Nat) (reads : Bool) : Option (State Path) :=
  match s.workers[i]? with
  | some .idle =>
      match s.jobs with
      | p :: later => some (setWorker { s with jobs := later } i (.received p))
      | [] => if s.jobsClosed then some (setWorker s i .exited) else none
  | some (.received p) =>
      if s.stopped then some (setWorker s i (.filled p)) else some (setWorker s i (.reading p))
  | some (.reading p) =>
      if reads then some (setWorker { s with data := s.data.insert p } i (.filled p))
      else some (setWorker s i (.filled p))
  | some (.filled p) => some (setWorker { s with done := p :: s.done } i .idle)
  | some .exited => none
  | none => none

/-- What the walk does at an entry: `skip` goes past one that is not archived by WriteFile
or a subfolder, `read` waits for the bytes read ahead, `written` is WriteFile's return
whether it has used them, read the file itself or left it out, and `fail` is a return of
WriteDir with an error. -/
inductive WalkAction where
  | skip
  | write
  | read
  | receive
  | written
  | drop
  | free
  | finish
  | fail
  | stop

def byWriteFile (file : DirEntry Path) : Bool :=
  !file.isExcluded && !file.isDir && !file.systemFile

def walkStep (folder : Folder Path) (s : State Path) : WalkAction → Option (State Path)
  | .skip =>
      match s.phase, s.rest with
      | .entry, file :: rest => if byWriteFile file then none else some { s with rest := rest }
      | _, _ => none
  | .write =>
      match s.phase, s.rest with
      | .entry, file :: _ => if byWriteFile file then some { s with phase := .writing } else none
      | _, _ => none
  | .read =>
      match s.phase, s.rest with
      | .writing, file :: _ =>
          if file.path ∈ folder.paths then some { s with phase := .waiting } else none
      | _, _ => none
  | .receive =>
      match s.phase, s.rest with
      | .waiting, file :: _ =>
          if file.path ∈ s.done then some { s with phase := .writing } else none
      | _, _ => none
  | .written =>
      match s.phase, s.rest with
      | .writing, file :: rest =>
          if file.path ∈ folder.paths then some { s with phase := .releasing }
          else some { s with phase := .entry, rest := rest }
      | _, _ => none
  | .drop =>
      match s.phase, s.rest with
      | .releasing, file :: _ =>
          if file.path ∈ s.done then
            some { s with phase := .freeing, data := s.data.erase file.path }
          else none
      | _, _ => none
  | .free =>
      match s.phase, s.rest, s.slots with
      | .freeing, _ :: rest, p :: slots =>
          some { s with phase := .entry, rest := rest, slots := slots,
                        released := s.released ++ [p] }
      | _, _, _ => none
  | .finish =>
      match s.phase, s.rest with
      | .entry, [] => some { s with phase := .returning }
      | _, _ => none
  | .fail =>
      match s.phase with
      | .entry => some { s with phase := .returning }
      | .writing => some { s with phase := .returning }
      | _ => none
  | .stop =>
      match s.phase with
      | .returning => some { s with phase := .returned, stopped := true }
      | _ => none

inductive Action where
  | producer (action : ProducerAction)
  | worker (i : Nat) (reads : Bool)
  | walk (action : WalkAction)

def step (folder : Folder Path) (s : State Path) : Action → Option (State Path)
  | .producer action => producerStep folder s action
  | .worker i reads => workerStep s i reads
  | .walk action => walkStep folder s action

def system (folder : Folder Path) : System (State Path) Action where
  start s := s = State.init folder
  step before action after := step folder before action = some after

/-- All that the producer and the workers can do, guards included. A worker is named by
the workers before and behind it. -/
inductive ReadAhead (folder : Folder Path) (s : State Path) : State Path → Prop where
  | take (p : Path) (later : List Path) (running : s.jobsClosed = false) (none_ : s.offer = none)
      (next : s.untaken = p :: later) (room : s.slots.length < folder.workers) :
      ReadAhead folder s { s with
        untaken := later, offer := some p, slots := s.slots ++ [p], taken := s.taken ++ [p] }
  | send (p : Path) (offered : s.offer = some p) (room : s.jobs.length < folder.workers) :
      ReadAhead folder s { s with offer := none, jobs := s.jobs ++ [p] }
  | close (running : s.jobsClosed = false) (none_ : s.offer = none)
      (over_ : s.stopped = true ∨ s.untaken = []) : ReadAhead folder s { s with jobsClosed := true }
  | receive (p : Path) (later : List Path) (front back : List (Worker Path))
      (at_ : s.workers = front ++ .idle :: back) (queued : s.jobs = p :: later) :
      ReadAhead folder s { s with jobs := later, workers := front ++ .received p :: back }
  | exit (front back : List (Worker Path)) (at_ : s.workers = front ++ .idle :: back)
      (drained : s.jobs = []) (closed : s.jobsClosed = true) :
      ReadAhead folder s { s with workers := front ++ .exited :: back }
  | look (p : Path) (next : Worker Path) (front back : List (Worker Path))
      (at_ : s.workers = front ++ .received p :: back)
      (ahead : next = .reading p ∨ next = .filled p) :
      ReadAhead folder s { s with workers := front ++ next :: back }
  | read (p : Path) (data : List Path) (front back : List (Worker Path))
      (at_ : s.workers = front ++ .reading p :: back)
      (got : data = s.data ∨ data = s.data.insert p) :
      ReadAhead folder s { s with data := data, workers := front ++ .filled p :: back }
  | fill (p : Path) (front back : List (Worker Path))
      (at_ : s.workers = front ++ .filled p :: back) :
      ReadAhead folder s { s with done := p :: s.done, workers := front ++ .idle :: back }

/-- All that the walk can do. -/
inductive Walk (folder : Folder Path) (s : State Path) : State Path → Prop where
  | skip (file : DirEntry Path) (rest : List (DirEntry Path)) (phase : s.phase = .entry)
      (next : s.rest = file :: rest) (other : byWriteFile file = false) :
      Walk folder s { s with rest := rest }
  | write (phase : s.phase = .entry) : Walk folder s { s with phase := .writing }
  | read (file : DirEntry Path) (rest : List (DirEntry Path)) (phase : s.phase = .writing)
      (next : s.rest = file :: rest) (ahead : file.path ∈ folder.paths) :
      Walk folder s { s with phase := .waiting }
  | receive (phase : s.phase = .waiting) : Walk folder s { s with phase := .writing }
  | written (file : DirEntry Path) (rest : List (DirEntry Path)) (phase : s.phase = .writing)
      (next : s.rest = file :: rest) (ahead : file.path ∈ folder.paths) :
      Walk folder s { s with phase := .releasing }
  | unread (file : DirEntry Path) (rest : List (DirEntry Path)) (phase : s.phase = .writing)
      (next : s.rest = file :: rest) (absent : file.path ∉ folder.paths) :
      Walk folder s { s with phase := .entry, rest := rest }
  | drop (file : DirEntry Path) (rest : List (DirEntry Path)) (phase : s.phase = .releasing)
      (next : s.rest = file :: rest) (ready : file.path ∈ s.done) :
      Walk folder s { s with phase := .freeing, data := s.data.erase file.path }
  | free (file : DirEntry Path) (rest : List (DirEntry Path)) (p : Path) (slots : List Path)
      (phase : s.phase = .freeing) (next : s.rest = file :: rest) (token : s.slots = p :: slots) :
      Walk folder s { s with
        phase := .entry, rest := rest, slots := slots, released := s.released ++ [p] }
  | leave (phase : s.phase = .entry ∨ s.phase = .writing) :
      Walk folder s { s with phase := .returning }
  | stop (phase : s.phase = .returning) :
      Walk folder s { s with phase := .returned, stopped := true }

theorem producerStep_move (folder : Folder Path) (s after : State Path) (action : ProducerAction)
    (taken : producerStep folder s action = some after) : ReadAhead folder s after := by
  cases action with
  | take =>
    simp only [producerStep] at taken
    split at taken
    · next p later running none_ next =>
        split at taken
        · next room =>
            cases taken
            exact .take p later running none_ next room
        · cases taken
    · cases taken
  | send =>
    simp only [producerStep] at taken
    split at taken
    · next p offered =>
        split at taken
        · next room =>
            cases taken
            exact .send p offered room
        · cases taken
    · cases taken
  | quit =>
    simp only [producerStep] at taken
    split at taken
    · next running none_ stopped =>
        cases taken
        exact .close running none_ (Or.inl stopped)
    · cases taken
  | close =>
    simp only [producerStep] at taken
    split at taken
    · next running none_ all =>
        cases taken
        exact .close running none_ (Or.inr all)
    · cases taken

theorem set_parts {α : Type} {l : List α} {i : Nat} {a : α} (found : l[i]? = some a) (b : α) :
    ∃ front back, l = front ++ a :: back ∧ l.set i b = front ++ b :: back := by
  obtain ⟨inside, value⟩ := List.getElem?_eq_some_iff.mp found
  refine ⟨l.take i, l.drop (i + 1), ?_, List.set_eq_take_append_cons_drop.trans (if_pos inside)⟩
  rw [← value, List.getElem_cons_drop, List.take_append_drop]

theorem workerStep_move (folder : Folder Path) (s after : State Path) (i : Nat) (reads : Bool)
    (taken : workerStep s i reads = some after) : ReadAhead folder s after := by
  unfold workerStep at taken
  split at taken
  · next state =>
      split at taken
      · next p later queued =>
          obtain ⟨front, back, parts, set⟩ := set_parts state (.received p)
          simp only [setWorker, set] at taken
          cases taken
          exact .receive p later front back parts queued
      · next drained =>
          split at taken
          · next closed =>
              obtain ⟨front, back, parts, set⟩ := set_parts state .exited
              simp only [setWorker, set] at taken
              cases taken
              exact .exit front back parts drained closed
          · cases taken
  · next p state =>
      split at taken
      · obtain ⟨front, back, parts, set⟩ := set_parts state (.filled p)
        simp only [setWorker, set] at taken
        cases taken
        exact .look p _ front back parts (Or.inr rfl)
      · obtain ⟨front, back, parts, set⟩ := set_parts state (.reading p)
        simp only [setWorker, set] at taken
        cases taken
        exact .look p _ front back parts (Or.inl rfl)
  · next p state =>
      obtain ⟨front, back, parts, set⟩ := set_parts state (.filled p)
      split at taken
      · simp only [setWorker, set] at taken
        cases taken
        exact .read p _ front back parts (Or.inr rfl)
      · simp only [setWorker, set] at taken
        cases taken
        exact .read p s.data front back parts (Or.inl rfl)
  · next p state =>
      obtain ⟨front, back, parts, set⟩ := set_parts state .idle
      simp only [setWorker, set] at taken
      cases taken
      exact .fill p front back parts
  · cases taken
  · cases taken

theorem walkStep_move (folder : Folder Path) (s after : State Path) (action : WalkAction)
    (taken : walkStep folder s action = some after) : Walk folder s after := by
  cases action with
  | skip =>
    simp only [walkStep] at taken
    split at taken
    · next file rest phase next =>
        split at taken
        · cases taken
        · next other =>
            cases taken
            exact .skip file rest phase next (by simpa using other)
    · cases taken
  | write =>
    simp only [walkStep] at taken
    split at taken
    · next file rest phase next =>
        split at taken
        · cases taken
          exact .write phase
        · cases taken
    · cases taken
  | read =>
    simp only [walkStep] at taken
    split at taken
    · next file rest phase next =>
        split at taken
        · next ahead =>
            cases taken
            exact .read file rest phase next ahead
        · cases taken
    · cases taken
  | receive =>
    simp only [walkStep] at taken
    split at taken
    · next file rest phase next =>
        split at taken
        · cases taken
          exact .receive phase
        · cases taken
    · cases taken
  | written =>
    simp only [walkStep] at taken
    split at taken
    · next file rest phase next =>
        split at taken
        · next ahead =>
            cases taken
            exact .written file rest phase next ahead
        · next absent =>
            cases taken
            exact .unread file rest phase next absent
    · cases taken
  | drop =>
    simp only [walkStep] at taken
    split at taken
    · next file rest phase next =>
        split at taken
        · next ready =>
            cases taken
            exact .drop file rest phase next ready
        · cases taken
    · cases taken
  | free =>
    simp only [walkStep] at taken
    split at taken
    · next file rest p slots phase next token =>
        cases taken
        exact .free file rest p slots phase next token
    · cases taken
  | finish =>
    simp only [walkStep] at taken
    split at taken
    · next phase next =>
        cases taken
        exact .leave (Or.inl phase)
    · cases taken
  | fail =>
    simp only [walkStep] at taken
    split at taken
    · next phase =>
        cases taken
        exact .leave (Or.inl phase)
    · next phase =>
        cases taken
        exact .leave (Or.inr phase)
    · cases taken
  | stop =>
    simp only [walkStep] at taken
    split at taken
    · next phase =>
        cases taken
        exact .stop phase
    · cases taken

/-- The entries under way between their slot and their done. -/
def pending (s : State Path) : List Path :=
  s.offer.toList ++ s.jobs ++ s.workers.flatMap Worker.entry

/-- How slots, jobs, workers and the walk's position hang together: the slots in use are
those of the files from the walk's on, in the walk's order, and each is under way or done. -/
structure Linked (folder : Folder Path) (s : State Path) : Prop where
  order : s.taken ++ s.untaken = folder.paths
  tokens : s.released ++ s.slots = s.taken
  passed : s.released ++ pathsOf folder.prefetchWorkers s.rest = folder.paths
  suffix : s.rest <:+ folder.files
  room : s.slots.length ≤ folder.workers
  once : (pending s).Nodup
  underWay : ∀ p, p ∈ pending s ↔ p ∈ s.slots ∧ p ∉ s.done
  doneTaken : ∀ p ∈ s.done, p ∈ s.taken
  dataOnce : s.data.Nodup
  dataSlots : ∀ p ∈ s.data, p ∈ s.slots
  size : s.workers.length = folder.workers
  exited : .exited ∈ s.workers → s.jobsClosed = true ∧ s.jobs = []
  closed : s.jobsClosed = true → s.offer = none ∧ (s.stopped = true ∨ s.untaken = [])
  stopped : s.stopped = true → s.phase = .returned
  current : s.phase = .waiting ∨ s.phase = .releasing ∨ s.phase = .freeing →
    ∃ file rest, s.rest = file :: rest ∧ file.path ∈ folder.paths
  freeing : s.phase = .freeing → ∀ file rest, s.rest = file :: rest →
    file.path ∈ s.done ∧ file.path ∉ s.data

omit [DecidableEq Path] in
theorem paths_nodup (folder : Folder Path) : folder.paths.Nodup := by
  have kept : folder.paths.Sublist (folder.files.map DirEntry.path) :=
    List.filter_sublist.map DirEntry.path
  exact kept.nodup folder.distinct

omit [DecidableEq Path] in
theorem pathsOf_cons (prefetchWorkers : Int) (file : DirEntry Path) (rest : List (DirEntry Path)) :
    pathsOf prefetchWorkers (file :: rest) =
      if 0 < prefetchWorkers ∧ qualifies file then file.path :: pathsOf prefetchWorkers rest
      else pathsOf prefetchWorkers rest := by
  by_cases ahead : 0 < prefetchWorkers ∧ qualifies file = true
  · simp [pathsOf, ahead]
  · rw [if_neg ahead]
    simp only [pathsOf]
    rw [List.filter_cons_of_neg]
    simpa using ahead

omit [DecidableEq Path] in
/-- Two entries of one folder with one path are the same entry. -/
theorem mem_paths_iff (folder : Folder Path) (file : DirEntry Path) (listed : file ∈ folder.files) :
    file.path ∈ folder.paths ↔ 0 < folder.prefetchWorkers ∧ qualifies file := by
  constructor
  · intro member
    obtain ⟨other, inside, same⟩ := List.mem_map.mp member
    have both := List.mem_filter.mp inside
    have equal := List.inj_on_of_nodup_map folder.distinct both.1 listed same
    simpa [equal] using both.2
  · rintro ⟨on, ahead⟩
    apply List.mem_map_of_mem
    exact List.mem_filter.mpr ⟨listed, by simp [on, ahead]⟩

omit [DecidableEq Path] in
theorem pending_send (s : State Path) (p : Path) (offered : s.offer = some p) :
    (pending { s with offer := none, jobs := s.jobs ++ [p] }).Perm (pending s) := by
  simp only [pending, offered, Option.toList_none, Option.toList_some, List.nil_append]
  apply List.Perm.append_right
  exact List.perm_append_comm

omit [DecidableEq Path] in
theorem pending_receive (s : State Path) (p : Path) (later : List Path)
    (front back : List (Worker Path)) (at_ : s.workers = front ++ .idle :: back)
    (queued : s.jobs = p :: later) :
    (pending { s with jobs := later, workers := front ++ .received p :: back }).Perm
      (pending s) := by
  simp only [pending, at_, queued, List.flatMap_append, List.flatMap_cons, Worker.entry,
    List.nil_append, List.append_assoc, List.cons_append]
  apply List.Perm.append_left
  rw [← List.append_assoc, ← List.append_assoc]
  exact List.perm_middle

omit [DecidableEq Path] in
/-- A worker that goes on with its entry. -/
theorem pending_same (s : State Path) (data : List Path) (before next : Worker Path)
    (front back : List (Worker Path)) (at_ : s.workers = front ++ before :: back)
    (same : next.entry = before.entry) :
    pending { s with data := data, workers := front ++ next :: back } = pending s := by
  simp only [pending, at_, List.flatMap_append, List.flatMap_cons, same]

omit [DecidableEq Path] in
theorem pending_fill (s : State Path) (p : Path) (done : List Path)
    (front back : List (Worker Path)) (at_ : s.workers = front ++ .filled p :: back) :
    (pending s).Perm (p :: pending { s with done := done, workers := front ++ .idle :: back }) := by
  simp only [pending, at_, List.flatMap_append, List.flatMap_cons, Worker.entry,
    List.nil_append, List.cons_append]
  rw [← List.append_assoc, ← List.append_assoc]
  exact List.perm_middle

omit [DecidableEq Path] in
theorem pending_start (folder : Folder Path) : pending (State.init folder) = [] := by
  have idle : (List.replicate folder.workers (.idle : Worker Path)).flatMap Worker.entry = [] := by
    apply List.flatMap_eq_nil_iff.mpr
    intro w member
    rw [List.eq_of_mem_replicate member]
    rfl
  exact idle

omit [DecidableEq Path] in
theorem linked_start (folder : Folder Path) : Linked folder (State.init folder) where
  order := rfl
  tokens := rfl
  passed := rfl
  suffix := List.suffix_refl _
  room := Nat.zero_le _
  once := by
    rw [pending_start]
    exact List.nodup_nil
  underWay := by
    rw [pending_start]
    simp [State.init]
  doneTaken := by simp [State.init]
  dataOnce := List.nodup_nil
  dataSlots := by simp [State.init]
  size := List.length_replicate
  exited := by simp [State.init]
  closed := by simp [State.init]
  stopped := by simp [State.init]
  current := by simp [State.init]
  freeing := by simp [State.init]

omit [DecidableEq Path] in
theorem Linked.takenOnce {folder : Folder Path} {s : State Path} (held : Linked folder s) :
    s.taken.Nodup := by
  have all := paths_nodup folder
  rw [← held.order] at all
  exact (List.nodup_append.mp all).1

omit [DecidableEq Path] in
/-- The entries under way have slots, so jobs has room for the one that is offered. -/
theorem Linked.pending_le {folder : Folder Path} {s : State Path} (held : Linked folder s) :
    (pending s).length ≤ folder.workers := by
  have within : pending s ⊆ s.slots := fun p member => ((held.underWay p).mp member).1
  exact Nat.le_trans (held.once.subperm within).length_le held.room

theorem readAhead_linked (folder : Folder Path) (s after : State Path) (held : Linked folder s)
    (move : ReadAhead folder s after) : Linked folder after := by
  cases move with
  | take p later running none_ next room =>
    have fresh : p ∉ s.taken := by
      intro old
      have all := paths_nodup folder
      rw [← held.order, next] at all
      exact (List.nodup_append.mp all).2.2 p old p List.mem_cons_self rfl
    have noDone : p ∉ s.done := fun done => fresh (held.doneTaken p done)
    have noSlot : p ∉ s.slots := by
      intro slot
      apply fresh
      rw [← held.tokens]
      exact List.mem_append_right _ slot
    have noPending : p ∉ pending s := fun old => noSlot ((held.underWay p).mp old).1
    have started : pending { s with
        untaken := later, offer := some p, slots := s.slots ++ [p], taken := s.taken ++ [p] } =
          p :: pending s := by
      simp [pending, none_]
    refine { held with
      order := ?_, tokens := ?_, room := ?_, once := ?_, underWay := ?_, doneTaken := ?_,
      dataSlots := ?_, closed := ?_ }
    · rw [← held.order, next, List.append_assoc]
      rfl
    · rw [← List.append_assoc, held.tokens]
    · rw [List.length_append]
      exact room
    · rw [started]
      exact List.nodup_cons.mpr ⟨noPending, held.once⟩
    · intro q
      rw [started, List.mem_cons, held.underWay q, List.mem_append, List.mem_singleton]
      constructor
      · rintro (rfl | ⟨slot, open_⟩)
        · exact ⟨Or.inr rfl, noDone⟩
        · exact ⟨Or.inl slot, open_⟩
      · rintro ⟨slot | new, open_⟩
        · exact Or.inr ⟨slot, open_⟩
        · exact Or.inl new
    · intro q done
      exact List.mem_append_left _ (held.doneTaken q done)
    · intro q data
      exact List.mem_append_left _ (held.dataSlots q data)
    · intro closed
      rw [running] at closed
      cases closed
  | send p offered room =>
    have moved := pending_send s p offered
    have running : s.jobsClosed ≠ true := by
      intro closed
      have none_ := (held.closed closed).1
      rw [offered] at none_
      cases none_
    refine { held with once := ?_, underWay := ?_, exited := ?_, closed := ?_ }
    · exact moved.nodup_iff.mpr held.once
    · intro q
      rw [moved.mem_iff]
      exact held.underWay q
    · intro gone
      exact (running (held.exited gone).1).elim
    · intro closed
      exact (running closed).elim
  | close running none_ over_ =>
    refine { held with exited := ?_, closed := ?_ }
    · intro gone
      exact ⟨rfl, (held.exited gone).2⟩
    · intro _
      exact ⟨none_, over_⟩
  | receive p later front back at_ queued =>
    have moved := pending_receive s p later front back at_ queued
    refine { held with once := ?_, underWay := ?_, size := ?_, exited := ?_ }
    · exact moved.nodup_iff.mpr held.once
    · intro q
      rw [moved.mem_iff]
      exact held.underWay q
    · rw [← held.size, at_]
      simp
    · intro gone
      have old : Worker.exited ∈ s.workers := by
        rw [at_]
        simpa using gone
      have drained := (held.exited old).2
      rw [queued] at drained
      cases drained
  | exit front back at_ drained closed =>
    have same := pending_same s s.data .idle .exited front back at_ rfl
    refine { held with once := ?_, underWay := ?_, size := ?_, exited := ?_ }
    · rw [same]
      exact held.once
    · rw [same]
      exact held.underWay
    · rw [← held.size, at_]
      simp
    · intro _
      exact ⟨closed, drained⟩
  | look p next front back at_ ahead =>
    have entry : next.entry = (Worker.received p).entry := by
      rcases ahead with rfl | rfl
      · rfl
      · rfl
    have same := pending_same s s.data (.received p) next front back at_ entry
    refine { held with once := ?_, underWay := ?_, size := ?_, exited := ?_ }
    · rw [same]
      exact held.once
    · rw [same]
      exact held.underWay
    · rw [← held.size, at_]
      simp
    · intro gone
      apply held.exited
      rw [at_]
      rcases ahead with rfl | rfl
      · simpa using gone
      · simpa using gone
  | read p data front back at_ got =>
    have same := pending_same s data (.reading p) (.filled p) front back at_ rfl
    have mine : p ∈ pending s := by
      simp [pending, at_, Worker.entry]
    have slot := (held.underWay p).mp mine
    refine { held with
      once := ?_, underWay := ?_, dataOnce := ?_, dataSlots := ?_, size := ?_, exited := ?_,
      freeing := ?_ }
    · rw [same]
      exact held.once
    · rw [same]
      exact held.underWay
    · rcases got with rfl | rfl
      · exact held.dataOnce
      · exact held.dataOnce.insert
    · intro q member
      rcases got with rfl | rfl
      · exact held.dataSlots q member
      · rcases List.mem_insert_iff.mp member with new | old
        · exact new ▸ slot.1
        · exact held.dataSlots q old
    · rw [← held.size, at_]
      simp
    · intro gone
      apply held.exited
      rw [at_]
      simpa using gone
    · intro phase file rest next
      have state := held.freeing phase file rest next
      -- The file whose slot goes is done, so it is not the one that is read.
      have other : file.path ≠ p := fun equal => slot.2 (equal ▸ state.1)
      refine ⟨state.1, ?_⟩
      rcases got with rfl | rfl
      · exact state.2
      · intro member
        rcases List.mem_insert_iff.mp member with new | old
        · exact other new
        · exact state.2 old
  | fill p front back at_ =>
    have moved := pending_fill s p (p :: s.done) front back at_
    have mine : p ∈ pending s := moved.mem_iff.mpr List.mem_cons_self
    have slot := (held.underWay p).mp mine
    have apart := List.nodup_cons.mp (moved.nodup_iff.mp held.once)
    refine { held with
      once := ?_, underWay := ?_, doneTaken := ?_, size := ?_, exited := ?_, freeing := ?_ }
    · exact apart.2
    · intro q
      have known := held.underWay q
      rw [moved.mem_iff, List.mem_cons] at known
      constructor
      · intro member
        have both := known.mp (Or.inr member)
        refine ⟨both.1, ?_⟩
        intro done
        rcases List.mem_cons.mp done with new | old
        · exact apart.1 (new ▸ member)
        · exact both.2 old
      · rintro ⟨inSlot, open_⟩
        rw [List.mem_cons, not_or] at open_
        exact (known.mpr ⟨inSlot, open_.2⟩).resolve_left open_.1
    · intro q done
      rcases List.mem_cons.mp done with new | old
      · rw [new, ← held.tokens]
        exact List.mem_append_right _ slot.1
      · exact held.doneTaken q old
    · rw [← held.size, at_]
      simp
    · intro gone
      apply held.exited
      rw [at_]
      simpa using gone
    · intro phase file rest next
      have state := held.freeing phase file rest next
      exact ⟨List.mem_cons_of_mem _ state.1, state.2⟩

omit [DecidableEq Path] in
/-- The walk is past a file that has no entry. -/
theorem Linked.past {folder : Folder Path} {s : State Path} (held : Linked folder s)
    {file : DirEntry Path} {rest : List (DirEntry Path)} (next : s.rest = file :: rest)
    (absent : ¬ (0 < folder.prefetchWorkers ∧ qualifies file = true)) :
    s.released ++ pathsOf folder.prefetchWorkers rest = folder.paths ∧ rest <:+ folder.files := by
  constructor
  · have whole := held.passed
    rw [next, pathsOf_cons, if_neg absent] at whole
    exact whole
  · have whole := held.suffix
    rw [next] at whole
    exact (List.suffix_cons file rest).trans whole

omit [DecidableEq Path] in
theorem Linked.listed {folder : Folder Path} {s : State Path} (held : Linked folder s)
    {file : DirEntry Path} {rest : List (DirEntry Path)} (next : s.rest = file :: rest) :
    file ∈ folder.files := by
  apply held.suffix.subset
  rw [next]
  exact List.mem_cons_self

omit [DecidableEq Path] in
/-- The files from the walk's on are the ones that have a slot or are yet to take one. -/
theorem Linked.ahead {folder : Folder Path} {s : State Path} (held : Linked folder s) :
    s.slots ++ s.untaken = pathsOf folder.prefetchWorkers s.rest := by
  have both : s.released ++ (s.slots ++ s.untaken) =
      s.released ++ pathsOf folder.prefetchWorkers s.rest := by
    rw [← List.append_assoc, held.tokens, held.order, held.passed]
  exact List.append_cancel_left both

omit [DecidableEq Path] in
/-- The entry of the file the walk is at is the oldest token, or the next to be taken. -/
theorem Linked.next {folder : Folder Path} {s : State Path} (held : Linked folder s)
    {file : DirEntry Path} {rest : List (DirEntry Path)} (next : s.rest = file :: rest)
    (entry : file.path ∈ folder.paths) :
    s.slots ++ s.untaken = file.path :: pathsOf folder.prefetchWorkers rest := by
  have on := (mem_paths_iff folder file (held.listed next)).mp entry
  rw [held.ahead, next, pathsOf_cons, if_pos on]

omit [DecidableEq Path] in
/-- Once the file's entry is done, the oldest token is the file's own. -/
theorem Linked.own {folder : Folder Path} {s : State Path} (held : Linked folder s)
    {file : DirEntry Path} {rest : List (DirEntry Path)} (next : s.rest = file :: rest)
    (entry : file.path ∈ folder.paths) (done : file.path ∈ s.done) :
    ∃ slots, s.slots = file.path :: slots ∧
      slots ++ s.untaken = pathsOf folder.prefetchWorkers rest := by
  have whole := held.next next entry
  cases tokens : s.slots with
  | nil =>
    -- Without a token the file would not be taken yet.
    rw [tokens, List.nil_append] at whole
    have late : file.path ∈ s.untaken := by
      rw [whole]
      exact List.mem_cons_self
    have all := paths_nodup folder
    rw [← held.order] at all
    exact ((List.nodup_append.mp all).2.2 _ (held.doneTaken _ done) _ late rfl).elim
  | cons p slots =>
    rw [tokens, List.cons_append] at whole
    injection whole with same tail
    exact ⟨slots, by rw [same], tail⟩

theorem walk_linked (folder : Folder Path) (s after : State Path) (held : Linked folder s)
    (move : Walk folder s after) : Linked folder after := by
  cases move with
  | skip file rest phase next other =>
    have absent : ¬ (0 < folder.prefetchWorkers ∧ qualifies file = true) := by
      rintro ⟨_, ahead⟩
      simp only [qualifies, Bool.and_eq_true, Bool.not_eq_true'] at ahead
      simp [byWriteFile, ahead] at other
    have past := held.past next absent
    refine { held with passed := past.1, suffix := past.2, current := ?_, freeing := ?_ }
    · rw [phase]
      simp
    · rw [phase]
      simp
  | write phase =>
    refine { held with stopped := ?_, current := ?_, freeing := ?_ }
    · intro ended
      rw [held.stopped ended] at phase
      cases phase
    · simp
    · simp
  | read file rest phase next ahead =>
    refine { held with stopped := ?_, current := ?_, freeing := ?_ }
    · intro ended
      rw [held.stopped ended] at phase
      cases phase
    · intro _
      exact ⟨file, rest, next, ahead⟩
    · simp
  | receive phase =>
    refine { held with stopped := ?_, current := ?_, freeing := ?_ }
    · intro ended
      rw [held.stopped ended] at phase
      cases phase
    · simp
    · simp
  | written file rest phase next ahead =>
    refine { held with stopped := ?_, current := ?_, freeing := ?_ }
    · intro ended
      rw [held.stopped ended] at phase
      cases phase
    · intro _
      exact ⟨file, rest, next, ahead⟩
    · simp
  | unread file rest phase next absent =>
    have past := held.past next fun on => absent
      ((mem_paths_iff folder file (held.listed next)).mpr on)
    refine { held with
      passed := past.1, suffix := past.2, stopped := ?_, current := ?_, freeing := ?_ }
    · intro ended
      rw [held.stopped ended] at phase
      cases phase
    · simp
    · simp
  | drop file rest phase next ready =>
    refine { held with
      dataOnce := ?_, dataSlots := ?_, stopped := ?_, current := ?_, freeing := ?_ }
    · exact held.dataOnce.erase _
    · intro q member
      exact held.dataSlots q (List.mem_of_mem_erase member)
    · intro ended
      rw [held.stopped ended] at phase
      cases phase
    · intro _
      exact held.current (Or.inr (Or.inl phase))
    · intro _ other later same
      rw [next] at same
      injection same with equal
      rw [← equal]
      exact ⟨ready, fun member => (held.dataOnce.mem_erase_iff.mp member).1 rfl⟩
  | free file rest p slots phase next token =>
    have state := held.freeing phase file rest next
    obtain ⟨other, later, same, entry⟩ := held.current (Or.inr (Or.inr phase))
    have equal : other = file := by
      rw [next] at same
      injection same with equal
      exact equal.symm
    rw [equal] at entry
    obtain ⟨tail, tokens, ahead⟩ := held.own next entry state.1
    rw [token] at tokens
    injection tokens with own back
    refine { held with
      tokens := ?_, passed := ?_, suffix := ?_, room := ?_, underWay := ?_, dataSlots := ?_,
      stopped := ?_, current := ?_, freeing := ?_ }
    · rw [← held.tokens, token, List.append_assoc]
      rfl
    · have order := held.order
      rw [← held.tokens, token, back, List.append_assoc, List.cons_append, ahead] at order
      rw [List.append_assoc]
      exact order
    · have whole := held.suffix
      rw [next] at whole
      exact (List.suffix_cons file rest).trans whole
    · have room := held.room
      rw [token] at room
      exact Nat.le_of_succ_le room
    · intro q
      have known := held.underWay q
      rw [token, List.mem_cons] at known
      constructor
      · intro member
        have both := known.mp member
        refine ⟨both.1.resolve_left ?_, both.2⟩
        intro mine
        exact both.2 (mine ▸ own ▸ state.1)
      · rintro ⟨inSlot, open_⟩
        exact known.mpr ⟨Or.inr inSlot, open_⟩
    · intro q member
      have inSlots := held.dataSlots q member
      rw [token, List.mem_cons] at inSlots
      apply inSlots.resolve_left
      intro mine
      exact state.2 (own ▸ mine ▸ member)
    · intro ended
      rw [held.stopped ended] at phase
      cases phase
    · simp
    · simp
  | leave phase =>
    refine { held with stopped := ?_, current := ?_, freeing := ?_ }
    · intro ended
      rw [held.stopped ended] at phase
      rcases phase with wrong | wrong
      · cases wrong
      · cases wrong
    · simp
    · simp
  | stop phase =>
    refine { held with closed := ?_, stopped := ?_, current := ?_, freeing := ?_ }
    · intro closed
      exact ⟨(held.closed closed).1, Or.inl rfl⟩
    · intro _
      rfl
    · simp
    · simp

theorem linked_invariant (folder : Folder Path) : Invariant (system folder) (Linked folder) where
  start state initial := initial ▸ linked_start folder
  step before action after held taken := by
    cases action with
    | producer action =>
      exact readAhead_linked folder before after held (producerStep_move folder _ _ action taken)
    | worker i reads =>
      exact readAhead_linked folder before after held (workerStep_move folder _ _ i reads taken)
    | walk action =>
      exact walk_linked folder before after held (walkStep_move folder _ _ action taken)

/-- The steps of the producer and the workers alone. -/
def Action.ahead : Action → Prop
  | .walk _ => False
  | _ => True

def background (folder : Folder Path) : System (State Path) Action :=
  (system folder).restrict fun _ action => action.ahead

def Worker.left : Worker Path → Nat
  | .exited => 0
  | .idle => 1
  | .filled _ => 2
  | .reading _ => 3
  | .received _ => 4

/-- How many steps the reading ahead has left at most. -/
def left (s : State Path) : Nat :=
  6 * s.untaken.length + 5 * s.offer.toList.length + 4 * s.jobs.length +
    (if s.jobsClosed then 0 else 1) + (s.workers.map Worker.left).sum

omit [DecidableEq Path] in
theorem left_workers (front back : List (Worker Path)) (w : Worker Path) :
    ((front ++ w :: back).map Worker.left).sum =
      w.left + ((front.map Worker.left).sum + (back.map Worker.left).sum) := by
  simp only [List.map_append, List.map_cons, List.sum_append, List.sum_cons]
  omega

theorem readAhead_left (folder : Folder Path) (s after : State Path)
    (move : ReadAhead folder s after) : left after < left s := by
  cases move with
  | take p later running none_ next room =>
    simp only [left, none_, next, Option.toList_none, Option.toList_some, List.length_nil,
      List.length_cons]
    omega
  | send p offered room =>
    simp only [left, offered, Option.toList_none, Option.toList_some, List.length_nil,
      List.length_cons, List.length_append]
    omega
  | close running none_ over_ =>
    simp only [left, running]
    simp
  | receive p later front back at_ queued =>
    simp only [left, at_, queued, left_workers, Worker.left, List.length_cons]
    omega
  | exit front back at_ drained closed =>
    simp only [left, at_, left_workers, Worker.left]
    omega
  | look p next front back at_ ahead =>
    have less : next.left < 4 := by
      rcases ahead with rfl | rfl
      · exact Nat.lt_succ_self 3
      · exact Nat.lt_of_succ_lt (Nat.lt_succ_self 3)
    have now : (Worker.received p).left = 4 := rfl
    simp only [left, at_, left_workers, now]
    omega
  | read p data front back at_ got =>
    simp only [left, at_, left_workers, Worker.left]
    omega
  | fill p front back at_ =>
    simp only [left, at_, left_workers, Worker.left]
    omega

theorem background_move (folder : Folder Path) (s after : State Path) (action : Action)
    (taken : (background folder).step s action after) : ReadAhead folder s after := by
  cases action with
  | producer action => exact producerStep_move folder s after action taken.1
  | worker i reads => exact workerStep_move folder s after i reads taken.1
  | walk action => exact taken.2.elim

/-- A worker that is in the pool and has an entry in hand goes on with it. -/
theorem worker_moves (folder : Folder Path) (s : State Path) (w : Worker Path)
    (member : w ∈ s.workers) (busy : w.entry ≠ []) :
    ∃ action after, (background folder).step s action after := by
  obtain ⟨i, at_⟩ := List.mem_iff_getElem?.mp member
  cases w with
  | idle => exact (busy rfl).elim
  | exited => exact (busy rfl).elim
  | received p =>
    by_cases ended : s.stopped = true
    · exact ⟨.worker i true, _, by simp [system, step, workerStep, at_, ended]; rfl, trivial⟩
    · exact ⟨.worker i true, _, by simp [system, step, workerStep, at_, ended]; rfl, trivial⟩
  | reading p =>
    exact ⟨.worker i false, _, by simp [system, step, workerStep, at_]; rfl, trivial⟩
  | filled p =>
    exact ⟨.worker i true, _, by simp [system, step, workerStep, at_]; rfl, trivial⟩

/-- Jobs that are queued are received by an idle worker, or every worker is busy. -/
theorem queued_moves (folder : Folder Path) (s : State Path) (held : Linked folder s)
    (p : Path) (queued : p ∈ s.jobs) : ∃ action after, (background folder).step s action after := by
  have some_ : 0 < s.workers.length := by
    have size := held.pending_le
    have mine : p ∈ pending s :=
      List.mem_append_left _ (List.mem_append_right _ queued)
    have positive := List.length_pos_of_mem mine
    rw [held.size]
    omega
  obtain ⟨w, member⟩ := List.exists_mem_of_length_pos some_
  cases state : w with
  | idle =>
    obtain ⟨i, at_⟩ := List.mem_iff_getElem?.mp (state ▸ member)
    cases jobs : s.jobs with
    | nil =>
      rw [jobs] at queued
      cases queued
    | cons q later =>
      exact ⟨.worker i true, _, by simp [system, step, workerStep, at_, jobs]; rfl, trivial⟩
  | exited =>
    have drained := (held.exited (state ▸ member)).2
    rw [drained] at queued
    cases queued
  | received q => exact worker_moves folder s w member (by simp [state, Worker.entry])
  | reading q => exact worker_moves folder s w member (by simp [state, Worker.entry])
  | filled q => exact worker_moves folder s w member (by simp [state, Worker.entry])

/-- An entry that is under way moves: from the producer to jobs, from there to a worker,
and on with the worker. -/
theorem pending_moves (folder : Folder Path) (s : State Path) (held : Linked folder s)
    (p : Path) (under : p ∈ pending s) :
    ∃ action after, (background folder).step s action after := by
  rcases List.mem_append.mp under with early | inHand
  · rcases List.mem_append.mp early with offered | queued
    · have offer : s.offer = some p := by simpa using offered
      have room : s.jobs.length < folder.workers := by
        have size := held.pending_le
        simp only [pending, offer, Option.toList_some, List.length_append, List.length_cons] at size
        omega
      exact ⟨.producer .send, _, by simp [system, step, producerStep, offer, room]; rfl, trivial⟩
    · exact queued_moves folder s held p queued
  · obtain ⟨w, member, entry⟩ := List.mem_flatMap.mp inHand
    apply worker_moves folder s w member
    intro nothing
    rw [nothing] at entry
    cases entry

/-- The walk is blocked on the done of an entry, in WriteFile or in release. -/
def Waits (s : State Path) (p : Path) : Prop :=
  (s.phase = .waiting ∨ s.phase = .releasing) ∧ ∃ file rest, s.rest = file :: rest ∧ file.path = p

/-- While the entry the walk waits for is not done, the reading ahead can move. -/
theorem waits_moves (folder : Folder Path) (s : State Path) (held : Linked folder s) (p : Path)
    (waits : Waits s p) (open_ : p ∉ s.done) :
    ∃ action after, (background folder).step s action after := by
  obtain ⟨phase, file, rest, next, rfl⟩ := waits
  have current : ∃ file rest, s.rest = file :: rest ∧ file.path ∈ folder.paths := by
    apply held.current
    rcases phase with reading | releasing
    · exact Or.inl reading
    · exact Or.inr (Or.inl releasing)
  obtain ⟨other, later, same, entry⟩ := current
  rw [next] at same
  injection same with equal
  rw [← equal] at entry
  have line := held.next next entry
  cases tokens : s.slots with
  | cons q slots =>
    rw [tokens, List.cons_append] at line
    injection line with own
    apply pending_moves folder s held file.path
    apply (held.underWay file.path).mpr
    refine ⟨?_, open_⟩
    rw [tokens, own]
    exact List.mem_cons_self
  | nil =>
    -- No slot is taken, so the file is the next the producer takes one for.
    rw [tokens, List.nil_append] at line
    have going : s.stopped ≠ true := by
      intro ended
      have gone := held.stopped ended
      rcases phase with reading | releasing
      · rw [gone] at reading
        cases reading
      · rw [gone] at releasing
        cases releasing
    have running : s.jobsClosed = false := by
      apply Bool.eq_false_iff.mpr
      intro closed
      rcases (held.closed closed).2 with ended | all
      · exact going ended
      · rw [all] at line
        cases line
    cases offer : s.offer with
    | some q =>
      apply pending_moves folder s held q
      simp [pending, offer]
    | none =>
      have room : 0 < folder.workers := by
        have on := (mem_paths_iff folder file (held.listed next)).mp entry
        have positive := List.length_pos_of_mem entry
        rw [Folder.workers]
        omega
      exact ⟨.producer .take, _, by
        simp [system, step, producerStep, running, offer, line, tokens, room]
        rfl, trivial⟩

/-- The reading ahead leaves the walk where it is. -/
theorem background_waits (folder : Folder Path) (s after : State Path) (action : Action) (p : Path)
    (waits : Waits s p) (taken : (background folder).step s action after) : Waits after p := by
  cases background_move folder s after action taken with
  | _ => exact waits

theorem background_invariant (folder : Folder Path) (p : Path) :
    ∀ before action after, (Linked folder before ∧ Waits before p) →
      (background folder).step before action after → Linked folder after ∧ Waits after p := by
  rintro before action after ⟨held, waits⟩ taken
  constructor
  · exact (linked_invariant folder).step before action after held taken.1
  · exact background_waits folder before after action p waits taken

theorem background_length (folder : Folder Path) (s after : State Path) (actions : List Action)
    (run : Run (background folder) s actions after) : actions.length + left after ≤ left s := by
  have always : Invariant (background folder) fun _ => True :=
    ⟨fun _ _ => trivial, fun _ _ _ _ _ => trivial⟩
  have lower : Decreasing (background folder) (fun _ => True) left := by
    intro before action next _ taken
    exact readAhead_left folder before next (background_move folder before next action taken)
  exact run_length_le_measure always lower run trivial

/-- What holds of one folder's read-ahead at any moment of any run. -/
structure Prefetched (folder : Folder Path) (s : State Path) : Prop where
  /-- However producer and workers go on while the walk waits for an entry, they come to
  an end, and not before the entry is done. -/
  fills : ∀ p, Waits s p → ∀ actions after, Run (background folder) s actions after →
    actions.length ≤ left s ∧
      (p ∈ after.done ∨ ∃ action next, (background folder).step after action next)
  frees : s.phase = .freeing → ∃ file rest slots,
    s.rest = file :: rest ∧ s.slots = file.path :: slots
  bounded : s.data.length ≤ folder.prefetchWorkers.toNat ∧
    s.slots.length ≤ folder.prefetchWorkers.toNat
  once : s.taken = s.released ++ s.slots ∧ s.taken.Nodup
  passed : ∀ passed, folder.files = passed ++ s.rest →
    s.released = pathsOf folder.prefetchWorkers passed
  whole : s.rest = [] → s.released = s.taken ∧ s.taken = folder.paths

omit [DecidableEq Path] in
theorem pathsOf_append (prefetchWorkers : Int) (front back : List (DirEntry Path)) :
    pathsOf prefetchWorkers (front ++ back) =
      pathsOf prefetchWorkers front ++ pathsOf prefetchWorkers back := by
  simp [pathsOf]

theorem prefetch_ok (folder : Folder Path) (s : State Path)
    (reached : Reachable (system folder) s) : Prefetched folder s := by
  have held := (linked_invariant folder).reachable reached
  have size : folder.workers ≤ folder.prefetchWorkers.toNat := Nat.min_le_left _ _
  constructor
  · intro p waits actions after run
    have length := background_length folder s after actions run
    have later := run_keeps (fun state => Linked folder state ∧ Waits state p)
      (background_invariant folder p) run ⟨held, waits⟩
    constructor
    · omega
    · by_cases done : p ∈ after.done
      · exact Or.inl done
      · exact Or.inr (waits_moves folder after later.1 p later.2 done)
  · intro phase
    obtain ⟨file, rest, next, entry⟩ := held.current (Or.inr (Or.inr phase))
    obtain ⟨slots, token, _⟩ := held.own next entry (held.freeing phase file rest next).1
    exact ⟨file, rest, slots, next, token⟩
  · have within := (held.dataOnce.subperm held.dataSlots).length_le
    have room := held.room
    constructor
    · omega
    · omega
  · exact ⟨held.tokens.symm, held.takenOnce⟩
  · intro passed parts
    have both := held.passed
    rw [Folder.paths, parts, pathsOf_append] at both
    exact List.append_cancel_right both
  · intro none_
    have ahead := held.ahead
    have order := held.order
    rw [none_] at ahead
    have empty := List.append_eq_nil_iff.mp ahead
    rw [empty.2, List.append_nil] at order
    refine ⟨?_, order⟩
    rw [← held.tokens, empty.1, List.append_nil]

def smallFile (path : Nat) : DirEntry Nat where
  path := path
  isDir := false
  systemFile := false
  isExcluded := false
  info := some 10
  isLinkEntry := false
  special := false
  reuseCandidate := false

def oneFile : Folder Nat where
  files := [smallFile 7]
  distinct := List.pairwise_singleton _ _
  prefetchWorkers := 2

/-- The walk is at the file before the producer has started. -/
theorem oneFile_waits : ∃ s, Waits s 7 ∧ Prefetched oneFile s := by
  have ran : ([Action.walk .write, .walk .read].foldlM (step oneFile) (State.init oneFile)).map
      (fun s => (s.phase, s.rest.map DirEntry.path)) = some (.waiting, [7]) := by decide +kernel
  obtain ⟨s, executed, facts⟩ := Option.map_eq_some_iff.mp ran
  injection facts with phase rest
  have run : Run (system oneFile) _ _ s :=
    run_of_foldlM (step oneFile) (fun _ _ _ taken => taken) executed
  cases files : s.rest with
  | nil =>
    rw [files] at rest
    cases rest
  | cons file later =>
    rw [files] at rest
    injection rest with own _
    exact ⟨s, ⟨Or.inl phase, file, later, files, own⟩,
      prefetch_ok oneFile s ⟨_, _, rfl, run⟩⟩

/-- The folder's walk fails before it comes to the file, which is read ahead by then. -/
def abandonedRun : List Action :=
  [.producer .take, .producer .send, .producer .close, .worker 0 true, .worker 0 true,
    .worker 0 true, .worker 0 true, .worker 0 true, .walk .fail, .walk .stop]

theorem abandoned_slot : ∃ s, Reachable (system oneFile) s ∧ Stuck (system oneFile) s ∧
    s.taken = [7] ∧ s.released = [] := by
  refine ⟨_, ⟨_, abandonedRun, rfl,
    run_of_foldlM (step oneFile) (fun _ _ _ taken => taken) rfl⟩, ?_, rfl, rfl⟩
  intro action after taken
  cases action with
  | producer action =>
    cases action with
    | _ => cases taken
  | worker i reads =>
    cases i with
    | zero => cases taken
    | succ i => cases taken
  | walk action =>
    cases action with
    | _ => cases taken

end ProxmoxBackup.Prefetch
