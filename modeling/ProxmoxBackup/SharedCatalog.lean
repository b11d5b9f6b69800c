import ProxmoxBackup.Catalog

/-! The one catalog of a run over several folders (sharedCatalogCoordinator of
gui/backup_inline.go): every folder's WriteDir sends its tables into the same
stream, a folder that succeeds records itself, and what is recorded at the end
becomes the root. A folder may fail after it has sent some of its tables. -/

namespace ProxmoxBackup.SharedCatalog

open Catalog

/-- A folder's archive. `noMTime` leaves the files' times out. -/
structure Archive where
  name : Bytes
  noMTime : Bool
  listing : Listing

structure Coordinator where
  stream : Bytes
  pos : Nat
  entries : List CatalogDir

def Coordinator.start : Coordinator := ⟨[], 0, []⟩

/-- How a folder's WriteDir ends, if the run goes on after it: a folder that fails
has sent that many of its catalog writes. -/
inductive Outcome where
  | succeeded
  | failed (sent : Nat)

/-- Where the folder's tables start: prepare skips the magic, and hands the position
on, once a folder is recorded. -/
def Coordinator.catalogStart (s : Coordinator) : Nat := if s.entries = [] then 8 else s.pos

def Coordinator.written (s : Coordinator) (a : Archive) : Written :=
  writeEntries a.noMTime a.listing s.catalogStart

/-- All catalog writes of the folder's WriteDir, in order. -/
def Coordinator.writes (s : Coordinator) (a : Archive) : List Bytes :=
  (if s.entries = [] then [catalogMagic] else []) ++
    ((s.written a).sent ++ [(s.written a).ownTable])

/-- One turn of the loop over the folders. Only success is recorded. -/
def backup (s : Coordinator) : Archive × Outcome → Coordinator
  | (a, .succeeded) =>
      { stream := s.stream ++ (s.writes a).flatten
        pos := (s.written a).pos + (s.written a).ownTable.length
        entries := s.entries ++ [⟨a.name, (s.written a).pos⟩] }
  | (a, .failed sent) => { s with stream := s.stream ++ ((s.writes a).take sent).flatten }

def run (folders : List (Archive × Outcome)) : Coordinator := folders.foldl backup .start

/-- Without a folder that succeeded the catalog is not closed and the run fails. -/
def Coordinator.closed (s : Coordinator) : Option Bytes :=
  if s.entries = [] then none else some (s.stream ++ writeSharedCatalogRoot s.pos s.entries)

def archives : List (Archive × Outcome) → List Archive
  | [] => []
  | (a, .succeeded) :: rest => a :: archives rest
  | (_, .failed _) :: rest => archives rest

def Archive.shown (a : Archive) : List CatalogEntry :=
  dirListed a.name :: a.listing.shown a.noMTime a.name

/-- The same in the reader's order. -/
def Archive.walked (a : Archive) : List CatalogEntry :=
  dirListed a.name ::
    (filesShown a.noMTime a.listing a.name ++ foldersShown a.noMTime a.listing a.name)

theorem walked_perm (a : Archive) : a.walked.Perm a.shown :=
  (shown_perm a.noMTime a.listing a.name).cons _

/-- One entry of the trailing table. -/
def visit (data : Bytes) (entries : List CatalogEntry) (d : CatalogDirRef) :
    Except CatalogError (List CatalogEntry) :=
  walkCatalog data (catalogMaxDepth + 1) d.start d.name (entries ++ [dirListed d.name])

theorem visit_archive (a : Archive) {data before after : Bytes} {entries : List CatalogEntry}
    (whole : data = before ++ ((writeEntries a.noMTime a.listing before.length).sent.flatten ++
      ((writeEntries a.noMTime a.listing before.length).ownTable ++ after)))
    (pointer : 8 ≤ after.length) (fits : data.length < 2 ^ 64)
    (shallow : a.listing.depth ≤ catalogMaxDepth)
    (room : entries.length + a.walked.length ≤ catalogMaxEntries) :
    visit data entries ⟨a.name, (writeEntries a.noMTime a.listing before.length).pos⟩ =
      .ok (entries ++ a.walked) := by
  rw [Archive.walked, List.length_cons] at room
  simp only [visit]
  rw [walk_directory (fun entries room => walk_folders a.noMTime a.listing whole (by
      rw [List.length_append]
      omega) fits (le_refl _) shallow room) whole pointer fits (by
      rw [List.length_append, List.length_singleton]
      omega), List.append_assoc]
  rfl

/-- The next folder's magic is counted to what is there already. -/
def Coordinator.opened (s : Coordinator) : Coordinator :=
  if s.entries = [] then { s with stream := s.stream ++ catalogMagic, pos := 8 } else s

/-- The position is the stream's end, and the entries so far are found from any
stream that goes on from here. -/
structure InStep (recorded : List Archive) (s : Coordinator) : Prop where
  magic : catalogMagic <+: s.stream
  pos : s.pos = s.stream.length
  back : ∀ d ∈ s.entries, d.pos ≤ s.pos
  found : ∀ (after : Bytes) (entries : List CatalogEntry), 8 ≤ after.length →
    (s.stream ++ after).length < 2 ^ 64 → (∀ a ∈ recorded, a.listing.depth ≤ catalogMaxDepth) →
    entries.length + (recorded.flatMap Archive.walked).length ≤ catalogMaxEntries →
    (s.entries.map CatalogDir.ref).foldlM (visit (s.stream ++ after)) entries =
      .ok (entries ++ recorded.flatMap Archive.walked)

theorem inStep_start : InStep [] Coordinator.start.opened where
  magic := List.prefix_refl _
  pos := rfl
  back := fun _ member => absurd member List.not_mem_nil
  found := fun _ entries _ _ _ _ => by
    rw [List.flatMap_nil, List.append_nil]
    rfl

theorem opened_recorded {s : Coordinator} (some : s.entries ≠ []) : s.opened = s := if_neg some

/-- A folder that succeeds appends to what the opened stream holds. -/
theorem backup_succeeded (s : Coordinator) (a : Archive) (place : s.opened.pos = s.opened.stream.length) :
    backup s (a, .succeeded) =
      { stream := s.opened.stream ++
          ((writeEntries a.noMTime a.listing s.opened.stream.length).sent.flatten ++
            (writeEntries a.noMTime a.listing s.opened.stream.length).ownTable)
        pos := (writeEntries a.noMTime a.listing s.opened.stream.length).pos +
          (writeEntries a.noMTime a.listing s.opened.stream.length).ownTable.length
        entries := s.entries ++
          [⟨a.name, (writeEntries a.noMTime a.listing s.opened.stream.length).pos⟩] } := by
  have start : s.catalogStart = s.opened.stream.length := by
    rw [← place, Coordinator.catalogStart, Coordinator.opened]
    split <;> rfl
  simp only [backup, Coordinator.writes, Coordinator.written, start]
  by_cases first : s.entries = []
  · simp only [Coordinator.opened, if_pos first, List.flatten_append, List.flatten_cons,
      List.flatten_nil, List.append_nil, List.append_assoc]
  · simp only [Coordinator.opened, if_neg first, List.flatten_append, List.flatten_cons,
      List.flatten_nil, List.append_nil, List.nil_append]

theorem inStep_succeeded {recorded : List Archive} {s : Coordinator} (a : Archive)
    (ready : InStep recorded s.opened) :
    InStep (recorded ++ [a]) (backup s (a, .succeeded)).opened := by
  have same : s.opened.entries = s.entries := by
    unfold Coordinator.opened
    split <;> rfl
  rw [opened_recorded (by simp [backup]), backup_succeeded s a ready.pos]
  have place := writeEntries_pos a.noMTime a.listing s.opened.stream.length
  constructor
  · exact ready.magic.trans (List.prefix_append _ _)
  · simp only [List.length_append]
    omega
  · intro d member
    rcases List.mem_append.mp member with old | new
    · have earlier := ready.back d (same ▸ old)
      rw [ready.pos] at earlier
      simp only
      omega
    · rw [List.mem_singleton.mp new]
      exact Nat.le_add_right _ _
  · intro after entries pointer fits shallow room
    rw [List.flatMap_append, List.flatMap_singleton, List.length_append] at room
    simp only [List.append_assoc] at fits ⊢
    rw [List.map_append, List.foldlM_append, ← same,
      ready.found _ entries (by simp only [List.length_append]; omega) fits
        (fun b member => shallow b (List.mem_append_left _ member)) (by omega), ok_bind,
      List.map_singleton, List.foldlM_cons]
    rw [CatalogDir.ref, visit_archive a rfl pointer fits
      (shallow a (List.mem_append_right _ List.mem_cons_self))
      (by rw [List.length_append]; omega), ok_bind, List.flatMap_append, List.flatMap_singleton,
      List.append_assoc]
    rfl

/-- A folder that has sent nothing leaves no trace. -/
theorem backup_silent (s : Coordinator) (a : Archive) : backup s (a, .failed 0) = s := by
  simp only [backup, List.take_zero, List.flatten_nil, List.append_nil]

def Silent (folder : Archive × Outcome) : Prop := ∀ sent, folder.2 = .failed sent → sent = 0

theorem inStep_run (folders : List (Archive × Outcome)) {recorded : List Archive}
    {s : Coordinator} (ready : InStep recorded s.opened) (silent : ∀ f ∈ folders, Silent f) :
    InStep (recorded ++ archives folders) (folders.foldl backup s).opened := by
  induction folders generalizing recorded s with
  | nil =>
      rw [archives, List.append_nil]
      exact ready
  | cons folder rest ih =>
      have later : ∀ f ∈ rest, Silent f := fun f member => silent f (List.mem_cons_of_mem _ member)
      rcases folder with ⟨a, _ | sent⟩
      · have next := ih (inStep_succeeded a ready) later
        rw [List.append_assoc] at next
        exact next
      · obtain rfl := silent _ List.mem_cons_self sent rfl
        rw [List.foldl_cons, backup_silent]
        exact ih ready later

/-- The root is read from the pointer, and every archive from the root. -/
theorem parseCatalog_closed {recorded : List Archive} {s : Coordinator} {stream : Bytes}
    (ready : InStep recorded s.opened) (closed : s.closed = some stream)
    (fits : stream.length < 2 ^ 63) (shallow : ∀ a ∈ recorded, a.listing.depth ≤ catalogMaxDepth)
    (room : (recorded.flatMap Archive.walked).length ≤ catalogMaxEntries) :
    parseCatalog stream = .ok (recorded.flatMap Archive.walked) := by
  have some : s.entries ≠ [] := by
    intro empty
    rw [Coordinator.closed, if_pos empty] at closed
    exact absurd closed (by simp)
  rw [opened_recorded some] at ready
  rw [Coordinator.closed, if_neg some, Option.some.injEq, writeSharedCatalogRoot] at closed
  obtain ⟨body, begun⟩ := ready.magic
  have magic : s.stream.length = 8 + body.length := by
    rw [← begun, List.length_append]
    rfl
  have size : stream.length =
      s.stream.length + ((block (table s.pos s.entries [])).length + 8) := by
    rw [← closed, List.length_append, List.length_append, LittleEndian.encode_length]
  have head : stream.take 8 = catalogMagic := by
    rw [← closed, ← begun, List.append_assoc]
    rfl
  have root : LittleEndian.decode (stream.drop (stream.length - 8)) = s.pos := by
    rw [size, ← closed, ← List.append_assoc, List.drop_left' (by rw [List.length_append]; omega)]
    exact LittleEndian.decode_encode 8 s.pos (by rw [ready.pos]; omega)
  have parsed := parseCatalogTable_block s.stream (LittleEndian.encode 8 s.pos) s.entries []
    (ready.pos ▸ ready.back) (LittleEndian.encode_length 8 s.pos).ge
  rw [← ready.pos, closed] at parsed
  have listed := ready.found (block (table s.pos s.entries []) ++ LittleEndian.encode 8 s.pos) []
    (by rw [List.length_append, LittleEndian.encode_length]; omega) (by rw [closed]; omega) shallow
    (by rw [List.length_nil, Nat.zero_add]; exact room)
  rw [closed, List.nil_append] at listed
  have refs : s.entries.map CatalogDir.ref ≠ [] := fun empty => some (List.map_eq_nil_iff.mp empty)
  have inside : ¬ (s.pos < 8 ∨ stream.length - 8 < s.pos) := by
    rw [ready.pos]
    omega
  rw [parseCatalog, if_neg (by omega), if_neg (not_not_intro head)]
  simp only [root, if_neg inside, parsed (by omega), ok_bind, List.map_nil]
  rw [if_neg (by simp only [not_true_eq_false, ne_eq, false_or]; exact refs)]
  exact listed

theorem walked_archives_perm (recorded : List Archive) :
    (recorded.flatMap Archive.walked).Perm (recorded.flatMap Archive.shown) := by
  induction recorded with
  | nil => exact List.Perm.refl _
  | cons a rest ih =>
      rw [List.flatMap_cons, List.flatMap_cons]
      exact (walked_perm a).append ih

theorem run_closed_iff (folders : List (Archive × Outcome)) :
    (run folders).closed ≠ none ↔ archives folders ≠ [] := by
  have grown : ∀ (folders : List (Archive × Outcome)) (s : Coordinator),
      (folders.foldl backup s).entries = [] ↔ s.entries = [] ∧ archives folders = [] := by
    intro folders
    induction folders with
    | nil => exact fun s => ⟨fun empty => ⟨empty, rfl⟩, And.left⟩
    | cons folder rest ih =>
        intro s
        rw [List.foldl_cons, ih]
        rcases folder with ⟨a, _ | sent⟩
        · simp [backup, archives]
        · simp [backup, archives]
  have fresh : (run folders).entries = [] ↔ archives folders = [] :=
    (grown folders .start).trans (and_iff_right rfl)
  rw [Coordinator.closed]
  split
  · next empty => simp [fresh.mp empty]
  · next filled => simp [mt fresh.mpr filled]

/-- The root holds exactly the folders that succeeded, and everything below them is
listed, as long as every folder that failed had sent no table and no magic. A stream
that ParseCatalog is given is a slice, whose length has 63 bits. -/
theorem partial_run_listed (folders : List (Archive × Outcome)) (stream : Bytes)
    (silent : ∀ f ∈ folders, Silent f) (closed : (run folders).closed = some stream)
    (fits : stream.length < 2 ^ 63)
    (shallow : ∀ a ∈ archives folders, a.listing.depth ≤ catalogMaxDepth)
    (room : ((archives folders).flatMap Archive.shown).length ≤ catalogMaxEntries) :
    ∃ listed, parseCatalog stream = .ok listed ∧
      listed.Perm ((archives folders).flatMap Archive.shown) := by
  have same := walked_archives_perm (archives folders)
  have ready := inStep_run folders inStep_start silent
  have some : (run folders).entries ≠ [] := by
    intro empty
    rw [Coordinator.closed, if_pos empty] at closed
    exact absurd closed (by simp)
  rw [List.nil_append] at ready
  exact ⟨_, parseCatalog_closed ready closed fits shallow (same.length_eq.trans_le room), same⟩

def docs : Archive := ⟨[100, 46, 112, 120, 97, 114], false, .file [97] 1700000000 3 .nil⟩

def share : Archive :=
  ⟨[115, 46, 112, 120, 97, 114], false, .folder [98] 1600000000 (.file [99] (-9) 300 .nil) .nil⟩

theorem partial_run_listed_silent :
    ∃ stream listed, (run [(share, .failed 0), (docs, .succeeded), (share, .succeeded)]).closed =
      some stream ∧ parseCatalog stream = .ok listed ∧
      listed.Perm ([docs, share].flatMap Archive.shown) := by
  have closes : ((run [(share, .failed 0), (docs, .succeeded), (share, .succeeded)]).closed.map
      fun stream => decide (stream.length < 100)) = some true := by
    decide +kernel
  obtain ⟨stream, closed, short⟩ := Option.map_eq_some_iff.mp closes
  have silent : ∀ f ∈ [(share, Outcome.failed 0), (docs, .succeeded), (share, .succeeded)],
      Silent f := by
    intro f member sent failed
    rcases List.mem_cons.mp member with rfl | member
    · cases failed
      rfl
    · rcases List.mem_cons.mp member with rfl | member
      · cases failed
      · obtain rfl := List.mem_singleton.mp member
        cases failed
  obtain ⟨listed, parsed, same⟩ := partial_run_listed
    [(share, .failed 0), (docs, .succeeded), (share, .succeeded)] stream silent closed
    ((of_decide_eq_true short).trans (by decide)) (by decide +kernel) (by decide +kernel)
  exact ⟨stream, listed, closed, parsed, same⟩

/-- The first folder is lost after its magic and the table of its first subfolder. -/
theorem failed_folder_breaks_catalog :
    ¬ ∀ (folders : List (Archive × Outcome)) (stream : Bytes),
      (run folders).closed = some stream → stream.length < 2 ^ 63 →
      (∀ a ∈ archives folders, a.listing.depth ≤ catalogMaxDepth) →
      ((archives folders).flatMap Archive.shown).length ≤ catalogMaxEntries →
      ∃ listed, parseCatalog stream = .ok listed ∧
        listed.Perm ((archives folders).flatMap Archive.shown) := by
  intro always
  have broken : ((run [(share, .failed 2), (docs, .succeeded)]).closed.map fun stream =>
      decide (stream.length < 100 ∧ (parseCatalog stream).toOption = none)) = some true := by
    decide +kernel
  obtain ⟨stream, closed, refused⟩ := Option.map_eq_some_iff.mp broken
  obtain ⟨short, refused⟩ := of_decide_eq_true refused
  obtain ⟨listed, parsed, _⟩ := always _ stream closed (short.trans (by decide))
    (by decide +kernel) (by decide +kernel)
  rw [parsed] at refused
  exact absurd refused (by simp [Except.toOption])

/-- Archives that all succeed, and the root after them. -/
def sharedCatalog (all : List Archive) : Bytes :=
  let s := run (all.map fun a => (a, .succeeded))
  s.stream ++ writeSharedCatalogRoot s.pos s.entries

/-- WriteDir with its own magic and root, as for a snapshot of one archive. -/
def ownCatalog (a : Archive) : Bytes :=
  let w := writeEntries a.noMTime a.listing 8
  catalogMagic ++ (w.sent ++ [w.ownTable]).flatten ++
    writeSharedCatalogRoot (w.pos + w.ownTable.length) [⟨a.name, w.pos⟩]

theorem archives_succeeded (all : List Archive) :
    archives (all.map fun a => (a, .succeeded)) = all := by
  induction all with
  | nil => rfl
  | cons a rest ih => rw [List.map_cons, archives, ih]

theorem sharedCatalog_closed {all : List Archive} (some : all ≠ []) :
    (run (all.map fun a => (a, .succeeded))).closed = Option.some (sharedCatalog all) := by
  have filled : (run (all.map fun a => (a, .succeeded))).entries ≠ [] := by
    intro empty
    have closes := (run_closed_iff (all.map fun a => (a, .succeeded))).mpr
      (by rw [archives_succeeded]; exact some)
    exact closes (if_pos empty)
  exact if_neg filled

theorem sharedCatalog_parsed {all : List Archive} (some : all ≠ [])
    (fits : (sharedCatalog all).length < 2 ^ 63)
    (shallow : ∀ a ∈ all, a.listing.depth ≤ catalogMaxDepth)
    (room : (all.flatMap Archive.shown).length ≤ catalogMaxEntries) :
    ∃ listed, parseCatalog (sharedCatalog all) = .ok listed ∧
      listed.Perm (all.flatMap Archive.shown) := by
  have same := walked_archives_perm all
  have ready := inStep_run (all.map fun a => (a, .succeeded)) inStep_start (by
    intro f member sent failed
    obtain ⟨a, _, rfl⟩ := List.mem_map.mp member
    cases failed)
  rw [List.nil_append, archives_succeeded] at ready
  exact ⟨_, parseCatalog_closed ready (sharedCatalog_closed some) fits shallow
    (same.length_eq.trans_le room), same⟩

/-- A catalog lists what it can show, whether an archive has it alone or shares it. -/
theorem catalog_round_trip :
    (∀ a : Archive, (ownCatalog a).length < 2 ^ 63 → a.listing.depth ≤ catalogMaxDepth →
      a.shown.length ≤ catalogMaxEntries →
      ∃ listed, parseCatalog (ownCatalog a) = .ok listed ∧ listed.Perm a.shown) ∧
    ∀ all : List Archive, all ≠ [] → (sharedCatalog all).length < 2 ^ 63 →
      (∀ a ∈ all, a.listing.depth ≤ catalogMaxDepth) →
      (all.flatMap Archive.shown).length ≤ catalogMaxEntries →
      ∃ listed, parseCatalog (sharedCatalog all) = .ok listed ∧
        listed.Perm (all.flatMap Archive.shown) := by
  constructor
  · intro a fits shallow room
    have one : [a].flatMap Archive.shown = a.shown := List.flatMap_singleton _ a
    rw [← one] at room ⊢
    refine sharedCatalog_parsed (List.cons_ne_nil a []) fits ?_ room
    intro b member
    obtain rfl := List.mem_singleton.mp member
    exact shallow
  · exact fun all some fits shallow room => sharedCatalog_parsed some fits shallow room

theorem catalog_round_trip_two :
    ∃ listed, parseCatalog (sharedCatalog [docs, share]) = .ok listed ∧
      listed.Perm ([docs, share].flatMap Archive.shown) :=
  catalog_round_trip.2 [docs, share] (by simp) (by decide +kernel) (by decide +kernel)
    (by decide +kernel)

/-- Every entry with the size and time the disk shows. -/
def onDisk : Listing → Bytes → List CatalogEntry
  | .nil, _ => []
  | .file name unix size rest, pre =>
      ⟨joinArchivePath pre name, false, size, unix, false⟩ :: onDisk rest pre
  | .symlink name unix size rest, pre =>
      ⟨joinArchivePath pre name, false, size, unix, true⟩ :: onDisk rest pre
  | .folder name unix inside rest, pre =>
      ⟨joinArchivePath pre name, true, 0, unix, false⟩ ::
        (onDisk inside (joinArchivePath pre name) ++ onDisk rest pre)

theorem times_not_all_listed :
    ¬ ∀ a : Archive, (ownCatalog a).length < 2 ^ 63 → a.listing.depth ≤ catalogMaxDepth →
      a.shown.length ≤ catalogMaxEntries →
      ∃ listed, parseCatalog (ownCatalog a) = .ok listed ∧
        listed.Perm (dirListed a.name :: onDisk a.listing a.name) := by
  intro always
  obtain ⟨listed, parsed, same⟩ := always share (by decide +kernel) (by decide +kernel)
    (by decide +kernel)
  have untimed : (parseCatalog (ownCatalog share)).toOption.map
      (fun listed => decide (⟨[115, 46, 112, 120, 97, 114, 47, 98], true, 0, 1600000000, false⟩ ∈
        listed)) = some false := by
    decide +kernel
  rw [parsed] at untimed
  have missing := of_decide_eq_false (Option.some.inj untimed)
  exact missing (same.mem_iff.mpr (by decide +kernel))

end ProxmoxBackup.SharedCatalog
