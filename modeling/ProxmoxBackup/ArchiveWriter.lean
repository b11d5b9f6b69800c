import ProxmoxBackup.ArchiveItems

/-! WriteDir of pbscommon/pxar.go with WriteFile, writeSymlink and WriteVirtualFile: a
folder's records go out as it is walked, its GOODBYE table from where the stream stood. -/

namespace ProxmoxBackup.ArchiveWriter

open ArchiveItems
open DynamicChunks (Bytes)
open FileContent hiding beginPayload
open GoodbyeTable (GoodByeItem)
open GoValues PxarFormat
open PxarWalk (IFLNK IFDIR)

/-- What WriteDir meets in a folder, in the order of os.ReadDir. An entry is skipped that is
excluded, holds no data, cannot be read or is a link that is not kept: nothing is written. -/
inductive Listing where
  | nil
  | skipped (rest : Listing)
  | file (name : Bytes) (info : Stat) (turn : Nat → Turn) (probe : Bytes) (rest : Listing)
  | symlink (name : Bytes) (info : Stat) (target : Bytes) (rest : Listing)
  | folder (name : Bytes) (info : Stat) (inside rest : Listing)

/-- An error, or an index outside its slice. -/
inductive Stop where
  | halt (err : Halt)
  | panicked
  deriving DecidableEq

def lifted {α : Type} : Except Halt α → Except Stop α
  | .ok value => .ok value
  | .error err => .error (.halt err)

def State.append (b : Bytes) (s : State) : State := { s with buffer := s.buffer ++ b }

def State.appendPayload (b : Bytes) (s : State) : State := { s with payloadBuffer := s.payloadBuffer ++ b }

/-- Everything Flush has handed on. -/
def State.pos (s : State) : Nat := s.sent.length

section

variable (cfg : Config) (hash : Bytes → UInt64) (fails : Nat → Bool) (fuel : Nat)

def beginPayload (size : Nat) (holdMeta : Bool) (s : State) : Except Halt State :=
  if cfg.Split then do
    let s ← s.flushPayload fails
    let s := State.append (refRecord s.payloadPos size) s
    let s ← if holdMeta then .ok s else s.Flush fails
    let s ← s.call fails
    (State.appendPayload (header PXAR_PAYLOAD (size + 16)) s).flushPayload fails
  else (State.append (header PXAR_PAYLOAD (size + 16)) s).Flush fails

def writeSymlink (basename : Bytes) (info : Stat) (target : Bytes) (s : State) : Except Halt State :=
  (State.append (filenameRecord basename ++ entryRecord (entryMetaFor cfg info IFLNK) ++
    symlinkRecord target) s).Flush fails

def virtualMeta (mtime : Nat) : EntryMeta := ⟨IFREG ||| 0o444, 1000, 1000, mtime, 0⟩

def WriteVirtualFile (filename data : Bytes) (mtime : Nat) (s : State) : Except Halt State := do
  let s := State.append (filenameRecord filename ++ entryRecord (virtualMeta mtime)) s
  let s ← beginPayload cfg fails data.length false s
  (s.write cfg.Split data).flush cfg.Split fails

/-- The folder's ENTRY, and dir_start_pos. -/
def openDir (info : Stat) (s : State) : Except Halt (Nat × State) := do
  let s ← s.Flush fails
  let dirStart := State.pos s
  let s ← (State.append (entryRecord (entryMetaFor cfg info IFDIR)) s).Flush fails
  return (dirStart, s)

/-- The offset of an item becomes the way back to it. -/
def backTo (pos : Nat) (i : GoodByeItem) : GoodByeItem := { i with offset := pos - i.offset }

/-- The catalog's table goes to its callback, then the GOODBYE table is written. -/
def closeDir (dirStart : Nat) (items : List GoodByeItem) (s : State) : Except Stop State := do
  let s ← lifted (s.call fails)
  let s ← lifted (s.Flush fails)
  match goodbyeTable items with
  | none => .error .panicked
  | some table =>
      let s ← lifted (s.Flush fails)
      let goodbyeStart := State.pos s
      let items := table.map (backTo goodbyeStart)
      lifted ((State.append (goodbyeRecord items (goodbyeStart - dirStart)) s).Flush fails)

/-- The item of the entry between two places of the stream. -/
def itemOf (name : Bytes) (startpos pos : Nat) : GoodByeItem :=
  ⟨(hash name).toNat, startpos, pos - startpos⟩

/-- The loop over a folder's entries. Before each of them Pause.Wait or a.Ctx may end it. -/
def writeEntries : Listing → State → Except Stop (List GoodByeItem × State)
  | .nil, s => .ok ([], s)
  | .skipped rest, s => do
      let s ← lifted (s.call fails)
      writeEntries rest s
  | .file name info turn probe rest, s => do
      let s ← lifted (s.call fails)
      let (_, next) ← lifted (WriteFile cfg fails turn probe fuel name info s)
      let (items, last) ← writeEntries rest next
      return (itemOf hash name (State.pos s) (State.pos next) :: items, last)
  | .symlink name info target rest, s => do
      let s ← lifted (s.call fails)
      let next ← lifted (writeSymlink cfg fails name info target s)
      let (items, last) ← writeEntries rest next
      return (itemOf hash name (State.pos s) (State.pos next) :: items, last)
  | .folder name info inside rest, s => do
      let s ← lifted (s.call fails)
      let (dirStart, opened) ← lifted (openDir cfg fails info (State.append (filenameRecord name) s))
      let (below, walked) ← writeEntries inside opened
      let next ← closeDir fails dirStart below walked
      let (items, last) ← writeEntries rest next
      return (itemOf hash name (State.pos s) (State.pos next) :: items, last)

/-- The files of VirtualFiles, sorted by name. -/
def writeVirtual (mtime : Nat) : List (Bytes × Bytes) → State → Except Stop (List GoodByeItem × State)
  | [], s => .ok ([], s)
  | (name, data) :: rest, s => do
      let next ← lifted (WriteVirtualFile cfg fails name data mtime s)
      let (items, last) ← writeVirtual mtime rest next
      return (itemOf hash name (State.pos s) (State.pos next) :: items, last)

/-- A split archive's version record and start marker. -/
def beginStreams (s : State) : Except Halt State :=
  if cfg.Split then (State.appendPayload (header PXAR_PAYLOAD_START_MARKER 16)
    (State.append versionRecord s)).flushPayload fails
  else .ok s

def endStreams (s : State) : Except Halt State :=
  if cfg.Split then (State.appendPayload (header PXAR_PAYLOAD_TAIL_MARKER 16) s).flushPayload fails
  else .ok s

/-- WriteDir of the backup's root. -/
def WriteDir (virtualFiles : List (Bytes × Bytes)) (info : Stat) (listing : Listing) (s : State) :
    Except Stop State := do
  let s ← lifted (s.call fails)
  let s ← lifted (beginStreams cfg fails s)
  let (dirStart, s) ← lifted (openDir cfg fails info s)
  let (first, s) ← writeVirtual cfg hash fails (entryMetaFor cfg info IFDIR).secs virtualFiles s
  let (items, s) ← writeEntries cfg hash fails fuel listing s
  let s ← closeDir fails dirStart (first ++ items) s
  let s ← lifted (endStreams cfg fails s)
  lifted (s.call fails)

/-! What is archived. -/

/-- What a file's record holds of it: what was read, and zeros to the size. -/
def contentOf (info : Stat) (turn : Nat → Turn) : Bytes :=
  let read := readContent turn info.size fuel 0 0
  read ++ List.replicate (info.size - read.length) 0

def metaOf (info : Stat) (turn : Nat → Turn) : EntryMeta :=
  stored cfg ((readContent turn info.size fuel 0 0).length < info.size) info

def archived : Listing → Items
  | .nil => .nil
  | .skipped rest => archived rest
  | .file name info turn _ rest =>
      .file name (metaOf cfg fuel info turn) (contentOf fuel info turn) (archived rest)
  | .symlink name info target rest =>
      .symlink name (entryMetaFor cfg info IFLNK) target (archived rest)
  | .folder name info inside rest =>
      .folder name (entryMetaFor cfg info IFDIR) (archived inside) (archived rest)

/-- The archive of a backup's root, its virtual files first. -/
def withVirtual (mtime : Nat) (virtualFiles : List (Bytes × Bytes)) (items : Items) : Items :=
  virtualFiles.foldr (fun file rest => .file file.1 (virtualMeta mtime) file.2 rest) items

def archive (virtualFiles : List (Bytes × Bytes)) (info : Stat) (listing : Listing) : Items :=
  withVirtual (entryMetaFor cfg info IFDIR).secs virtualFiles (archived cfg fuel listing)

end

/-! What each part writes. -/

/-- Between two entries nothing is held back. -/
structure Clean (cfg : Config) (s : State) : Prop where
  buffer : s.buffer = []
  payload : cfg.Split = true → s.payloadBuffer = []

/-- The streams of s' are those of s with these bytes behind them. -/
structure Wrote (cfg : Config) (main pay : Bytes) (s s' : State) : Prop where
  sent : s'.sent = s.sent ++ main
  payload : cfg.Split = true →
    s'.payloadSent = s.payloadSent ++ pay ∧ s'.payloadPos = s.payloadPos + pay.length
  clean : Clean cfg s'

section

variable {cfg : Config} {hash : Bytes → UInt64} {fails : Nat → Bool} {fuel : Nat} {s s' : State}

theorem lifted_ok {α : Type} {x : Except Halt α} {value : α} (ran : lifted x = .ok value) :
    x = .ok value := by
  cases x with
  | error err => cases ran
  | ok a =>
      cases ran
      rfl

theorem Wrote.refl (clean : Clean cfg s) : Wrote cfg [] [] s s :=
  ⟨(List.append_nil _).symm, fun _ => ⟨(List.append_nil _).symm, rfl⟩, clean⟩

theorem Wrote.trans {main more pay rest : Bytes} {middle : State} (first : Wrote cfg main pay s middle)
    (second : Wrote cfg more rest middle s') : Wrote cfg (main ++ more) (pay ++ rest) s s' := by
  refine ⟨?_, fun mode => ?_, second.clean⟩
  · rw [second.sent, first.sent, List.append_assoc]
  · obtain ⟨sent, pos⟩ := first.payload mode
    obtain ⟨sent', pos'⟩ := second.payload mode
    rw [sent', sent, pos', pos, List.length_append, List.append_assoc, Nat.add_assoc]
    exact ⟨rfl, rfl⟩

theorem Wrote.longer {main pay : Bytes} (wrote : Wrote cfg main pay s s') :
    s'.sent.length = s.sent.length + main.length := by
  rw [wrote.sent, List.length_append]

theorem call_wrote (clean : Clean cfg s) (ran : s.call fails = .ok s') : Wrote cfg [] [] s s' := by
  cases call_ok ran
  exact ⟨(List.append_nil _).symm, fun _ => ⟨(List.append_nil _).symm, rfl⟩, clean.buffer, clean.payload⟩

theorem append_append (a b : Bytes) (s : State) :
    State.append b (State.append a s) = State.append (a ++ b) s := by
  unfold State.append
  rw [List.append_assoc]

theorem append_wrote {b : Bytes} (clean : Clean cfg s) (ran : (State.append b s).Flush fails = .ok s') :
    Wrote cfg b [] s s' := by
  cases Flush_ok ran
  refine ⟨?_, fun _ => ⟨(List.append_nil _).symm, rfl⟩, rfl, clean.payload⟩
  dsimp only [State.append]
  rw [clean.buffer, List.nil_append]

theorem flush_wrote (clean : Clean cfg s) (ran : s.Flush fails = .ok s') : Wrote cfg [] [] s s' := by
  have out := Flush_ok ran
  subst out
  refine ⟨?_, fun _ => ⟨(List.append_nil _).symm, rfl⟩, rfl, clean.payload⟩
  dsimp only
  rw [clean.buffer]

theorem contentOf_length (info : Stat) (turn : Nat → Turn)
    (most : (readContent turn info.size fuel 0 0).length ≤ info.size) :
    (contentOf fuel info turn).length = info.size := by
  unfold contentOf
  rw [List.length_append, List.length_replicate]
  omega

theorem file_wrote {name probe : Bytes} {info : Stat} {turn : Nat → Turn} {file : CatalogFile}
    (clean : Clean cfg s) (ran : WriteFile cfg fails turn probe fuel name info s = .ok (file, s')) :
    Wrote cfg (filenameRecord name ++ entryRecord (metaOf cfg fuel info turn) ++
      contentRecord cfg.Split s.payloadPos (contentOf fuel info turn))
      (payloadRecord (contentOf fuel info turn)) s s' := by
  have emits := writeFile_content ran
  have size := contentOf_length info turn emits.most
  unfold contentRecord payloadRecord
  rw [size]
  cases mode : cfg.Split with
  | true =>
      obtain ⟨payload, pos, sent⟩ := emits.split mode
      have held := clean.payload mode
      rw [held, List.append_nil] at payload
      rw [held] at pos sent
      refine ⟨?_, fun _ => ⟨?_, ?_⟩, emits.flushed.1, emits.flushed.2⟩
      · rw [sent, clean.buffer, List.append_nil, if_pos rfl, List.length_nil, Nat.add_zero]
        simp only [metaOf, List.append_assoc]
      · rw [payload, contentOf, List.append_assoc]
      · rw [pos, List.length_append, header_length, size, List.length_nil]
        rfl
  | false =>
      obtain ⟨sent, -, -⟩ := emits.classic mode
      refine ⟨?_, fun wrong => (by rw [mode] at wrong; cases wrong), emits.flushed.1, emits.flushed.2⟩
      rw [sent, clean.buffer, List.append_nil, if_neg Bool.false_ne_true]
      simp only [metaOf, contentOf, List.append_assoc]

theorem symlink_wrote {name target : Bytes} {info : Stat} (clean : Clean cfg s)
    (ran : writeSymlink cfg fails name info target s = .ok s') :
    Wrote cfg (filenameRecord name ++ entryRecord (entryMetaFor cfg info IFLNK) ++ symlinkRecord target)
      [] s s' := append_wrote clean ran

/-- A reference goes out before its payload is begun. -/
theorem beginPayload_sent {size : Nat} (mode : cfg.Split = true)
    (ran : beginPayload cfg fails size false s = .ok s') :
    s'.buffer = [] ∧ s'.payloadBuffer = [] ∧
    s'.sent = s.sent ++ (s.buffer ++ refRecord (s.payloadPos + s.payloadBuffer.length) size) ∧
    s'.payloadSent = s.payloadSent ++ s.payloadBuffer ++ header PXAR_PAYLOAD (size + 16) ∧
    s'.payloadPos = s.payloadPos + s.payloadBuffer.length + 16 := by
  unfold beginPayload at ran
  rw [if_pos mode] at ran
  obtain ⟨first, emptied, ran⟩ := bind_ok ran
  obtain ⟨held, flushed, ran⟩ := bind_ok ran
  obtain ⟨hinted, called, ran⟩ := bind_ok ran
  have drained := flushPayload_ok emptied
  have out := Flush_ok flushed
  have same := call_ok called
  have last := flushPayload_ok ran
  subst drained
  subst out
  subst same
  subst last
  refine ⟨rfl, rfl, rfl, ?_, ?_⟩
  · dsimp only [State.appendPayload, State.append]
    rw [List.nil_append]
  · dsimp only [State.appendPayload, State.append]
    rw [List.nil_append, header_length]

theorem virtual_wrote {name data : Bytes} {mtime : Nat} (clean : Clean cfg s)
    (ran : WriteVirtualFile cfg fails name data mtime s = .ok s') :
    Wrote cfg (filenameRecord name ++ entryRecord (virtualMeta mtime) ++
      contentRecord cfg.Split s.payloadPos data) (payloadRecord data) s s' := by
  obtain ⟨begun, began, ran⟩ := bind_ok ran
  unfold contentRecord payloadRecord
  cases mode : cfg.Split with
  | true =>
      obtain ⟨buffer, drained, sent, payload, pos⟩ := beginPayload_sent mode began
      have puts := written_puts ran
      rw [mode] at puts
      obtain ⟨kept, keptSent⟩ := puts.held rfl
      have empty := puts.drained drained
      have stream : s'.payloadSent ++ s'.payloadBuffer = begun.payloadSent ++ begun.payloadBuffer ++ data :=
        puts.stream
      have held := clean.payload mode
      dsimp only [State.append] at sent payload pos
      have empty : s'.payloadBuffer = [] := empty
      rw [empty, drained, List.append_nil, List.append_nil, payload, held, List.append_nil] at stream
      refine ⟨?_, fun _ => ⟨?_, ?_⟩, kept.trans buffer, fun _ => empty⟩
      · rw [keptSent, sent, clean.buffer, held, if_pos rfl, List.nil_append, List.length_nil, Nat.add_zero]
      · rw [stream, List.append_assoc]
      · have position := puts.position
        have size := congrArg List.length stream
        rw [payload, pos, held] at position
        simp only [List.length_append, header_length, List.length_nil] at position size ⊢
        omega
  | false =>
      unfold beginPayload at began
      rw [if_neg (by rw [mode]; exact Bool.false_ne_true), append_append] at began
      rw [mode] at ran
      have first : Wrote cfg _ [] s begun := append_wrote clean began
      have last : Wrote cfg data [] begun s' := append_wrote first.clean ran
      have both := first.trans last
      refine ⟨?_, fun wrong => (by rw [mode] at wrong; cases wrong), both.clean⟩
      rw [both.sent, if_neg Bool.false_ne_true]
      simp only [List.append_assoc]

/-- A folder's ENTRY, behind what is held of its name. -/
theorem openDir_wrote {b : Bytes} {info : Stat} {dirStart : Nat} (clean : Clean cfg s)
    (ran : openDir cfg fails info (State.append b s) = .ok (dirStart, s')) :
    dirStart = s.sent.length + b.length ∧
      Wrote cfg (b ++ entryRecord (entryMetaFor cfg info IFDIR)) [] s s' := by
  obtain ⟨named, flushed, ran⟩ := bind_ok ran
  obtain ⟨opened, entered, ran⟩ := bind_ok ran
  cases ran
  have first : Wrote cfg b [] s named := append_wrote clean flushed
  exact ⟨first.longer, first.trans (append_wrote first.clean entered)⟩

theorem closeDir_wrote {dirStart : Nat} {items : List GoodByeItem} (clean : Clean cfg s)
    (ran : closeDir fails dirStart items s = .ok s') : ∃ table, goodbyeTable items = some table ∧
      Wrote cfg (goodbyeRecord (table.map (backTo (State.pos s))) (State.pos s - dirStart)) [] s s' := by
  obtain ⟨called, call, ran⟩ := bind_ok ran
  obtain ⟨first, flushed, ran⟩ := bind_ok ran
  have once := call_wrote clean (lifted_ok call)
  have twice := once.trans (flush_wrote once.clean (lifted_ok flushed))
  split at ran
  · cases ran
  · next table laid =>
      obtain ⟨second, flushed', ran⟩ := bind_ok ran
      have thrice := twice.trans (flush_wrote twice.clean (lifted_ok flushed'))
      have place : State.pos second = State.pos s := thrice.longer
      refine ⟨table, laid, ?_⟩
      rw [← place]
      exact thrice.trans (append_wrote thrice.clean (lifted_ok ran))

end

/-! A folder, with all that is below it. -/

section

variable {cfg : Config} {hash : Bytes → UInt64} {fails : Nat → Bool} {fuel : Nat} {s s' : State}

/-- Between s and s' these entries have been written, and these are the items of their folder's
table, seen from where it will stand. An entry may be a folder with a table of its own, so this is
told for as long as the stream is short of what an offset can be. -/
structure Entries (cfg : Config) (hash : Bytes → UInt64) (items : Items) (listed : List GoodByeItem)
    (s s' : State) : Prop where
  clean : Clean cfg s'
  longer : s.sent.length ≤ s'.sent.length
  wrote : s'.sent.length < 2 ^ 63 →
    Wrote cfg ((spans hash cfg.Split items s.payloadPos).flatMap Prod.snd) (payloads items) s s'
  back : s'.sent.length < 2 ^ 63 →
    listed.map (backTo (State.pos s')) = goodbyeItems hash (spans hash cfg.Split items s.payloadPos)

/-- One more entry in front of them. -/
theorem Entries.cons {name span pay : Bytes} {items items' : Items} {listed : List GoodByeItem} {next : State}
    (rest : Entries cfg hash items listed next s') (longer : s.sent.length ≤ next.sent.length)
    (first : next.sent.length < 2 ^ 63 → Wrote cfg span pay s next)
    (parts : spans hash cfg.Split items' s.payloadPos =
      (name, span) :: spans hash cfg.Split items (s.payloadPos + pay.length))
    (payload : payloads items' = pay ++ payloads items) :
    Entries cfg hash items' (itemOf hash name (State.pos s) (State.pos next) :: listed) s s' := by
  have more := rest.longer
  have place (short : next.sent.length < 2 ^ 63) :
      spans hash cfg.Split items next.payloadPos = spans hash cfg.Split items (s.payloadPos + pay.length) :=
    spans_at hash items fun mode => ((first short).payload mode).2
  refine ⟨rest.clean, by omega, fun fits => ?_, fun fits => ?_⟩
  · rw [parts, payload, List.flatMap_cons, ← place (by omega)]
    exact (first (by omega)).trans (rest.wrote fits)
  · have length := (first (by omega)).longer
    have length' := (rest.wrote fits).longer
    rw [parts, ← place (by omega), List.map_cons, rest.back fits, goodbyeItems]
    unfold backTo itemOf State.pos
    dsimp only
    congr 2 <;> omega

/-- Behind a call that did not end it the folder's walk is where it was. -/
theorem Entries.called {items : Items} {listed : List GoodByeItem} {called : State}
    (entries : Entries cfg hash items listed called s') (ran : s.call fails = .ok called) :
    Entries cfg hash items listed s s' := by
  cases call_ok ran
  exact ⟨entries.clean, entries.longer, fun fits => ⟨(entries.wrote fits).sent, (entries.wrote fits).payload,
    entries.clean⟩, entries.back⟩

theorem dir_wrote {b : Bytes} {info : Stat} {dirStart : Nat} {items : Items} {listed : List GoodByeItem}
    {opened walked : State} (clean : Clean cfg s)
    (open_ : openDir cfg fails info (State.append b s) = .ok (dirStart, opened))
    (inside : Entries cfg hash items listed opened walked)
    (close : closeDir fails dirStart listed walked = .ok s') :
    Clean cfg s' ∧ s.sent.length ≤ s'.sent.length ∧ (s'.sent.length < 2 ^ 63 →
      Wrote cfg (b ++ folderRecord hash (entryMetaFor cfg info IFDIR)
        (spans hash cfg.Split items s.payloadPos)) (payloads items) s s') := by
  obtain ⟨start, first⟩ := openDir_wrote clean open_
  obtain ⟨table, laid, last⟩ := closeDir_wrote inside.clean close
  have length := first.longer
  have length' := inside.longer
  have length'' := last.longer
  refine ⟨last.clean, by omega, fun fits => ?_⟩
  have wrote := inside.wrote (by omega)
  have back := inside.back (by omega)
  rw [spans_at hash items fun mode => (first.payload mode).2.trans (Nat.add_zero _)] at wrote back
  have some_ := span_pos hash cfg.Split items s.payloadPos
  generalize spans hash cfg.Split items s.payloadPos = spans at wrote back some_ ⊢
  have lens : listed.map GoodByeItem.len = spans.map fun p => p.2.length := by
    rw [← goodbyeItems_len hash, ← back, List.map_map]
    rfl
  have few : listed.length < 2 ^ 63 := by
    have count := congrArg List.length lens
    have bytes := spans_length_le some_
    have size := wrote.longer
    rw [List.length_map, List.length_map] at count
    omega
  have positive : ∀ i ∈ listed, 0 < i.len := by
    intro i among
    have told : i.len ∈ spans.map fun p => p.2.length := lens ▸ List.mem_map_of_mem among
    obtain ⟨p, member, same⟩ := List.mem_map.mp told
    exact same ▸ some_ p member
  have mapped := goodbyeTable_mapped few (backTo (State.pos walked)) (fun _ => rfl) positive
  rw [back, laid, Option.map_some] at mapped
  have size : State.pos walked - dirStart =
      (entryRecord (entryMetaFor cfg info IFDIR) ++ spans.flatMap Prod.snd).length := by
    have bytes := wrote.longer
    unfold State.pos
    rw [List.length_append] at length ⊢
    omega
  have whole := (first.trans wrote).trans last
  rw [size, List.append_assoc b, List.append_assoc b, List.nil_append, List.append_nil] at whole
  unfold folderRecord
  rw [mapped]
  exact whole

theorem Clean.called {called : State} (clean : Clean cfg s) (ran : s.call fails = .ok called) :
    Clean cfg called := (call_wrote clean ran).clean

theorem Wrote.le {main pay : Bytes} (wrote : Wrote cfg main pay s s') : s.sent.length ≤ s'.sent.length :=
  wrote.longer ▸ Nat.le_add_right _ _

/-- By induction on the folder. -/
theorem writeEntries_wrote {listing : Listing} {listed : List GoodByeItem} (clean : Clean cfg s)
    (ran : writeEntries cfg hash fails fuel listing s = .ok (listed, s')) :
    Entries cfg hash (archived cfg fuel listing) listed s s' := by
  induction listing generalizing s s' listed with
  | nil =>
      cases ran
      exact ⟨clean, Nat.le_refl _, fun _ => Wrote.refl clean, fun _ => rfl⟩
  | skipped rest ih =>
      obtain ⟨called, call, ran⟩ := bind_ok ran
      exact (ih (clean.called (lifted_ok call)) ran).called (lifted_ok call)
  | file name info turn probe rest ih =>
      obtain ⟨called, call, ran⟩ := bind_ok ran
      obtain ⟨⟨_, next⟩, written, ran⟩ := bind_ok ran
      obtain ⟨⟨more, last⟩, later, ran⟩ := bind_ok ran
      cases ran
      have first := file_wrote (clean.called (lifted_ok call)) (lifted_ok written)
      exact ((ih first.clean later).cons first.le (fun _ => first) rfl rfl).called (lifted_ok call)
  | symlink name info target rest ih =>
      obtain ⟨called, call, ran⟩ := bind_ok ran
      obtain ⟨next, written, ran⟩ := bind_ok ran
      obtain ⟨⟨more, last⟩, later, ran⟩ := bind_ok ran
      cases ran
      have first := symlink_wrote (clean.called (lifted_ok call)) (lifted_ok written)
      have whole : Entries cfg hash (archived cfg fuel (.symlink name info target rest)) _ called s' :=
        (ih first.clean later).cons first.le (fun _ => first) rfl rfl
      exact whole.called (lifted_ok call)
  | folder name info inside rest ihInside ih =>
      obtain ⟨called, call, ran⟩ := bind_ok ran
      obtain ⟨⟨dirStart, opened⟩, open_, ran⟩ := bind_ok ran
      obtain ⟨⟨below, walked⟩, entries, ran⟩ := bind_ok ran
      obtain ⟨next, close, ran⟩ := bind_ok ran
      obtain ⟨⟨more, last⟩, later, ran⟩ := bind_ok ran
      cases ran
      have calm := clean.called (lifted_ok call)
      have opens := (openDir_wrote calm (lifted_ok open_)).2.clean
      obtain ⟨cleanNext, longer, first⟩ := dir_wrote calm (lifted_ok open_) (ihInside opens entries) close
      exact ((ih cleanNext later).cons longer first rfl rfl).called (lifted_ok call)

/-- Virtual files and the folder's own entries have one table. -/
theorem writeVirtual_wrote {mtime : Nat} {virtualFiles : List (Bytes × Bytes)} {first : List GoodByeItem}
    {middle : State} (clean : Clean cfg s)
    (ran : writeVirtual cfg hash fails mtime virtualFiles s = .ok (first, middle)) :
    Clean cfg middle ∧ ∀ items more last, Entries cfg hash items more middle last →
      Entries cfg hash (withVirtual mtime virtualFiles items) (first ++ more) s last := by
  induction virtualFiles generalizing s first with
  | nil =>
      cases ran
      exact ⟨clean, fun items more last entries => entries⟩
  | cons file rest ih =>
      obtain ⟨next, written, ran⟩ := bind_ok ran
      obtain ⟨⟨others, final⟩, later, ran⟩ := bind_ok ran
      cases ran
      have begun := virtual_wrote clean (lifted_ok written)
      obtain ⟨clean', goes⟩ := ih begun.clean later
      exact ⟨clean', fun items more last entries =>
        (goes items more last entries).cons begun.le (fun _ => begun) rfl rfl⟩

/-- An archive at its start. -/
structure Fresh (s : State) : Prop where
  buffer : s.buffer = []
  sent : s.sent = []
  payloadBuffer : s.payloadBuffer = []
  payloadSent : s.payloadSent = []
  payloadPos : s.payloadPos = 0

theorem beginStreams_ok {begun : State} (fresh : Fresh s) (ran : beginStreams cfg fails s = .ok begun) :
    ∃ clean, begun = State.append (if cfg.Split then versionRecord else []) clean ∧ Clean cfg clean ∧
      clean.sent = [] ∧ (cfg.Split = true → clean.payloadPos = 16 ∧
        clean.payloadSent = header PXAR_PAYLOAD_START_MARKER 16) := by
  unfold beginStreams at ran
  split at ran
  · next mode =>
      rw [if_pos mode]
      have length := header_length PXAR_PAYLOAD_START_MARKER 16
      generalize header PXAR_PAYLOAD_START_MARKER 16 = marker at *
      have out := flushPayload_ok ran
      subst out
      refine ⟨{ s with payloadBuffer := [], payloadSent := marker, payloadPos := 16, calls :=
        s.calls + 1 }, ?_, ⟨fresh.buffer, fun _ => rfl⟩, fresh.sent, fun _ => ⟨rfl, rfl⟩⟩
      unfold State.appendPayload State.append
      dsimp only
      rw [fresh.payloadBuffer, fresh.payloadSent, fresh.payloadPos, List.nil_append, List.nil_append, length]
  · next mode =>
      cases ran
      rw [if_neg mode]
      refine ⟨s, ?_, ⟨fresh.buffer, fun wrong => absurd wrong mode⟩, fresh.sent,
        fun wrong => absurd wrong mode⟩
      unfold State.append
      rw [List.append_nil]

theorem endStreams_ok {ended : State} (ran : endStreams cfg fails s = .ok ended) :
    ended.sent = s.sent ∧ (Clean cfg s → Clean cfg ended ∧
      (cfg.Split = true → ended.payloadSent = s.payloadSent ++ header PXAR_PAYLOAD_TAIL_MARKER 16)) := by
  unfold endStreams at ran
  generalize header PXAR_PAYLOAD_TAIL_MARKER 16 = marker at *
  split at ran
  · next mode =>
      have out := flushPayload_ok ran
      subst out
      refine ⟨rfl, fun clean => ⟨⟨clean.buffer, fun _ => rfl⟩, fun _ => ?_⟩⟩
      dsimp only [State.appendPayload]
      rw [clean.payload mode, List.nil_append]
  · next mode =>
      cases ran
      exact ⟨rfl, fun clean => ⟨clean, fun wrong => absurd wrong mode⟩⟩

/-- What WriteDir has handed on when it returns, for every folder, every outcome of the
reads below it and callbacks that may fail at any point. -/
theorem writeDir_archives {virtualFiles : List (Bytes × Bytes)} {info : Stat} {listing : Listing}
    (ran : WriteDir cfg hash fails fuel virtualFiles info listing nothing = .ok s')
    (fits : s'.sent.length < 2 ^ 63) :
    s'.sent = metadata hash cfg.Split (entryMetaFor cfg info IFDIR)
      (archive cfg fuel virtualFiles info listing) ∧
    (cfg.Split = true → s'.payloadSent = payloadStream (archive cfg fuel virtualFiles info listing)) ∧
    Clean cfg s' := by
  obtain ⟨called, call, ran⟩ := bind_ok ran
  obtain ⟨begun, begins, ran⟩ := bind_ok ran
  obtain ⟨⟨dirStart, opened⟩, open_, ran⟩ := bind_ok ran
  obtain ⟨⟨first, middle⟩, virtual_, ran⟩ := bind_ok ran
  obtain ⟨⟨items, walked⟩, entries, ran⟩ := bind_ok ran
  obtain ⟨closed, close, ran⟩ := bind_ok ran
  obtain ⟨ended, ends, ran⟩ := bind_ok ran
  have out := call_ok (lifted_ok call)
  have last := call_ok (lifted_ok ran)
  have fresh : Fresh called := by
    rw [out]
    exact ⟨rfl, rfl, rfl, rfl, rfl⟩
  obtain ⟨start, rfl, clean, empty, marked⟩ := beginStreams_ok fresh (lifted_ok begins)
  obtain ⟨same, tail⟩ := endStreams_ok (lifted_ok ends)
  have whole : s'.sent = closed.sent := by
    rw [last]
    exact same
  rw [whole] at fits ⊢
  obtain ⟨cleanMiddle, goes⟩ := writeVirtual_wrote (openDir_wrote clean (lifted_ok open_)).2.clean virtual_
  have inside : Entries cfg hash (archive cfg fuel virtualFiles info listing) _ opened walked :=
    goes _ _ _ (writeEntries_wrote cleanMiddle entries)
  have wrote := (dir_wrote clean (lifted_ok open_) inside close).2.2 fits
  obtain ⟨cleanEnded, tail⟩ := tail wrote.clean
  have place : spans hash cfg.Split (archive cfg fuel virtualFiles info listing) start.payloadPos =
      spans hash cfg.Split (archive cfg fuel virtualFiles info listing) 16 :=
    spans_at hash _ fun mode => (marked mode).1
  rw [place] at wrote
  refine ⟨?_, fun mode => ?_, ?_⟩
  · rw [wrote.sent, empty, List.nil_append, metadata]
  · have payload := (wrote.payload mode).1
    rw [(marked mode).2] at payload
    rw [last]
    dsimp only
    rw [tail mode, payload, payloadStream]
  · rw [last]
    exact ⟨cleanEnded.buffer, cleanEnded.payload⟩

end

end ProxmoxBackup.ArchiveWriter
