import ProxmoxBackup.Catalog
import ProxmoxBackup.GoValues
import ProxmoxBackup.Slices

/-! ParseCatalog as it moves over its buffer: positions in uint64, every index checked,
and a log of the tables it reads and of the offsets it follows. -/

namespace ProxmoxBackup.CatalogReader

open Catalog GoValues Slices

def readVarintFrom (data : Bytes) (stop : Nat) :
    Nat → Nat → Nat → Nat → Outcome CatalogError (Nat × Nat)
  | 0, _, _, _ => .error .varint
  | digits + 1, pos, shift, v =>
      if pos ≥ stop then .error .varint
      else match data[pos]? with
        | none => .panicked
        | some b =>
            if shift = 63 ∧ 1 < b.toNat % 128 then .error .varint
            else if b.toNat < 128 then .ok (v + b.toNat % 128 * 2 ^ shift, pos + 1)
            else
              readVarintFrom data stop digits (pos + 1) (shift + 7) (v + b.toNat % 128 * 2 ^ shift)

/-- The shift stays below 64 for ten bytes. -/
def readVarint (data : Bytes) (pos stop : Nat) : Outcome CatalogError (Nat × Nat) :=
  readVarintFrom data (min stop data.length) 10 pos 0 0

/-- data[pos:stop] -/
def sliceAt (data : Bytes) (pos stop : Nat) : Outcome CatalogError Bytes :=
  if pos ≤ stop ∧ stop ≤ data.length then .ok (slice data pos (stop - pos)) else .panicked

/-- The entries of a table that are left to read, behind its count. -/
def tableEntries (data : Bytes) (tableStart stop : Nat) :
    Nat → Nat → List CatalogDirRef → List CatalogFileRef →
      Outcome CatalogError (List CatalogDirRef × List CatalogFileRef)
  | 0, pos, dirs, files => if pos ≠ stop then .error .trailingBytes else .ok (dirs, files)
  | count + 1, pos, dirs, files =>
      if pos ≥ stop then .error .ranOutOfBytes
      else match data[pos]? with
        | none => .panicked
        | some typ => do
            let (nameLen, pos) ← readVarint data (pos + 1) stop
            let nameStop := uint64 (pos + nameLen)
            if nameStop > stop ∨ nameStop < pos then .error .nameOverruns
            else
              let name ← sliceAt data pos nameStop
              if typ = 100 then
                let (delta, pos) ← readVarint data nameStop stop
                if delta > tableStart then .error .offsetUnderflows
                else
                  tableEntries data tableStart stop count pos (dirs ++ [⟨name, tableStart - delta⟩])
                    files
              else if typ = 102 then
                let (size, pos) ← readVarint data nameStop stop
                let (mtime, pos) ← readVarint data pos stop
                tableEntries data tableStart stop count pos dirs
                  (files ++ [⟨name, UInt64.ofNat size, UInt64.ofNat mtime, false⟩])
              else if typ ∈ [108, 104, 98, 99, 112, 115] then
                tableEntries data tableStart stop count nameStop dirs
                  (files ++ [⟨name, 0, 0, typ == 108⟩])
              else .error .unknownType

/-- Where the contents of a table are, by its length prefix. -/
def tableBounds (data : Bytes) (tableStart : Nat) : Outcome CatalogError (Nat × Nat) := do
  let (tableLen, pos) ← readVarint data tableStart data.length
  let stop := uint64 (pos + tableLen)
  if stop < pos ∨ stop > data.length - 8 then .error .tableOverruns else return (pos, stop)

def tableContents (data : Bytes) (tableStart pos stop : Nat) :
    Outcome CatalogError (List CatalogDirRef × List CatalogFileRef) := do
  let (count, pos) ← readVarint data pos stop
  tableEntries data tableStart stop count pos [] []

/-- A table that is read: its length prefix is in [start, pos), its contents in [pos, stop). -/
structure Table where
  start : Nat
  pos : Nat
  stop : Nat

/-- The list under way, the tables read, and the offsets followed, each with the table
it is from. -/
structure Walk where
  entries : List CatalogEntry
  tables : List Table
  follows : List (Nat × Nat)

abbrev Step (α : Type) := Walk × Outcome CatalogError α

def parseCatalogTable (data : Bytes) (tableStart : Nat) (w : Walk) :
    Step (List CatalogDirRef × List CatalogFileRef) :=
  match tableBounds data tableStart with
  | .ok (pos, stop) =>
      ({ w with tables := w.tables ++ [⟨tableStart, pos, stop⟩] },
        tableContents data tableStart pos stop)
  | .error err => (w, .error err)
  | .panicked => (w, .panicked)

def addFiles (pre : Bytes) : List CatalogFileRef → Walk → Step Unit
  | [], w => (w, .ok ())
  | f :: rest, w =>
      if w.entries.length ≥ catalogMaxEntries then (w, .error .tooManyEntries)
      else addFiles pre rest { w with entries := w.entries ++ [refListed pre f] }

/-- The loop over a table's folders; walk is walkCatalog one level down. -/
def followDirs (walk : Nat → Bytes → Walk → Step Unit) (dirStart : Nat) (pre : Bytes) :
    List CatalogDirRef → Walk → Step Unit
  | [], w => (w, .ok ())
  | d :: rest, w =>
      if d.start ≥ dirStart then (w, .error .notBeforeParent)
      else if w.entries.length ≥ catalogMaxEntries then (w, .error .tooManyEntries)
      else
        let p := joinArchivePath pre d.name
        match walk d.start p { w with
            entries := w.entries ++ [dirListed p], follows := w.follows ++ [(dirStart, d.start)] } with
        | (w, .ok ()) => followDirs walk dirStart pre rest w
        | failed => failed

/-- The number counts the levels still allowed. -/
def walkCatalog (data : Bytes) : Nat → Nat → Bytes → Walk → Step Unit
  | 0, _, _, w => (w, .error .tooDeep)
  | levels + 1, dirStart, pre, w =>
      match parseCatalogTable data dirStart w with
      | (w, .error err) => (w, .error err)
      | (w, .panicked) => (w, .panicked)
      | (w, .ok (dirs, files)) =>
          match addFiles pre files w with
          | (w, .ok ()) => followDirs (walkCatalog data levels) dirStart pre dirs w
          | failed => failed

/-- The archives of the trailing table. -/
def walkTrailer (data : Bytes) (rootPtr : Nat) : List CatalogDirRef → Walk → Step Unit
  | [], w => (w, .ok ())
  | d :: rest, w =>
      match walkCatalog data (catalogMaxDepth + 1) d.start d.name { w with
          entries := w.entries ++ [dirListed d.name], follows := w.follows ++ [(rootPtr, d.start)] } with
      | (w, .ok ()) => walkTrailer data rootPtr rest w
      | failed => failed

/-- What ParseCatalog looks at before the trailing table. -/
def rootPointer (data : Bytes) : Outcome CatalogError Nat := do
  if data.length < 16 then .error .tooShort
  else
    let magic ← sliceAt data 0 8
    if magic ≠ catalogMagic then .error .notCatalog
    else
      let last ← sliceAt data (data.length - 8) data.length
      let rootPtr := LittleEndian.decode last
      if rootPtr < 8 ∨ rootPtr > data.length - 8 then .error .rootPointer else return rootPtr

/-- The trailing table. -/
def trailer (data : Bytes) : Step (Nat × List CatalogDirRef) :=
  match rootPointer data with
  | .error err => (⟨[], [], []⟩, .error err)
  | .panicked => (⟨[], [], []⟩, .panicked)
  | .ok rootPtr =>
      match parseCatalogTable data rootPtr ⟨[], [], []⟩ with
      | (w, .error err) => (w, .error err)
      | (w, .panicked) => (w, .panicked)
      | (w, .ok (dirs, files)) =>
          if files.length ≠ 0 ∨ dirs.length < 1 then (w, .error .trailerMalformed)
          else (w, .ok (rootPtr, dirs))

def ParseCatalog (data : Bytes) : Step Unit :=
  match trailer data with
  | (w, .error err) => (w, .error err)
  | (w, .panicked) => (w, .panicked)
  | (w, .ok (rootPtr, dirs)) => walkTrailer data rootPtr dirs w

theorem readVarintFrom_meets (data : Bytes) (stop : Nat) (inside : stop ≤ data.length)
    (digits pos shift v : Nat) :
    (readVarintFrom data stop digits pos shift v).Meets
      fun (_, next) => pos < next ∧ next ≤ stop := by
  induction digits generalizing pos shift v with
  | zero => exact .error
  | succ digits ih =>
    rw [readVarintFrom]
    by_cases past : pos ≥ stop
    · rw [if_pos past]
      exact .error
    · have within : pos < data.length := by omega
      rw [if_neg past, List.getElem?_eq_getElem within]
      dsimp only
      split
      · exact .error
      · split
        · exact .ok ⟨Nat.lt_succ_self pos, by omega⟩
        · apply (ih (pos + 1) (shift + 7) _).weaken
          intro found later
          exact ⟨Nat.lt_trans (Nat.lt_succ_self pos) later.1, later.2⟩

/-- A reader of a number takes at least one byte, none past its bound, and indexes none
outside the buffer. -/
theorem readVarint_meets (data : Bytes) (pos stop : Nat) :
    (readVarint data pos stop).Meets
      fun (_, next) => pos < next ∧ next ≤ stop ∧ next ≤ data.length := by
  apply (readVarintFrom_meets data _ (Nat.min_le_right stop _) 10 pos 0 0).weaken
  intro found reads
  exact ⟨reads.1, Nat.le_trans reads.2 (Nat.min_le_left _ _),
    Nat.le_trans reads.2 (Nat.min_le_right _ _)⟩

theorem sliceAt_meets (data : Bytes) (pos stop : Nat) (order : pos ≤ stop)
    (inside : stop ≤ data.length) : (sliceAt data pos stop).Meets fun _ => True := by
  rw [sliceAt, if_pos ⟨order, inside⟩]
  exact .ok trivial

/-- Whatever the bytes of a table are, its folders start no later than the table. -/
theorem tableEntries_meets (data : Bytes) (tableStart stop : Nat) (inside : stop ≤ data.length)
    (count pos : Nat) (dirs : List CatalogDirRef) (files : List CatalogFileRef)
    (back : ∀ d ∈ dirs, d.start ≤ tableStart) :
    (tableEntries data tableStart stop count pos dirs files).Meets
      fun (found, _) => ∀ d ∈ found, d.start ≤ tableStart := by
  induction count generalizing pos dirs files with
  | zero =>
    rw [tableEntries]
    split
    · exact .error
    · exact .ok back
  | succ count ih =>
    rw [tableEntries]
    by_cases past : pos ≥ stop
    · rw [if_pos past]
      exact .error
    · have within : pos < data.length := by omega
      rw [if_neg past, List.getElem?_eq_getElem within]
      apply (readVarint_meets data (pos + 1) stop).bind
      rintro ⟨nameLen, nameStart⟩ _
      dsimp only
      split
      · exact .error
      · rename_i fits
        push Not at fits
        apply (sliceAt_meets data _ _ fits.2 (Nat.le_trans fits.1 inside)).bind
        intro name _
        split
        · apply (readVarint_meets data _ stop).bind
          rintro ⟨delta, next⟩ _
          dsimp only
          split
          · exact .error
          · apply ih
            intro d member
            rcases List.mem_append.mp member with old | new
            · exact back d old
            · rw [List.mem_singleton.mp new]
              exact Nat.sub_le _ _
        · split
          · apply (readVarint_meets data _ stop).bind
            rintro ⟨size, mid⟩ _
            apply (readVarint_meets data _ stop).bind
            rintro ⟨mtime, next⟩ _
            exact ih next dirs _ back
          · split
            · exact ih _ dirs _ back
            · exact .error

theorem tableContents_meets (data : Bytes) (tableStart pos stop : Nat)
    (inside : stop ≤ data.length) :
    (tableContents data tableStart pos stop).Meets
      fun (found, _) => ∀ d ∈ found, d.start ≤ tableStart := by
  apply (readVarint_meets data pos stop).bind
  rintro ⟨count, next⟩ _
  apply tableEntries_meets data tableStart stop inside
  intro d member
  cases member

/-- The bound keeps the table before the pointer at the end, and the sum of position and
length from wrapping around. -/
theorem tableBounds_meets (data : Bytes) (tableStart : Nat) (size : 16 ≤ data.length) :
    (tableBounds data tableStart).Meets
      fun (pos, stop) => tableStart < pos ∧ pos ≤ stop ∧ stop + 8 ≤ data.length := by
  apply (readVarint_meets data tableStart data.length).bind
  rintro ⟨tableLen, pos⟩ ⟨later, _⟩
  dsimp only
  split
  · exact .error
  · rename_i fits
    push Not at fits
    exact .ok ⟨later, fits.1, by omega⟩

theorem readVarintFrom_take (data : Bytes) (bound stop : Nat) (within : stop ≤ bound)
    (digits pos shift v : Nat) :
    readVarintFrom (data.take bound) stop digits pos shift v =
      readVarintFrom data stop digits pos shift v := by
  induction digits generalizing pos shift v with
  | zero => rfl
  | succ digits ih =>
    rw [readVarintFrom, readVarintFrom]
    by_cases past : pos ≥ stop
    · rw [if_pos past, if_pos past]
    · have before : pos < bound := by omega
      rw [if_neg past, if_neg past, List.getElem?_take_of_lt before]
      simp only [ih]

theorem readVarint_take (data : Bytes) (pos stop : Nat) (inside : stop ≤ data.length) :
    readVarint (data.take stop) pos stop = readVarint data pos stop := by
  rw [readVarint, readVarint, List.length_take, Nat.min_eq_left inside, Nat.min_self,
    readVarintFrom_take data stop stop (Nat.le_refl stop)]

theorem sliceAt_take (data : Bytes) (pos nameStop stop : Nat) (inside : stop ≤ data.length)
    (within : nameStop ≤ stop) :
    sliceAt (data.take stop) pos nameStop = sliceAt data pos nameStop := by
  rw [sliceAt, sliceAt, List.length_take, Nat.min_eq_left inside]
  by_cases order : pos ≤ nameStop
  · have bounds : (data.take stop).drop pos = (data.drop pos).take (stop - pos) := List.drop_take
    rw [if_pos ⟨order, within⟩, if_pos ⟨order, Nat.le_trans within inside⟩, slice, slice, bounds,
      List.take_take, Nat.min_eq_left (by omega)]
  · rw [if_neg (fun both => order both.1), if_neg (fun both => order both.1)]

theorem tableEntries_take (data : Bytes) (tableStart stop : Nat) (inside : stop ≤ data.length)
    (count pos : Nat) (dirs : List CatalogDirRef) (files : List CatalogFileRef) :
    tableEntries (data.take stop) tableStart stop count pos dirs files =
      tableEntries data tableStart stop count pos dirs files := by
  induction count generalizing pos dirs files with
  | zero => rfl
  | succ count ih =>
    rw [tableEntries, tableEntries]
    by_cases past : pos ≥ stop
    · rw [if_pos past, if_pos past]
    · have before : pos < stop := by omega
      rw [if_neg past, if_neg past, List.getElem?_take_of_lt before]
      simp only [readVarint_take data _ stop inside, ih]
      cases data[pos]? with
      | none => rfl
      | some typ =>
        -- Only the slice of the name still names the shorter buffer.
        apply congrArg (readVarint data (pos + 1) stop >>= ·)
        funext ⟨nameLen, nameStart⟩
        dsimp only
        split
        · rfl
        · rename_i fits
          push Not at fits
          rw [sliceAt_take data _ _ stop inside fits.1]

/-- The contents of a table are read from the bytes before its end alone. -/
theorem tableContents_take (data : Bytes) (tableStart pos stop : Nat)
    (inside : stop ≤ data.length) :
    tableContents (data.take stop) tableStart pos stop = tableContents data tableStart pos stop := by
  simp only [tableContents, readVarint_take data pos stop inside,
    tableEntries_take data tableStart stop inside]

/-- A table that is read lies before the pointer at the end, and what stands behind it
makes no difference. -/
structure InPlace (data : Bytes) (t : Table) : Prop where
  order : t.start < t.pos ∧ t.pos ≤ t.stop
  before : t.stop + 8 ≤ data.length
  unread : tableContents (data.take t.stop) t.start t.pos t.stop =
    tableContents data t.start t.pos t.stop

structure Kept (data : Bytes) (w : Walk) : Prop where
  tables : ∀ t ∈ w.tables, InPlace data t
  decreasing : ∀ f ∈ w.follows, f.2 < f.1

theorem Kept.nothing (data : Bytes) : Kept data ⟨[], [], []⟩ where
  tables := fun _ member => by cases member
  decreasing := fun _ member => by cases member

theorem Kept.read {data : Bytes} {w : Walk} (kept : Kept data w) {t : Table}
    (inPlace : InPlace data t) :
    Kept data { w with tables := w.tables ++ [t] } where
  tables := by
    intro other member
    rcases List.mem_append.mp member with old | new
    · exact kept.tables other old
    · rw [List.mem_singleton.mp new]
      exact inPlace
  decreasing := kept.decreasing

theorem Kept.follow {data : Bytes} {w : Walk} (kept : Kept data w) {parent child : Nat}
    (back : child < parent) (entries : List CatalogEntry) :
    Kept data { w with entries := entries, follows := w.follows ++ [(parent, child)] } where
  tables := kept.tables
  decreasing := by
    intro f member
    rcases List.mem_append.mp member with old | new
    · exact kept.decreasing f old
    · rw [List.mem_singleton.mp new]
      exact back

/-- What a part of the walk does to the log it starts from. -/
structure Sound (data : Bytes) (w : Walk) {α : Type} (part : Step α) : Prop where
  keeps : Kept data w → Kept data part.1
  returns : part.2 ≠ .panicked
  grows : w.follows ⊆ part.1.follows

theorem Sound.done {data : Bytes} {w : Walk} {α : Type} (value : α) :
    Sound data w (w, .ok value) where
  keeps := fun kept => kept
  returns := by
    intro wrong
    cases wrong
  grows := List.Subset.refl _

theorem Sound.stopped {data : Bytes} {w : Walk} (α : Type) (err : CatalogError) :
    Sound data w ((w, .error err) : Step α) where
  keeps := fun kept => kept
  returns := by
    intro wrong
    cases wrong
  grows := List.Subset.refl _

/-- A part behind one that has returned. -/
theorem Sound.next {data : Bytes} {w mid : Walk} {α β : Type} {value : α} {rest : Step β}
    (first : Sound data w (mid, .ok value)) (second : Sound data mid rest) :
    Sound data w rest where
  keeps := fun kept => second.keeps (first.keeps kept)
  returns := second.returns
  grows := List.Subset.trans first.grows second.grows

theorem Sound.failed {data : Bytes} {w mid : Walk} {α : Type} {err : CatalogError} (β : Type)
    (first : Sound data w ((mid, .error err) : Step α)) :
    Sound data w ((mid, .error err) : Step β) where
  keeps := first.keeps
  returns := by
    intro wrong
    cases wrong
  grows := first.grows

/-- The offset was checked, so the log keeps its order when it is followed. -/
theorem Sound.follow {data : Bytes} {w : Walk} {parent child : Nat} (back : child < parent)
    (entries : List CatalogEntry) : Sound data w
      ({ w with entries := entries, follows := w.follows ++ [(parent, child)] }, .ok ()) where
  keeps := fun kept => kept.follow back entries
  returns := by
    intro wrong
    cases wrong
  grows := List.subset_append_left _ _

theorem parseCatalogTable_sound (data : Bytes) (size : 16 ≤ data.length) (tableStart : Nat)
    (w : Walk) : Sound data w (parseCatalogTable data tableStart w) := by
  have bounds := tableBounds_meets data tableStart size
  rw [parseCatalogTable]
  cases place : tableBounds data tableStart with
  | ok extent =>
    have inBounds := bounds.of_ok place
    have inside : extent.2 ≤ data.length := by omega
    have contents := tableContents_meets data tableStart extent.1 extent.2 inside
    constructor
    · intro kept
      exact kept.read ⟨⟨inBounds.1, inBounds.2.1⟩, inBounds.2.2,
        tableContents_take data tableStart extent.1 extent.2 inside⟩
    · exact contents.not_panicked
    · exact List.Subset.refl _
  | error err => exact Sound.stopped _ err
  | panicked => exact (bounds.not_panicked place).elim

/-- No folder of a table that has been read starts behind the table. -/
theorem parseCatalogTable_back (data : Bytes) (size : 16 ≤ data.length) (tableStart : Nat)
    (w found : Walk) (dirs : List CatalogDirRef) (files : List CatalogFileRef)
    (parsed : parseCatalogTable data tableStart w = (found, .ok (dirs, files))) :
    ∀ d ∈ dirs, d.start ≤ tableStart := by
  have bounds := tableBounds_meets data tableStart size
  rw [parseCatalogTable] at parsed
  cases place : tableBounds data tableStart with
  | ok extent =>
    rw [place] at parsed
    have inBounds := bounds.of_ok place
    have inside : extent.2 ≤ data.length := by omega
    have contents := tableContents_meets data tableStart extent.1 extent.2 inside
    exact contents.of_ok (congrArg Prod.snd parsed)
  | error err =>
    rw [place] at parsed
    cases parsed
  | panicked => exact (bounds.not_panicked place).elim

theorem addFiles_sound (data pre : Bytes) (files : List CatalogFileRef) (w : Walk) :
    Sound data w (addFiles pre files w) := by
  induction files generalizing w with
  | nil => exact Sound.done ()
  | cons f rest ih =>
    rw [addFiles]
    split
    · exact Sound.stopped _ _
    · have added := ih { w with entries := w.entries ++ [refListed pre f] }
      exact ⟨fun kept => added.keeps ⟨kept.tables, kept.decreasing⟩, added.returns, added.grows⟩

theorem followDirs_sound (data : Bytes) (walk : Nat → Bytes → Walk → Step Unit)
    (below : ∀ start pre w, Sound data w (walk start pre w))
    (dirStart : Nat) (pre : Bytes) (dirs : List CatalogDirRef) (w : Walk) :
    Sound data w (followDirs walk dirStart pre dirs w) := by
  induction dirs generalizing w with
  | nil => exact Sound.done ()
  | cons d rest ih =>
    rw [followDirs]
    by_cases late : d.start ≥ dirStart
    · rw [if_pos late]
      exact Sound.stopped _ _
    · rw [if_neg late]
      split
      · exact Sound.stopped _ _
      · have inner := (Sound.follow (Nat.lt_of_not_le late) _).next
          (below d.start (joinArchivePath pre d.name) { w with
            entries := w.entries ++ [dirListed (joinArchivePath pre d.name)],
            follows := w.follows ++ [(dirStart, d.start)] })
        dsimp only
        split
        · rename_i found walked
          rw [walked] at inner
          exact inner.next (ih found)
        · exact inner

theorem walkCatalog_sound (data : Bytes) (size : 16 ≤ data.length) (levels : Nat) (dirStart : Nat)
    (pre : Bytes) (w : Walk) : Sound data w (walkCatalog data levels dirStart pre w) := by
  induction levels generalizing dirStart pre w with
  | zero => exact Sound.stopped _ _
  | succ levels ih =>
    have table := parseCatalogTable_sound data size dirStart w
    rw [walkCatalog]
    split
    · rename_i found err parsed
      rw [parsed] at table
      exact table.failed Unit
    · rename_i found parsed
      rw [parsed] at table
      exact (table.returns rfl).elim
    · rename_i found dirs files parsed
      rw [parsed] at table
      have listed := addFiles_sound data pre files found
      split
      · rename_i more added
        rw [added] at listed
        have followed := followDirs_sound data (walkCatalog data levels) ih dirStart pre dirs more
        exact (table.next listed).next followed
      · exact table.next listed

/-- The archives before one that is reached are walked as if they stood alone. -/
theorem walkTrailer_append (data : Bytes) (rootPtr : Nat) (front back : List CatalogDirRef)
    (w mid : Walk) (walked : walkTrailer data rootPtr front w = (mid, .ok ())) :
    walkTrailer data rootPtr (front ++ back) w = walkTrailer data rootPtr back mid := by
  induction front generalizing w with
  | nil =>
    rw [walkTrailer] at walked
    cases walked
    rfl
  | cons d rest ih =>
    rw [List.cons_append, walkTrailer]
    rw [walkTrailer] at walked
    split at walked
    · rename_i found inner
      exact ih found walked
    · rename_i failed
      exact (failed mid walked).elim

/-- The log only grows, so an archive that is followed stays in it. -/
theorem walkTrailer_follows (data : Bytes) (size : 16 ≤ data.length) (rootPtr : Nat)
    (dirs : List CatalogDirRef) (w : Walk) :
    w.follows ⊆ (walkTrailer data rootPtr dirs w).1.follows := by
  induction dirs generalizing w with
  | nil => exact List.Subset.refl _
  | cons d rest ih =>
    have inner := walkCatalog_sound data size (catalogMaxDepth + 1) d.start d.name { w with
      entries := w.entries ++ [dirListed d.name], follows := w.follows ++ [(rootPtr, d.start)] }
    have kept := List.Subset.trans (List.subset_append_left w.follows [(rootPtr, d.start)])
      inner.grows
    rw [walkTrailer]
    split
    · rename_i found walked
      rw [walked] at kept
      exact List.Subset.trans kept (ih found)
    · exact kept

/-- While the archives that are reached start before the trailing table, its walk is sound. -/
theorem walkTrailer_sound (data : Bytes) (size : 16 ≤ data.length) (rootPtr : Nat)
    (dirs : List CatalogDirRef) (w : Walk)
    (before : ∀ front d back, dirs = front ++ d :: back →
      (walkTrailer data rootPtr front w).2 = .ok () → d.start < rootPtr) :
    Sound data w (walkTrailer data rootPtr dirs w) := by
  induction dirs generalizing w with
  | nil => exact Sound.done ()
  | cons d rest ih =>
    have inner := (Sound.follow (before [] d rest rfl rfl) _).next
      (walkCatalog_sound data size (catalogMaxDepth + 1) d.start d.name { w with
        entries := w.entries ++ [dirListed d.name], follows := w.follows ++ [(rootPtr, d.start)] })
    rw [walkTrailer]
    split
    · rename_i found walked
      rw [walked] at inner
      apply inner.next (ih found _)
      intro front next back parts reached
      apply before (d :: front) next back
      · rw [parts, List.cons_append]
      · rw [walkTrailer, walked]
        exact reached
    · exact inner

theorem rootPointer_meets (data : Bytes) :
    (rootPointer data).Meets fun _ => 16 ≤ data.length := by
  rw [rootPointer]
  split
  · exact .error
  · rename_i long
    apply (sliceAt_meets data 0 8 (by omega) (by omega)).bind
    intro magic _
    split
    · exact .error
    · apply (sliceAt_meets data (data.length - 8) data.length (by omega) (by omega)).bind
      intro last _
      dsimp only
      split
      · exact .error
      · exact .ok (Nat.le_of_not_lt long)

theorem trailer_kept (data : Bytes) :
    Kept data (trailer data).1 ∧ (trailer data).2.Meets
      fun (rootPtr, dirs) => 16 ≤ data.length ∧ ∀ d ∈ dirs, d.start ≤ rootPtr := by
  have pointed := rootPointer_meets data
  rw [trailer]
  cases found : rootPointer data with
  | error err => exact ⟨Kept.nothing data, .error⟩
  | panicked => exact (pointed.not_panicked found).elim
  | ok rootPtr =>
    have size := pointed.of_ok found
    have table := parseCatalogTable_sound data size rootPtr ⟨[], [], []⟩
    have kept := table.keeps (Kept.nothing data)
    dsimp only
    split
    · rename_i w err parsed
      rw [parsed] at kept
      exact ⟨kept, .error⟩
    · rename_i w parsed
      rw [parsed] at table
      exact (table.returns rfl).elim
    · rename_i w dirs files parsed
      rw [parsed] at kept
      split
      · exact ⟨kept, .error⟩
      · exact ⟨kept, .ok ⟨size, parseCatalogTable_back data size rootPtr _ w dirs files parsed⟩⟩

/-- What a damaged catalog must not break: ParseCatalog returns, reads its tables in
place, and follows no offset that leads forward or nowhere. -/
structure Safe (data : Bytes) : Prop where
  returns : (ParseCatalog data).2 ≠ .panicked
  kept : Kept data (ParseCatalog data).1

/-- walkCatalog compares a folder with the table it is from before it follows it;
ParseCatalog follows the archives of the trailing table as they are. The one offset
that does not decrease is then the zero of an archive that is reached. -/
theorem catalog_safe_iff (data : Bytes) :
    Safe data ↔ ∀ w rootPtr front d back,
      trailer data = (w, .ok (rootPtr, front ++ d :: back)) →
      (walkTrailer data rootPtr front w).2 = .ok () → d.start ≠ rootPtr := by
  have start := trailer_kept data
  constructor
  · rintro safe w rootPtr front d back parsed reached same
    rw [parsed] at start
    have size := (start.2.of_ok rfl).1
    have followed : (rootPtr, d.start) ∈ (ParseCatalog data).1.follows := by
      cases walked : walkTrailer data rootPtr front w with
      | mk mid result =>
        rw [walked] at reached
        dsimp only at reached
        rw [reached] at walked
        have inner := walkCatalog_sound data size (catalogMaxDepth + 1) d.start d.name { mid with
          entries := mid.entries ++ [dirListed d.name],
          follows := mid.follows ++ [(rootPtr, d.start)] }
        have logged := inner.grows (List.mem_append_right mid.follows (List.mem_singleton_self _))
        rw [ParseCatalog, parsed]
        dsimp only
        rw [walkTrailer_append data rootPtr front (d :: back) w mid walked, walkTrailer]
        split
        · rename_i found below
          rw [below] at logged
          exact walkTrailer_follows data size rootPtr back found logged
        · exact logged
    have decreases := safe.kept.decreasing (rootPtr, d.start) followed
    exact Nat.lt_irrefl rootPtr (same ▸ decreases)
  · intro forward
    rcases parsed : trailer data with ⟨w, result⟩
    rw [parsed] at start
    cases result with
    | error err =>
      constructor
      · rw [ParseCatalog, parsed]
        intro wrong
        cases wrong
      · rw [ParseCatalog, parsed]
        exact start.1
    | panicked => exact (start.2.not_panicked rfl).elim
    | ok found =>
      have known := start.2.of_ok rfl
      have archives := walkTrailer_sound data known.1 found.1 found.2 w (by
        intro front d back parts reached
        have back' := known.2 d (by
          rw [parts]
          exact List.mem_append_right front List.mem_cons_self)
        have other := forward w found.1 front d back (by rw [parsed, ← parts]) reached
        exact Nat.lt_of_le_of_ne back' other)
      have run : ParseCatalog data = walkTrailer data found.1 found.2 w := by
        rw [ParseCatalog, parsed]
      constructor
      · rw [run]
        exact archives.returns
      · rw [run]
        exact archives.keeps start.1

-- The trailing table at 8 holds one archive, a, that is stored at 8 as well.
def selfArchive : Bytes :=
  catalogMagic ++ [5, 1, 100, 1, 97, 0] ++ [8, 0, 0, 0, 0, 0, 0, 0]

theorem selfArchive_not_safe : ¬ Safe selfArchive := by
  intro safe
  have followed : (8, 8) ∈ (ParseCatalog selfArchive).1.follows := by decide +kernel
  exact Nat.lt_irrefl 8 (safe.kept.decreasing (8, 8) followed)

end ProxmoxBackup.CatalogReader
