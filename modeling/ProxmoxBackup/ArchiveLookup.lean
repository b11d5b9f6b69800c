import ProxmoxBackup.ArchiveWalk
import ProxmoxBackup.RestoreSelection

/-! The lookup of a path in the GOODBYE tables of an archive: findChildSpan and
ResolveArchivePathBST of pbscommon/pxar_reader.go, and the walk of the span they find. -/

namespace ProxmoxBackup.ArchiveLookup

open Actions ArchiveItems ArchiveRecords ArchiveWalk GoValues LittleEndian PxarFormat PxarWalk
open Catalog (Bytes joinArchivePath)
open FileContent (EntryMeta entryRecord filenameRecord)
open GoodbyeTable (GoodByeItem findEntry findEntry_here findEntry_spec)
open RestorePaths (slash trimSlashes)

inductive LookupError where
  | readTrailer (err : ReadError)
  | noTrailer
  | negativePosition
  | negativeCount
  | readEntry (i : Nat) (err : ReadError)
  | notFound (name : Bytes)
  | emptyPath
  | unreachable
  deriving DecidableEq

/-- A resolved path: its bytes in the stream, and the path of its parent. -/
structure IncludeSpan where
  start : Int
  stop : Int
  parent : Bytes
  deriving DecidableEq

section

variable (pr : PXARReader) (hash : Bytes → UInt64)

def readGoodByeItem (pos : Int) : Except ReadError GoodByeItem :=
  match pr.ra.readAt 24 pos with
  | .error err => .error err
  | .ok buf => .ok ⟨field buf 0 8, field buf 8 8, field buf 16 8⟩

/-- The search through the count entries of the table whose header stands at pos. -/
def searchTable (name : Bytes) (pos count : Int) (i : Nat) : Except LookupError (Int × Int) :=
  if (i : Int) < count then
    match readGoodByeItem pr (int64 (int64 (pos + 16) + int64 (i * 24))) with
    | .error err => .error (.readEntry i err)
    | .ok item =>
        if (hash name).toNat = item.hash then
          let start := int64 (pos - int64 item.offset)
          .ok (start, int64 (start + int64 item.len))
        else if (hash name).toNat < item.hash then searchTable name pos count (i * 2 + 1)
        else searchTable name pos count (i * 2 + 2)
  else .error (.notFound name)
termination_by (count - i).toNat

/-- The span of a folder's child. The folder's own ends at spanEnd, with its GOODBYE table. -/
def findChildSpan (spanEnd : Int) (name : Bytes) : Except LookupError (Int × Int) :=
  match readGoodByeItem pr (int64 (spanEnd - 24)) with
  | .error err => .error (.readTrailer err)
  | .ok trailer =>
      if trailer.hash ≠ PXAR_GOODBYE_TAIL_MARKER then .error .noTrailer
      else
        let pos := int64 (spanEnd - int64 trailer.len)
        if pos < 0 then .error .negativePosition
        else
          let count := int64 (Int.tdiv (int64 (int64 trailer.len - 16)) 24 - 1)
          if count < 0 then .error .negativeCount
          else searchTable pr hash name pos count 0

/-- A component after the other, from the folder whose span ends at spanEnd; above are the
components before. -/
def resolveFrom (above : List Bytes) (spanEnd : Int) : List Bytes → Except LookupError IncludeSpan
  | [] => .error .unreachable
  | comp :: rest => do
      let (start, stop) ← findChildSpan pr hash spanEnd comp
      if rest = [] then return ⟨start, stop, [slash].intercalate above⟩
      else resolveFrom (above ++ [comp]) stop rest

def ResolveArchivePathBST (path : Bytes) : Except LookupError IncludeSpan :=
  let path := trimSlashes path
  if path = [] then .error .emptyPath else resolveFrom pr hash [] pr.size (path.splitOn slash)

end

/-! The table of a folder. -/

section

variable {pr : PXARReader} {hash : Bytes → UInt64} {o : Nat}

theorem item_read {i : GoodByeItem} (holds : Holds pr.ra o (itemRecord i))
    (small : i.hash < 2 ^ 64 ∧ i.offset < 2 ^ 64 ∧ i.len < 2 ^ 64) : readGoodByeItem pr o = .ok i := by
  have read := holds.readAt
  rw [itemRecord_length] at read
  obtain ⟨first, second, third⟩ := words_read small
  rw [readGoodByeItem, read]
  unfold itemRecord
  dsimp only
  rw [first, second, third]

/-- The item of a slot. -/
theorem slot_holds {table : List GoodByeItem} {rest : Bytes} {slot : Nat} {item : GoodByeItem}
    (holds : Holds pr.ra o (table.flatMap itemRecord ++ rest)) (here : table[slot]? = some item) :
    Holds pr.ra (o + 24 * slot) (itemRecord item) := by
  obtain ⟨inside, rfl⟩ := List.getElem?_eq_some_iff.mp here
  have parts : table = table.take slot ++ table[slot] :: table.drop (slot + 1) := by
    rw [List.getElem_cons_drop, List.take_append_drop]
  rw [parts, List.flatMap_append, List.flatMap_cons, List.append_assoc, List.append_assoc] at holds
  have behind := holds.right.left
  rw [table_length, List.length_take, Nat.min_eq_left (by omega)] at behind
  simpa using behind

/-- What a table's items have to be for findChildSpan to follow them. -/
structure Sound (o : Nat) (i : GoodByeItem) : Prop where
  hash : i.hash < 2 ^ 64
  offset : i.offset ≤ o
  len : i.len ≤ i.offset

theorem search_follows {table : List GoodByeItem} {dirSize : Nat} {name : Bytes} (i : Nat)
    (holds : Holds pr.ra o (goodbyeRecord table dirSize)) (sound : ∀ i ∈ table, Sound o i) :
    (∀ slot item, findEntry table (hash name).toNat i = some slot → table[slot]? = some item →
      searchTable pr hash name o table.length i =
        .ok (((o - item.offset : Nat) : Int), ((o - item.offset + item.len : Nat) : Int))) ∧
    (findEntry table (hash name).toNat i = none →
      searchTable pr hash name o table.length i = .error (.notFound name)) := by
  unfold goodbyeRecord at holds
  have items := holds.right
  have fits := holds.fits
  rw [header_length] at items
  have word : ∀ {slot : Nat} {item : GoodByeItem}, table[slot]? = some item →
      slot < table.length ∧ item.hash < 2 ^ 64 ∧ item.offset < 2 ^ 63 ∧ item.len ≤ item.offset ∧
        item.offset ≤ o ∧
        readGoodByeItem pr (int64 (int64 ((o : Int) + 16) + int64 ((slot : Int) * 24))) = .ok item := by
    intro slot item here
    obtain ⟨inside, same⟩ := List.getElem?_eq_some_iff.mp here
    have ⟨hash, offset, len⟩ := sound item (same ▸ List.getElem_mem inside)
    have held := slot_holds items here
    have reach := held.fits
    have place : int64 (int64 ((o : Int) + 16) + int64 ((slot : Int) * 24)) =
      ((o + 16 + 24 * slot : Nat) : Int) := by
      rw [itemRecord_length] at reach
      rw [int64_same ((o : Int) + 16) (by omega) (by omega), int64_same ((slot : Int) * 24) (by omega)
        (by omega), int64_same _ (by omega) (by omega)]
      omega
    rw [place]
    exact ⟨inside, hash, by omega, len, offset, item_read held ⟨hash, by omega, by omega⟩⟩
  generalize target_ : (hash name).toNat = target
  fun_induction findEntry table target i with
  | case1 i outside =>
      refine ⟨fun slot item found => (by cases found), fun _ => ?_⟩
      have past := List.getElem?_eq_none_iff.mp outside
      rw [searchTable, if_neg (by omega)]
  | case2 i item here same =>
      refine ⟨fun slot other found there => ?_, fun none_ => by cases none_⟩
      cases found
      cases here.symm.trans there
      obtain ⟨inside, -, offset, len, before, read⟩ := word here
      have start : int64 ((o : Int) - int64 item.offset) = ((o - item.offset : Nat) : Int) := by
        rw [int64_nat offset, int64_same _ (by omega) (by omega)]
        omega
      have stop : int64 (((o - item.offset : Nat) : Int) + int64 item.len) =
          ((o - item.offset + item.len : Nat) : Int) := by
        rw [int64_nat (by omega), int64_same _ (by omega) (by omega)]
        omega
      rw [searchTable, if_pos (by omega), read]
      dsimp only
      rw [if_pos (target_.trans same), start, stop]
  | case3 i item here other below ih =>
      obtain ⟨inside, -, -, -, -, read⟩ := word here
      rw [searchTable, if_pos (by omega), read]
      dsimp only
      rw [if_neg (by rw [target_]; exact other), if_pos (by rw [target_]; exact below)]
      exact ih
  | case4 i item here other above ih =>
      obtain ⟨inside, -, -, -, -, read⟩ := word here
      rw [searchTable, if_pos (by omega), read]
      dsimp only
      rw [if_neg (by rw [target_]; exact other), if_neg (by rw [target_]; exact above)]
      exact ih

/-- The table at the end of a folder is found from where the folder ends. -/
theorem find_searches {table : List GoodByeItem} {dirSize : Nat} {name : Bytes}
    (holds : Holds pr.ra o (goodbyeRecord table dirSize)) (short : dirSize < 2 ^ 64) :
    findChildSpan pr hash ((o + goodbyeLength table.length : Nat) : Int) name =
      searchTable pr hash name o table.length 0 := by
  have fits := holds.fits
  rw [goodbyeRecord_length] at fits
  unfold goodbyeRecord at holds
  have tail := holds.right.right
  rw [header_length, table_length] at tail
  have sized : goodbyeLength table.length = 16 + 24 * table.length + 24 := by
    unfold goodbyeLength
    omega
  have marker : PXAR_GOODBYE_TAIL_MARKER < 2 ^ 64 := by decide
  have trailer := item_read tail ⟨marker, short, by dsimp only; omega⟩
  have place : int64 (((o + goodbyeLength table.length : Nat) : Int) - 24) =
      ((o + 16 + 24 * table.length : Nat) : Int) := by
    rw [int64_same _ (by omega) (by omega)]
    omega
  have pos : int64 (((o + goodbyeLength table.length : Nat) : Int) -
      int64 (goodbyeLength table.length)) = o := by
    rw [int64_nat (by omega), int64_same _ (by omega) (by omega)]
    omega
  have count : int64 (Int.tdiv (int64 (int64 (goodbyeLength table.length) - 16)) 24 - 1) = table.length := by
    have whole : ((goodbyeLength table.length : Nat) : Int) - 16 = 24 * ((table.length : Int) + 1) := by omega
    have twice : (24 : Int) ≠ 0 := by decide
    rw [int64_nat (show goodbyeLength table.length < 2 ^ 63 by omega), whole,
      int64_same (24 * ((table.length : Int) + 1)) (by omega) (by omega), Int.mul_tdiv_cancel_left _ twice,
      int64_same _ (by omega) (by omega)]
    omega
  rw [findChildSpan, place, trailer]
  dsimp only
  rw [if_neg (fun wrong => wrong rfl), pos, count, if_neg (by omega), if_neg (by omega)]

theorem goodbyeItems_hash (hash : Bytes → UInt64) (inner : List (Bytes × Bytes)) :
    (goodbyeItems hash inner).map GoodByeItem.hash = inner.map fun p => (hash p.1).toNat := by
  induction inner with
  | nil => rfl
  | cons p rest ih => rw [goodbyeItems, List.map_cons, List.map_cons, ih]

theorem goodbyeItems_append (hash : Bytes → UInt64) (pre post : List (Bytes × Bytes)) (name span : Bytes) :
    ⟨(hash name).toNat, span.length + (post.flatMap Prod.snd).length, span.length⟩ ∈
      goodbyeItems hash (pre ++ (name, span) :: post) := by
  induction pre with
  | nil => exact List.mem_cons_self
  | cons p rest ih => exact List.mem_cons_of_mem _ ih

theorem goodbyeItems_sound (hash : Bytes → UInt64) {inner : List (Bytes × Bytes)}
    (room : (inner.flatMap Prod.snd).length ≤ o) : ∀ i ∈ goodbyeItems hash inner, Sound o i := by
  induction inner with
  | nil => exact fun i none_ => by cases none_
  | cons p rest ih =>
      rw [List.flatMap_cons, List.length_append] at room
      refine List.forall_mem_cons.mpr ⟨⟨(hash p.1).toNat_lt, room, Nat.le_add_right _ _⟩, ih (by omega)⟩

theorem sorted_items {hash : Bytes → UInt64} {inner : List (Bytes × Bytes)}
    (distinct : (inner.map fun p => hash p.1).Nodup) :
    ((goodbyeItems hash inner).mergeSort fun a b => a.hash ≤ b.hash).Pairwise fun a b => a.hash < b.hash := by
  have perm := List.mergeSort_perm (goodbyeItems hash inner) fun a b => a.hash ≤ b.hash
  have sorted : ((goodbyeItems hash inner).mergeSort fun a b => a.hash ≤ b.hash).Pairwise
      fun a b => decide (a.hash ≤ b.hash) = true :=
    List.pairwise_mergeSort (fun a b c => by simpa using Nat.le_trans)
      (fun a b => by simpa using Nat.le_total _ _) _
  have apart : ((goodbyeItems hash inner).map GoodByeItem.hash).Nodup := by
    have words : ((inner.map fun p => hash p.1).map UInt64.toNat).Nodup :=
      List.Nodup.map (fun a b same => UInt64.toNat_inj.mp same) distinct
    rw [List.map_map] at words
    rw [goodbyeItems_hash]
    exact words
  have unlike := List.pairwise_map.mp ((perm.map GoodByeItem.hash).nodup_iff.mpr apart)
  refine (sorted.and unlike).imp fun both => ?_
  exact Nat.lt_of_le_of_ne (of_decide_eq_true both.1) both.2

/-- What a folder's table and its place come to for a lookup. -/
theorem folder_table {m : EntryMeta} {inner : List (Bytes × Bytes)} (name : Bytes)
    (holds : Holds pr.ra o (folderRecord hash m inner)) (distinct : (inner.map fun p => hash p.1).Nodup)
    (some_ : ∀ p ∈ inner, 0 < p.2.length) :
    ∃ table : List GoodByeItem, Holds pr.ra (o + 56 + (inner.flatMap Prod.snd).length)
        (goodbyeRecord table (56 + (inner.flatMap Prod.snd).length)) ∧
      (∀ i ∈ table, Sound (o + 56 + (inner.flatMap Prod.snd).length) i) ∧
      (folderRecord hash m inner).length = 56 + (inner.flatMap Prod.snd).length + goodbyeLength table.length ∧
      (∀ i ∈ goodbyeItems hash inner, i.hash = (hash name).toNat →
        ∃ slot, findEntry table (hash name).toNat 0 = some slot ∧ table[slot]? = some i) ∧
      ((∀ p ∈ inner, hash p.1 ≠ hash name) → findEntry table (hash name).toNat 0 = none) := by
  have fits := holds.fits
  obtain ⟨-, long⟩ := folderRecord_parts holds
  have count := goodbyeItems_length hash inner
  have few := spans_length_le some_
  obtain ⟨table, writes, laid, fills, held, perm⟩ := @goodbyeTable_laid (goodbyeItems hash inner) (by omega)
  have lookup := findEntry_spec fills held (sorted_items distinct) (hash name).toNat
  have whole := holds
  unfold folderRecord at whole
  dsimp only at whole
  rw [laid, Option.getD_some] at whole
  have tail := whole.right
  rw [List.length_append, entryRecord_length, ← Nat.add_assoc] at tail
  refine ⟨table, tail, fun i among => ?_, ?_, fun i among same => ?_,
    fun absent => lookup.2 fun i among => ?_⟩
  · exact goodbyeItems_sound hash (Nat.le_add_left _ _) i (perm.mem_iff.mp among)
  · rw [folderRecord_length hash m (by omega), goodbyeTable_length laid, count]
  · have listed := fills.items_perm.mem_iff.mpr ((List.mergeSort_perm _ _).mem_iff.mpr among)
    obtain ⟨⟨slot, item⟩, written, rfl⟩ := List.mem_map.mp listed
    exact ⟨slot, lookup.1 slot item written same, held _ written⟩
  · have listed := List.mem_map_of_mem (f := GoodByeItem.hash) ((List.mergeSort_perm _ _).mem_iff.mp among)
    rw [goodbyeItems_hash] at listed
    obtain ⟨p, inside, same⟩ := List.mem_map.mp listed
    intro equal
    exact absent p inside (UInt64.toNat_inj.mp (same.trans equal))

/-- Each child of a folder is found: from its FILENAME to the end of what is below it. -/
theorem child_found {m : EntryMeta} {pre post : List (Bytes × Bytes)} {name span : Bytes}
    (holds : Holds pr.ra o (folderRecord hash m (pre ++ (name, span) :: post)))
    (distinct : ((pre ++ (name, span) :: post).map fun p => hash p.1).Nodup)
    (some_ : ∀ p ∈ pre ++ (name, span) :: post, 0 < p.2.length) :
    findChildSpan pr hash ((o + (folderRecord hash m (pre ++ (name, span) :: post)).length : Nat) : Int)
      name =
      .ok (((o + 56 + (pre.flatMap Prod.snd).length : Nat) : Int),
        ((o + 56 + (pre.flatMap Prod.snd).length + span.length : Nat) : Int)) := by
  have fits := holds.fits
  obtain ⟨table, held, sound, size, finds, -⟩ := folder_table name holds distinct some_
  obtain ⟨slot, found, here⟩ := finds _ (goodbyeItems_append hash pre post name span) rfl
  have whole := congrArg (o + ·) size
  rw [← Nat.add_assoc, ← Nat.add_assoc] at whole
  rw [whole, find_searches held (by omega), (search_follows 0 held sound).1 slot _ found here]
  simp only [List.flatMap_append, List.flatMap_cons, List.length_append]
  congr 3
  · omega
  · omega

/-- A name with a hash of its own is not. -/
theorem child_absent {m : EntryMeta} {inner : List (Bytes × Bytes)} {name : Bytes}
    (holds : Holds pr.ra o (folderRecord hash m inner)) (distinct : (inner.map fun p => hash p.1).Nodup)
    (some_ : ∀ p ∈ inner, 0 < p.2.length) (absent : ∀ p ∈ inner, hash p.1 ≠ hash name) :
    findChildSpan pr hash ((o + (folderRecord hash m inner).length : Nat) : Int) name =
      .error (.notFound name) := by
  have fits := holds.fits
  obtain ⟨table, held, sound, size, -, none_⟩ := folder_table name holds distinct some_
  have whole := congrArg (o + ·) size
  rw [← Nat.add_assoc, ← Nat.add_assoc] at whole
  rw [whole, find_searches held (by omega), (search_follows 0 held sound).2 (none_ absent)]

end

/-! Places in an archive. -/

/-- Where entries stand: the path of their folder, and their first bytes in either stream. -/
structure Place where
  path : Bytes
  o : Nat
  q : Nat

/-- The first entry by itself. -/
def alone : Items → Items
  | .nil => .nil
  | .file name m content _ => .file name m content .nil
  | .symlink name m target _ => .symlink name m target .nil
  | .folder name m inside _ => .folder name m inside .nil

def nameOf : Items → Bytes
  | .nil => []
  | .file name _ _ _ => name
  | .symlink name _ _ _ => name
  | .folder name _ _ _ => name

def names : Items → List Bytes
  | .nil => []
  | .file name _ _ rest => name :: names rest
  | .symlink name _ _ rest => name :: names rest
  | .folder name _ _ rest => name :: names rest

section

variable (hash : Bytes → UInt64) (split : Bool)

/-- The place behind the first entry. -/
def next : Items → Place → Place
  | .nil, p => p
  | .file name _ content _, p =>
      ⟨p.path, p.o + (17 + name.length + 56 + (contentRecord split p.q content).length),
        p.q + (payloadRecord content).length⟩
  | .symlink name _ target _, p => ⟨p.path, p.o + (17 + name.length + 56 + (17 + target.length)), p.q⟩
  | .folder name m inside _, p =>
      ⟨p.path, p.o + (17 + name.length + (folderRecord hash m (spans hash split inside p.q)).length),
        p.q + (payloads inside).length⟩

/-- The place of what is in the folder of this name. -/
def Place.inside (name : Bytes) (p : Place) : Place :=
  ⟨joinArchivePath p.path name, p.o + (17 + name.length) + 56, p.q⟩

/-- An entry among those of a folder, and its place. -/
inductive Child : Items → Place → Items → Place → Prop where
  | first {items : Items} {p : Place} : items ≠ .nil → Child items p (alone items) p
  | later {items node : Items} {p p' : Place} : Child (behind items) (next hash split items p) node p' →
      Child items p node p'

/-- The folder that these names lead to from another: its entries, and their place. -/
inductive Inside : Items → Place → List Bytes → Items → Place → Prop where
  | here (items : Items) (p : Place) : Inside items p [] items p
  | deeper {items inside found : Items} {p here q : Place} {name : Bytes} {m : EntryMeta}
    {comps : List Bytes} :
      Child hash split items p (.folder name m inside .nil) here →
        Inside inside (here.inside name) comps found q →
      Inside items p (name :: comps) found q

end

/-- A name as a folder has it: neither empty nor with a slash. -/
def ProperName (name : Bytes) : Prop := name ≠ [] ∧ slash ∉ name

instance (name : Bytes) : Decidable (ProperName name) :=
  inferInstanceAs (Decidable (name ≠ [] ∧ slash ∉ name))

/-- All names are proper ones, and in no folder do two of them have one hash. -/
def Named (hash : Bytes → UInt64) : Items → Prop
  | .nil => True
  | .file name _ _ rest => ProperName name ∧ Named hash rest
  | .symlink name _ _ rest => ProperName name ∧ Named hash rest
  | .folder name _ inside rest =>
      ProperName name ∧ (((names inside).map hash).Nodup ∧ Named hash inside) ∧ Named hash rest

/-- A tree whose entries can be told apart by their paths, and looked up by them. -/
structure WellNamed (hash : Bytes → UInt64) (items : Items) : Prop where
  apart : ((names items).map hash).Nodup
  named : Named hash items
  readable : Readable items

/-- What holds of the entries at a place, and of each of them. -/
structure Sorted (pr : PXARReader) (hash : Bytes → UInt64) (split : Bool) (items : Items) (q : Nat) :
    Prop where
  backed : Backed pr split items q
  named : Named hash items
  readable : Readable items

section

variable {pr : PXARReader} {hash : Bytes → UInt64} {split : Bool}

theorem spans_names (hash : Bytes → UInt64) (split : Bool) (items : Items) (q : Nat) :
    (spans hash split items q).map Prod.fst = names items := by
  induction items generalizing q with
  | nil => rfl
  | file _ _ _ _ ih | symlink _ _ _ _ ih | folder _ _ _ _ _ ih => rw [spans, names, List.map_cons, ih]

/-- The first entry's span, and those behind it. -/
theorem spans_first (hash : Bytes → UInt64) (split : Bool) {items : Items} (some_ : items ≠ .nil)
    (p : Place) :
    ∃ span, spans hash split (alone items) p.q = [(nameOf items, span)] ∧
      spans hash split items p.q = (nameOf items, span) :: spans hash split (behind items)
        (next hash split items p).q ∧
      next hash split items p = ⟨p.path, p.o + span.length, (next hash split items p).q⟩ := by
  cases items with
  | nil => exact absurd rfl some_
  | file | symlink | folder =>
      refine ⟨_, rfl, rfl, ?_⟩
      simp only [List.length_append, filenameRecord_length, entryRecord_length, symlinkRecord_length]
      rfl

theorem alone_named (items : Items) : nameOf (alone items) = nameOf items := by
  cases items <;> rfl

theorem Backed.alone {items : Items} {q : Nat} (backed : Backed pr split items q) :
    Backed pr split (alone items) q :=
  fun mode => by
    obtain ⟨p, stream, held⟩ := backed mode
    refine ⟨p, stream, ?_⟩
    cases items with
    | nil => exact held
    | symlink name m target rest => exact Holds.left (a := []) held
    | file name m content rest =>
        show Holds p _ (payloadRecord content ++ [])
        rw [List.append_nil]
        exact held.left
    | folder name m inside rest =>
        show Holds p _ (payloads inside ++ [])
        rw [List.append_nil]
        exact held.left

theorem Sorted.alone {items : Items} {q : Nat} (sorted : Sorted pr hash split items q) :
    Sorted pr hash split (alone items) q := by
  obtain ⟨backed, named, readable⟩ := sorted
  refine ⟨Backed.alone backed, ?_, ?_⟩ <;> cases items <;> simp_all [ArchiveLookup.alone, Named, Readable]

theorem Sorted.behind {items : Items} {p : Place} (sorted : Sorted pr hash split items p.q) :
    Sorted pr hash split (behind items) (next hash split items p).q := by
  obtain ⟨backed, named, readable⟩ := sorted
  cases items with
  | nil => exact ⟨backed, named, readable⟩
  | file name m content rest => exact ⟨backed.behindFile, named.2, readable.2.2⟩
  | symlink name m target rest => exact ⟨backed, named.2, readable.2.2.2⟩
  | folder name m inside rest => exact ⟨backed.behindFolder, named.2.2, readable.2.2.2⟩

end

section

variable {pr : PXARReader} {hash : Bytes → UInt64} {split : Bool}

/-- Where a child's span lies among its folder's. -/
theorem Child.place {items node : Items} {p p' : Place} (child : Child hash split items p node p') :
    ∃ pre span post, spans hash split items p.q = pre ++ (nameOf node, span) :: post ∧
      spans hash split node p'.q = [(nameOf node, span)] ∧ p'.path = p.path ∧
      p'.o = p.o + (pre.flatMap Prod.snd).length := by
  induction child with
  | @first items p some_ =>
      obtain ⟨span, single, parts, -⟩ := spans_first hash split some_ p
      rw [alone_named]
      exact ⟨[], span, _, parts, single, rfl, rfl⟩
  | @later items node p p' child ih =>
      obtain ⟨pre, span, post, parts, single, path, o⟩ := ih
      have some_ : items ≠ .nil := fun none_ => by
        rw [none_] at parts
        exact absurd parts.symm (by simp [behind, spans])
      obtain ⟨front, -, whole, place⟩ := spans_first hash split some_ p
      rw [place] at o path
      refine ⟨(nameOf items, front) :: pre, span, post, ?_, single, path, ?_⟩
      · rw [whole, parts]
        rfl
      · rw [o, List.flatMap_cons, List.length_append, Nat.add_assoc]

theorem Child.sorted {items node : Items} {p p' : Place} (child : Child hash split items p node p')
    (sorted : Sorted pr hash split items p.q) : Sorted pr hash split node p'.q := by
  induction child with
  | first => exact sorted.alone
  | later child ih => exact ih sorted.behind

theorem Child.single {items node : Items} {p p' : Place} (child : Child hash split items p node p') :
    behind node = .nil := by
  induction child with
  | @first items p some_ => cases items <;> rfl
  | later child ih => exact ih

theorem Child.proper {items node : Items} {p p' : Place} (child : Child hash split items p node p')
    (named : Named hash items) : ProperName (nameOf node) := by
  induction child with
  | @first items p some_ =>
      cases items with
      | nil => exact absurd rfl some_
      | _ => exact named.1
  | @later items node p p' child ih =>
      refine ih ?_
      cases items with
      | nil => exact named
      | folder name m inside rest => exact named.2.2
      | _ => exact named.2

theorem intercalate_first (a : Bytes) (rest : List Bytes) :
    ∃ more, [slash].intercalate (a :: rest) = a ++ more := by
  cases rest with
  | nil => exact ⟨[], by rw [List.intercalate_singleton, List.append_nil]⟩
  | cons b rest => exact ⟨_, by rw [List.intercalate_cons_cons, List.append_assoc]⟩

/-- Paths are joined with a slash between each two names. -/
theorem join_path {above : List Bytes} {name : Bytes} (some_ : ∀ a ∈ above, a ≠ []) (named : name ≠ []) :
    joinArchivePath ([slash].intercalate above) name = [slash].intercalate (above ++ [name]) := by
  cases above with
  | nil => rw [List.intercalate_nil, joinArchivePath, if_pos rfl, List.nil_append, List.intercalate_singleton]
  | cons a rest =>
      have first : [slash].intercalate (a :: rest) ≠ [] := by
        obtain ⟨more, whole⟩ := intercalate_first a rest
        rw [whole]
        exact List.append_ne_nil_of_left_ne_nil (some_ a List.mem_cons_self) _
      rw [joinArchivePath, if_neg first, if_neg named,
        RestoreSelection.intercalate_append _ _ (List.cons_ne_nil _ _)
        (List.cons_ne_nil _ _), List.intercalate_singleton]
      rfl

theorem Child.found {items node : Items} {p p' : Place} {m : EntryMeta} {o : Nat}
    (child : Child hash split items p node p')
    (holds : Holds pr.ra o (folderRecord hash m (spans hash split items p.q))) (place : p.o = o + 56)
    (apart : ((names items).map hash).Nodup) :
    findChildSpan pr hash ((o + (folderRecord hash m (spans hash split items p.q)).length : Nat) : Int)
      (nameOf node) =
      .ok (p'.o, ((p'.o + ((spans hash split node p'.q).flatMap Prod.snd).length : Nat) : Int)) ∧
    Holds pr.ra p'.o ((spans hash split node p'.q).flatMap Prod.snd) := by
  obtain ⟨pre, span, post, parts, single, -, o'⟩ := child.place
  have positive := span_pos hash split items p.q
  have inside := (folderRecord_parts holds).1
  rw [← spans_names hash split items p.q, List.map_map] at apart
  rw [parts] at holds positive inside apart ⊢
  have found := child_found holds apart positive
  rw [single, o', place, List.flatMap_cons, List.flatMap_nil, List.append_nil]
  refine ⟨found, ?_⟩
  rw [List.flatMap_append, List.flatMap_cons] at inside
  exact inside.right.left

section

variable {above comps : List Bytes} {spanEnd start stop : Int} {comp : Bytes}

theorem resolve_last (found : findChildSpan pr hash spanEnd comp = .ok (start, stop)) :
    resolveFrom pr hash above spanEnd [comp] = .ok ⟨start, stop, [slash].intercalate above⟩ := by
  rw [resolveFrom, found]
  rfl

theorem resolve_step (found : findChildSpan pr hash spanEnd comp = .ok (start, stop)) (more : comps ≠ []) :
    resolveFrom pr hash above spanEnd (comp :: comps) = resolveFrom pr hash (above ++ [comp]) stop comps := by
  rw [resolveFrom, found]
  exact if_neg more

end

/-- A folder of an archive, whose ENTRY stands at o; these names lead to it. -/
structure Folder (pr : PXARReader) (hash : Bytes → UInt64) (split : Bool) (m : EntryMeta) (items : Items)
    (p : Place) (o : Nat) (above : List Bytes) : Prop where
  holds : Holds pr.ra o (folderRecord hash m (spans hash split items p.q))
  place : p.o = o + 56
  path : p.path = [slash].intercalate above
  proper : ∀ a ∈ above, ProperName a
  apart : ((names items).map hash).Nodup
  sorted : Sorted pr hash split items p.q

section

variable {items node found : Items} {p p' q : Place} {m : EntryMeta} {o : Nat} {above comps rest : List Bytes}

theorem Folder.joined {name : Bytes} (folder : Folder pr hash split m items p o above)
    (proper : ProperName name) :
    joinArchivePath p.path name = [slash].intercalate (above ++ [name]) := by
  rw [folder.path]
  exact join_path (fun a among => (folder.proper a among).1) proper.1

theorem Folder.enter {name : Bytes} {m' : EntryMeta} {inside : Items} {here : Place}
    (folder : Folder pr hash split m items p o above)
    (child : Child hash split items p (.folder name m' inside .nil) here) :
    findChildSpan pr hash ((o + (folderRecord hash m (spans hash split items p.q)).length : Nat) : Int) name =
      .ok (here.o, ((here.o + (17 + name.length) +
        (folderRecord hash m' (spans hash split inside here.q)).length : Nat) : Int)) ∧
    Folder pr hash split m' inside (here.inside name) (here.o + (17 + name.length)) (above ++ [name]) := by
  obtain ⟨found, held⟩ := child.found folder.holds folder.place folder.apart
  obtain ⟨backed, named, readable⟩ := child.sorted folder.sorted
  obtain ⟨-, -, -, -, -, samePath, -⟩ := child.place
  rw [spans, spans, List.flatMap_cons, List.flatMap_nil, List.append_nil] at held found
  change findChildSpan pr hash _ name = _ at found
  dsimp only at held found
  rw [List.length_append, filenameRecord_length, ← Nat.add_assoc] at found
  have behind_ := held.right
  rw [filenameRecord_length] at behind_
  refine ⟨found, behind_, rfl, ?_, ?_, named.2.1.1, backed.inside, named.2.1.2, readable.2.2.1⟩
  · show joinArchivePath here.path name = _
    rw [samePath]
    exact folder.joined named.1
  · exact fun a among => (List.mem_append.mp among).elim (folder.proper a)
      fun last => List.mem_singleton.mp last ▸ named.1

/-- The components that lead to a folder are followed to it. -/
theorem Inside.followed (inside : Inside hash split items p comps found q)
    (folder : Folder pr hash split m items p o above) (more : rest ≠ []) :
    ∃ m' o', resolveFrom pr hash above
        ((o + (folderRecord hash m (spans hash split items p.q)).length : Nat) : Int) (comps ++ rest) =
      resolveFrom pr hash (above ++ comps)
        ((o' + (folderRecord hash m' (spans hash split found q.q)).length : Nat) : Int) rest ∧
      Folder pr hash split m' found q o' (above ++ comps) := by
  induction inside generalizing o m above with
  | here items p =>
      rw [List.append_nil]
      exact ⟨m, o, rfl, folder⟩
  | deeper child inside ih =>
      obtain ⟨lookup, entered⟩ := folder.enter child
      obtain ⟨m', o', resolved, reached⟩ := ih entered
      rw [List.append_assoc] at resolved reached
      refine ⟨m', o', ?_, reached⟩
      rw [List.cons_append, resolve_step lookup (List.append_ne_nil_of_right_ne_nil _ more)]
      exact resolved

end

end

/-! A path and the subtree below it. -/

theorem trimSlashes_fixed {text : Bytes} (front : text.head? ≠ some slash)
    (back : text.getLast? ≠ some slash) :
    trimSlashes text = text := by
  have stays {b : Bytes} (first : b.head? ≠ some slash) : b.dropWhile (· == slash) = b :=
    dropWhile_fixed fun c head same => first (head.trans (congrArg some (beq_iff_eq.mp same)))
  rw [trimSlashes, stays front, stays (by rwa [List.head?_reverse]), List.reverse_reverse]

theorem intercalate_last (front : List Bytes) (a : Bytes) :
    ∃ more, [slash].intercalate (front ++ [a]) = more ++ a := by
  cases front with
  | nil => exact ⟨[], List.intercalate_singleton⟩
  | cons b rest =>
      refine ⟨[slash].intercalate (b :: rest) ++ [slash], ?_⟩
      rw [RestoreSelection.intercalate_append _ _ (List.cons_ne_nil _ _) (List.cons_ne_nil _ _),
        List.intercalate_singleton, List.append_assoc]
      rfl

theorem intercalate_some {comps : List Bytes} (some_ : comps ≠ []) (proper : ∀ c ∈ comps, ProperName c) :
    [slash].intercalate comps ≠ [] := by
  cases comps with
  | nil => exact absurd rfl some_
  | cons a rest =>
      obtain ⟨more, whole⟩ := intercalate_first a rest
      rw [whole]
      exact List.append_ne_nil_of_left_ne_nil (proper a List.mem_cons_self).1 _

theorem trimSlashes_path {comps : List Bytes} (some_ : comps ≠ []) (proper : ∀ c ∈ comps, ProperName c) :
    trimSlashes ([slash].intercalate comps) = [slash].intercalate comps := by
  refine trimSlashes_fixed ?_ ?_
  · obtain ⟨a, rest, rfl⟩ := List.exists_cons_of_ne_nil some_
    obtain ⟨more, whole⟩ := intercalate_first a rest
    obtain ⟨nonempty, plain⟩ := proper a List.mem_cons_self
    obtain ⟨c, cs, rfl⟩ := List.exists_cons_of_ne_nil nonempty
    rw [whole]
    intro wrong
    cases wrong
    exact plain List.mem_cons_self
  · obtain ⟨front, a, rfl⟩ := (List.eq_nil_or_concat comps).resolve_left some_
    rw [List.concat_eq_append] at proper ⊢
    obtain ⟨more, whole⟩ := intercalate_last front a
    obtain ⟨nonempty, plain⟩ := proper a (List.mem_append_right _ List.mem_cons_self)
    rw [whole, List.getLast?_append_of_ne_nil _ nonempty]
    exact fun wrong => plain (List.mem_of_getLast? wrong)

/-- The place of the root's entries. -/
def rootPlace (split : Bool) : Place := ⟨[], rootAt split + 56, 16⟩

section

variable {pr : PXARReader} {hash : Bytes → UInt64} {split : Bool} {m : EntryMeta} {items node found : Items}
  {q p' : Place} {comps rest : List Bytes}

theorem path_followed (opened : Opened pr hash split m items) (named : WellNamed hash items)
    (inside : Inside hash split items (rootPlace split) comps found q) (more : rest ≠ [])
    (proper : Named hash found → ∀ c ∈ rest, ProperName c) :
    ∃ m' o', ResolveArchivePathBST pr hash ([slash].intercalate (comps ++ rest)) = resolveFrom pr hash comps
        ((o' + (folderRecord hash m' (spans hash split found q.q)).length : Nat) : Int) rest ∧
      Folder pr hash split m' found q o' comps := by
  have root : Folder pr hash split m items (rootPlace split) (rootAt split) [] := ⟨opened.folder, rfl, rfl,
    fun a none_ => (by cases none_), named.apart, opened.backed, named.named, named.readable⟩
  obtain ⟨m', o', resolved, reached⟩ := inside.followed root more
  rw [List.nil_append] at resolved reached
  refine ⟨m', o', ?_, reached⟩
  have some_ := List.append_ne_nil_of_right_ne_nil comps more
  have all : ∀ c ∈ comps ++ rest, ProperName c := fun c among =>
    (List.mem_append.mp among).elim (reached.proper c) (proper reached.sorted.named c)
  have size : pr.size =
      ((rootAt split + (folderRecord hash m (spans hash split items 16)).length : Nat) : Int) :=
    congrArg _ opened.size
  rw [ResolveArchivePathBST, trimSlashes_path some_ all, if_neg (intercalate_some some_ all),
    List.splitOn_intercalate slash (fun c among => (all c among).2) some_, size]
  exact resolved

/-- A span that has been resolved is walked to its end, and shows what is in it. -/
theorem span_walk (held : Holds pr.ra p'.o ((spans hash split node p'.q).flatMap Prod.snd))
    (inside : 0 < p'.o)
    (single : behind node = .nil) (backed : Backed pr split node p'.q) (readable : Readable node) :
    Shows (fun cb g => pr.walkRange cb g p'.o
      ((p'.o + ((spans hash split node p'.q).flatMap Prod.snd).length : Nat) : Int) p'.path true)
      (shown pr hash split node p'.path p'.o p'.q) := by
  intro σ E f g
  have reach := held.inside
  obtain ⟨n, w, turns, few, passed⟩ := items_walk (E := E) (f := f)
    (w := PXARReader.start g p'.o p'.path true)
    ((p'.o + ((spans hash split node p'.q).flatMap Prod.snd).length : Nat) : Int)
    (decide (true = true ∧ (0 : Int) < p'.o)) held backed readable rfl rfl (Int.le_refl _)
    (fun _ _ => .inr ⟨rfl, single⟩)
  refine ⟨w, turns.loop (walk_ends _ (Int.le_of_eq passed.offset.symm)) (by omega), passed.gathered⟩

end

/-! A root with a folder in it, in which there is a file. -/

def sampleHash (name : Bytes) : UInt64 := (name.headD 0).toUInt64

def sampleMeta (kind : Nat) : EntryMeta := ⟨kind, 0, 0, 0, 0⟩

def sampleFile : Items := .file [102] (sampleMeta FileContent.IFREG) [1, 2] .nil

def sample : Items := .folder [100] (sampleMeta IFDIR) sampleFile .nil

theorem sample_fits : (metadata sampleHash false (sampleMeta IFDIR) sample).length < 2 ^ 63 := by
  simp only [metadata, Bool.false_eq_true, if_false, List.nil_append, sample, sampleFile, spans]
  rw [folderRecord_length _ _ (by rw [List.length_singleton]; omega), List.flatMap_singleton,
    List.length_append,
    folderRecord_length _ _ (by rw [List.length_singleton]; omega), List.flatMap_singleton]
  simp only [List.length_append, List.length_cons, List.length_nil, filenameRecord_length, entryRecord_length,
    contentRecord, Bool.false_eq_true, if_false, payloadRecord_length, goodbyeLength]
  omega

theorem sample_named : WellNamed sampleHash sample where
  apart := by decide
  named := ⟨by decide, ⟨by decide, by decide, trivial⟩, trivial⟩
  readable := ⟨legible_letter (by decide), by decide, ⟨legible_letter (by decide), by decide, trivial⟩,
    trivial⟩

theorem sample_inside : ∃ q, Inside sampleHash false sample (rootPlace false) [[100]] sampleFile q :=
  ⟨_, .deeper (.first fun none_ => by cases none_) (.here _ _)⟩

end ProxmoxBackup.ArchiveLookup
