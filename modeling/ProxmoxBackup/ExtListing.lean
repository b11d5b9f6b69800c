import ProxmoxBackup.ExtReaderSafe
import ProxmoxBackup.LevelSearch

/-! What the listing of an ext image reads, level by level, and what it lists. It ends without
a panic where the folders it comes to and the inodes they name do. -/
namespace ProxmoxBackup.ExtListing

open GoValues FreeSpaceMap FreeSpaceSafe FileReads ExtReader ExtReaderSafe LevelSearch

section

variable (v : ExtReader.Ext)

/-- The folder of a number names an inode, and the listing takes the name. -/
def Lists (num : Nat) (de : ExtDirent) : Prop :=
  ∃ names, folderNames v num = .ok names ∧ de ∈ names ∧ ¬ leftOut num de

def IsFolder (num : Nat) : Prop := ∃ ino, inode v num = .ok ino ∧ isDir ino = true

def IsFile (num : Nat) : Prop := ∃ ino, inode v num = .ok ino ∧ isReg ino = true

/-- From a folder the listing goes on to one that it names, down to a depth. -/
def Follows (depth num child : Nat) : Prop :=
  depth < 4096 ∧ ∃ de, Lists v num de ∧ de.ino = child ∧ IsFolder v child

/-- The folders that the root leads to. -/
def Visits (num : Nat) : Prop := ∃ depth, Reaches (Follows v) extRootInode depth num

def ListsFile (num file : Nat) : Prop := ∃ de, Lists v num de ∧ de.ino = file ∧ IsFile v file

def EntrySafe (num : Nat) : Prop :=
  inode v num ≠ .panicked ∧
    ∀ ino, inode v num = .ok ino → isSymlink ino = true → readLink v ino ≠ .panicked

def FolderSafe (num : Nat) : Prop :=
  folderNames v num ≠ .panicked ∧ ∀ de, Lists v num de → EntrySafe v de.ino

end

def IsFileEntry (e : Entry) : Prop := e.isDir = false ∧ e.symlink = false

variable {v : ExtReader.Ext}

theorem follows_narrows : Narrows (Follows v) :=
  fun _ _ _ _ earlier follows => ⟨Nat.lt_of_le_of_lt earlier follows.1, follows.2⟩

theorem reaches_depth {k num : Nat} (reached : Reaches (Follows v) extRootInode k num) :
    k ≤ 4096 := by
  cases reached with
  | root => exact Nat.zero_le _
  | next _ edge => exact edge.1

theorem kinds (ino : ExtInode) :
    (isDir ino = true → isSymlink ino = false) ∧
      (isReg ino = true → isDir ino = false ∧ isSymlink ino = false) := by
  unfold isDir isReg isSymlink
  generalize ino.mode &&& 0xF000 = kind
  refine ⟨fun dir => ?_, fun file => ?_⟩
  · rw [of_decide_eq_true dir]
    rfl
  · rw [of_decide_eq_true file]
    exact ⟨rfl, rfl⟩

/-! A folder. -/

/-- What the names of a folder add: a folder for each that is one, and is near enough, and a
file for each that is one. -/
structure Adds (v : ExtReader.Ext) (d : Dir) (shown : ExtDirent → Prop) (res : Result) : Prop where
  folders : ∀ sd ∈ res.subdirs, sd.depth = d.depth + 1 ∧ d.depth < 4096 ∧
    ∃ de, shown de ∧ de.ino = sd.ino ∧ IsFolder v sd.ino
  allFolders : d.depth < 4096 → ∀ de, shown de → IsFolder v de.ino →
    ∃ sd ∈ res.subdirs, sd.ino = de.ino
  files : ∀ e ∈ res.entries, IsFileEntry e →
    ∃ de, shown de ∧ de.ino = e.record ∧ IsFile v e.record
  allFiles : ∀ de, shown de → IsFile v de.ino →
    ∃ e ∈ res.entries, IsFileEntry e ∧ e.record = de.ino

/-- Names of neither kind add neither. -/
theorem Adds.neither {d : Dir} {shown : ExtDirent → Prop} {entries : List Entry}
    (plain : ∀ de, shown de → ¬ IsFolder v de.ino ∧ ¬ IsFile v de.ino)
    (others : ∀ e ∈ entries, ¬ IsFileEntry e) : Adds v d shown ⟨entries, []⟩ where
  folders := fun _ none_ => by cases none_
  allFolders := fun _ de here folder => absurd folder (plain de here).1
  files := fun e among file => absurd file (others e among)
  allFiles := fun de here file => absurd file (plain de here).2

theorem Adds.both {d : Dir} {shown shown' : ExtDirent → Prop} {res res' : Result}
    (first : Adds v d shown res) (second : Adds v d shown' res') :
    Adds v d (fun de => shown de ∨ shown' de)
      ⟨res.entries ++ res'.entries, res.subdirs ++ res'.subdirs⟩ where
  folders sd among := by
    rcases List.mem_append.mp among with here | here
    · obtain ⟨depth, near, de, is, rest⟩ := first.folders sd here
      exact ⟨depth, near, de, .inl is, rest⟩
    · obtain ⟨depth, near, de, is, rest⟩ := second.folders sd here
      exact ⟨depth, near, de, .inr is, rest⟩
  allFolders near de either folder := by
    rcases either with is | is
    · obtain ⟨sd, here, same⟩ := first.allFolders near de is folder
      exact ⟨sd, List.mem_append_left _ here, same⟩
    · obtain ⟨sd, here, same⟩ := second.allFolders near de is folder
      exact ⟨sd, List.mem_append_right _ here, same⟩
  files e among file := by
    rcases List.mem_append.mp among with here | here
    · obtain ⟨de, is, rest⟩ := first.files e here file
      exact ⟨de, .inl is, rest⟩
    · obtain ⟨de, is, rest⟩ := second.files e here file
      exact ⟨de, .inr is, rest⟩
  allFiles de either file := by
    rcases either with is | is
    · obtain ⟨e, here, same⟩ := first.allFiles de is file
      exact ⟨e, List.mem_append_left _ here, same⟩
    · obtain ⟨e, here, same⟩ := second.allFiles de is file
      exact ⟨e, List.mem_append_right _ here, same⟩

theorem IsFolder.iff {num : Nat} {ino : ExtInode} (found : inode v num = .ok ino) :
    IsFolder v num ↔ isDir ino = true := by
  constructor
  · rintro ⟨other, again, dir⟩
    rw [found] at again
    cases again
    exact dir
  · exact fun dir => ⟨ino, found, dir⟩

theorem IsFile.iff {num : Nat} {ino : ExtInode} (found : inode v num = .ok ino) :
    IsFile v num ↔ isReg ino = true := by
  constructor
  · rintro ⟨other, again, file⟩
    rw [found] at again
    cases again
    exact file
  · exact fun file => ⟨ino, found, file⟩

section

variable {d : Dir} {de : ExtDirent} {child : ExtInode} (found : inode v de.ino = .ok child)

include found

theorem entrySafe_found (link : isSymlink child = true → readLink v child ≠ .panicked) :
    EntrySafe v de.ino := by
  constructor
  · rw [found]
    simp
  · intro ino again
    rw [found] at again
    cases again
    exact link

theorem adds_folder (dir : isDir child = true) (shown : ¬ leftOut d.ino de) :
    Adds v d (fun other => other = de ∧ ¬ leftOut d.ino other)
      ⟨[entryOf d de.name child], if d.depth < 4096 then
        [{ path := joined d de.name, ino := child.num, depth := d.depth + 1 }] else []⟩ where
  folders sd among := by
    dsimp only at among
    split at among
    · next near =>
        rw [List.mem_singleton.mp among, inode_num found]
        exact ⟨rfl, near, de, ⟨rfl, shown⟩, rfl, child, found, dir⟩
    · cases among
  allFolders near other is folder := by
    rw [if_pos near]
    refine ⟨_, List.mem_singleton_self _, ?_⟩
    rw [is.1]
    exact inode_num found
  files e among file := by
    rw [List.mem_singleton.mp among] at file
    exact absurd (dir.symm.trans file.1) (by decide)
  allFiles := by
    rintro other ⟨rfl, _⟩ file
    rw [((kinds child).2 ((IsFile.iff found).mp file)).1] at dir
    cases dir

theorem adds_file (file : isReg child = true) (shown : ¬ leftOut d.ino de) :
    Adds v d (fun other => other = de ∧ ¬ leftOut d.ino other) ⟨[entryOf d de.name child], []⟩ where
  folders := fun _ none_ => by cases none_
  allFolders := by
    rintro _ other ⟨rfl, _⟩ folder
    have dir := (IsFolder.iff found).mp folder
    rw [((kinds child).2 file).1] at dir
    cases dir
  files e among _ := by
    rw [List.mem_singleton.mp among]
    have same : (entryOf d de.name child).record = de.ino := inode_num found
    rw [same]
    exact ⟨de, ⟨rfl, shown⟩, rfl, child, found, file⟩
  allFiles := by
    rintro other ⟨rfl, _⟩ _
    exact ⟨_, List.mem_singleton_self _, (kinds child).2 file, inode_num found⟩

end

/-- What reading one name comes to. -/
theorem readName_spec (v : ExtReader.Ext) (d : Dir) (de : ExtDirent) :
    (readName v d de = .panicked ∧ ¬ leftOut d.ino de ∧ ¬ EntrySafe v de.ino) ∨
      ∃ one, readName v d de = .ok one ∧ (¬ leftOut d.ino de → EntrySafe v de.ino) ∧
        Adds v d (fun other => other = de ∧ ¬ leftOut d.ino other) one := by
  unfold readName
  by_cases hidden : leftOut d.ino de
  · rw [if_pos hidden]
    refine .inr ⟨_, rfl, fun shown => absurd hidden shown,
      Adds.neither ?_ fun _ none_ => by cases none_⟩
    rintro other ⟨rfl, shown⟩
    exact absurd hidden shown
  · rw [if_neg hidden]
    cases found : inode v de.ino with
    | panicked => exact .inl ⟨rfl, hidden, fun safe => safe.1 found⟩
    | error err =>
        have missing : ∀ ino, inode v de.ino ≠ .ok ino := by
          intro ino is
          rw [found] at is
          cases is
        refine .inr ⟨_, rfl, fun _ => ⟨?_, fun ino is => absurd is (missing ino)⟩,
          Adds.neither ?_ fun _ none_ => by cases none_⟩
        · rw [found]
          simp
        · rintro other ⟨rfl, shown⟩
          exact ⟨fun folder => missing _ folder.choose_spec.1,
            fun file => missing _ file.choose_spec.1⟩
    | ok child =>
        dsimp only
        by_cases dir : isDir child = true
        · rw [if_pos dir]
          have safe : EntrySafe v de.ino := entrySafe_found found fun link => by
            rw [(kinds child).1 dir] at link
            cases link
          exact .inr ⟨_, rfl, fun _ => safe, adds_folder found dir hidden⟩
        · rw [if_neg dir]
          by_cases file : isReg child = true
          · rw [if_pos file]
            have safe : EntrySafe v de.ino := entrySafe_found found fun link => by
              rw [((kinds child).2 file).2] at link
              cases link
            exact .inr ⟨_, rfl, fun _ => safe, adds_file found file hidden⟩
          · rw [if_neg file]
            have plain : ∀ other, other = de ∧ ¬ leftOut d.ino other →
                ¬ IsFolder v other.ino ∧ ¬ IsFile v other.ino := by
              rintro other ⟨rfl, _⟩
              rw [IsFolder.iff found, IsFile.iff found]
              exact ⟨dir, file⟩
            by_cases link : isSymlink child = true
            · rw [if_pos link]
              have listed (target : Option Buffer) :
                  ∀ e ∈ [{ entryOf d de.name child with target }], ¬ IsFileEntry e := by
                intro e among file
                rw [List.mem_singleton.mp among] at file
                exact absurd (link.symm.trans file.2) (by decide)
              unfold linkTarget
              cases read : readLink v child with
              | panicked => exact .inl ⟨rfl, hidden, fun safe => safe.2 child found link read⟩
              | error err =>
                  have safe : EntrySafe v de.ino := entrySafe_found found fun _ => by
                    rw [read]
                    simp
                  exact .inr ⟨_, rfl, fun _ => safe, Adds.neither plain (listed none)⟩
              | ok t =>
                  have safe : EntrySafe v de.ino := entrySafe_found found fun _ => by
                    rw [read]
                    simp
                  exact .inr ⟨_, rfl, fun _ => safe, Adds.neither plain (listed (some t))⟩
            · rw [if_neg link]
              exact .inr ⟨_, rfl, fun _ => entrySafe_found found fun wrong => absurd wrong link,
                Adds.neither plain fun _ none_ => by cases none_⟩

/-- What reading the names comes to. By induction on them. -/
theorem readNames_spec (d : Dir) (names : List ExtDirent) {shown : ExtDirent → Prop} (res : Result)
    (before : Adds v d shown res) :
    (readNames v d names res = .panicked ∧
        ∃ de ∈ names, ¬ leftOut d.ino de ∧ ¬ EntrySafe v de.ino) ∨
      ∃ res', readNames v d names res = .ok res' ∧
        (∀ de ∈ names, ¬ leftOut d.ino de → EntrySafe v de.ino) ∧
        Adds v d (fun de => shown de ∨ (de ∈ names ∧ ¬ leftOut d.ino de)) res' := by
  induction names generalizing shown res with
  | nil =>
      refine .inr ⟨res, rfl, fun _ none_ => (by cases none_), ?_⟩
      simpa using before
  | cons de rest ih =>
      rw [readNames]
      rcases readName_spec v d de with ⟨panics, here⟩ | ⟨one, read, safe, adds⟩
      · rw [panics]
        exact .inl ⟨rfl, de, List.mem_cons_self .., here⟩
      · rw [read, Outcome.ok_bind]
        rcases ih _ (before.both adds) with
          ⟨panics, other, behind, here⟩ | ⟨res', read', safe', adds'⟩
        · exact .inl ⟨panics, other, List.mem_cons_of_mem _ behind, here⟩
        · refine .inr ⟨res', read', ?_, ?_⟩
          · intro other among shown_
            rcases List.mem_cons.mp among with rfl | behind
            · exact safe shown_
            · exact safe' other behind shown_
          · have same :
                (fun other => shown other ∨ (other ∈ de :: rest ∧ ¬ leftOut d.ino other)) =
                  fun other => (shown other ∨ (other = de ∧ ¬ leftOut d.ino other)) ∨
                    (other ∈ rest ∧ ¬ leftOut d.ino other) := by
              funext other
              rw [List.mem_cons, or_and_right, or_assoc]
            rw [same]
            exact adds'

/-- What reading a folder comes to. -/
theorem readDir_spec (v : ExtReader.Ext) (d : Dir) :
    (readDir v d = .panicked ∧ ¬ FolderSafe v d.ino) ∨
      (∃ err, readDir v d = .error err ∧ FolderSafe v d.ino ∧ ∀ de, ¬ Lists v d.ino de) ∨
      ∃ res, readDir v d = .ok res ∧ FolderSafe v d.ino ∧ Adds v d (Lists v d.ino) res := by
  unfold readDir
  cases names_ : folderNames v d.ino with
  | panicked => exact .inl ⟨rfl, fun safe => safe.1 names_⟩
  | error err =>
      have none_ : ∀ de, ¬ Lists v d.ino de := by
        rintro de ⟨names, read, _⟩
        rw [names_] at read
        cases read
      refine .inr (.inl ⟨err, rfl, ⟨?_, fun de lists => absurd lists (none_ de)⟩, none_⟩)
      rw [names_]
      simp
  | ok names =>
      rw [Outcome.ok_bind]
      have lists : ∀ de, Lists v d.ino de ↔ de ∈ names ∧ ¬ leftOut d.ino de := by
        intro de
        constructor
        · rintro ⟨_, read, here⟩
          rw [names_] at read
          cases read
          exact here
        · exact fun here => ⟨names, names_, here⟩
      have empty : Adds v d (fun _ => False) ⟨[], []⟩ := Adds.neither (fun _ wrong => wrong.elim)
        fun _ none_ => by cases none_
      rcases readNames_spec d names ⟨[], []⟩ empty with
        ⟨panics, de, among, shown, torn⟩ | ⟨res, read, safe, adds⟩
      · exact .inl ⟨panics, fun safe => torn (safe.2 de ((lists de).mpr ⟨among, shown⟩))⟩
      · refine .inr (.inr ⟨res, read, ⟨?_, fun de here => ?_⟩, ?_⟩)
        · rw [names_]
          simp
        · exact safe de ((lists de).mp here).1 ((lists de).mp here).2
        · rw [show Lists v d.ino = fun de => False ∨ (de ∈ names ∧ ¬ leftOut d.ino de) by
            funext de
            rw [lists, false_or]]
          exact adds

/-! A level. -/

def resultOf (v : ExtReader.Ext) (d : Dir) : Option Result :=
  match readDir v d with
  | .ok res => some res
  | _ => none

theorem readLevel_spec (v : ExtReader.Ext) (dirs : List Dir) :
    (readLevel v dirs = .panicked ∧ ∃ d ∈ dirs, ¬ FolderSafe v d.ino) ∨
      (readLevel v dirs = .ok (dirs.map fun d => (d, resultOf v d)) ∧
        ∀ d ∈ dirs, FolderSafe v d.ino) := by
  induction dirs with
  | nil => exact .inr ⟨rfl, fun _ none_ => (by cases none_)⟩
  | cons d rest ih =>
      rw [readLevel]
      rcases readDir_spec v d with
        ⟨panics, torn⟩ | ⟨err, failed, safe, _⟩ | ⟨res, read, safe, _⟩
      · rw [panics]
        exact .inl ⟨rfl, d, List.mem_cons_self .., torn⟩
      · rw [failed]
        rcases ih with ⟨panics, other, behind, torn⟩ | ⟨read', safe'⟩
        · rw [panics]
          exact .inl ⟨rfl, other, List.mem_cons_of_mem _ behind, torn⟩
        · rw [read']
          refine .inr ⟨?_, List.forall_mem_cons.mpr ⟨safe, safe'⟩⟩
          rw [List.map_cons, resultOf, failed]
          rfl
      · rw [read]
        rcases ih with ⟨panics, other, behind, torn⟩ | ⟨read', safe'⟩
        · rw [panics]
          exact .inl ⟨rfl, other, List.mem_cons_of_mem _ behind, torn⟩
        · rw [read']
          refine .inr ⟨?_, List.forall_mem_cons.mpr ⟨safe, safe'⟩⟩
          rw [List.map_cons, resultOf, read]
          rfl

/-- The subfolders `subdirs` are met after `s`, and those that were not met before follow. -/
structure Followed (subdirs : Dir → Prop) (s s' : Listing) : Prop where
  seen : ∀ n, n ∈ s'.seenDir ↔ n ∈ s.seenDir ∨ ∃ sd, subdirs sd ∧ sd.ino = n
  following : ∀ sd ∈ s'.following, sd ∈ s.following ∨ subdirs sd
  kept : ∀ sd ∈ s.following, sd ∈ s'.following
  held : ∀ n ∈ s'.seenDir, n ∈ s.seenDir ∨ ∃ sd ∈ s'.following, sd.ino = n

theorem Followed.trans {first second : Dir → Prop} {s t u : Listing} (one : Followed first s t)
    (two : Followed second t u) : Followed (fun sd => first sd ∨ second sd) s u where
  seen n := by
    rw [two.seen, one.seen, or_assoc]
    refine or_congr_right ?_
    constructor
    · rintro (⟨sd, is, same⟩ | ⟨sd, is, same⟩)
      · exact ⟨sd, .inl is, same⟩
      · exact ⟨sd, .inr is, same⟩
    · rintro ⟨sd, is | is, same⟩
      · exact .inl ⟨sd, is, same⟩
      · exact .inr ⟨sd, is, same⟩
  following sd among := by
    rcases two.following sd among with here | here
    · rcases one.following sd here with before | is
      · exact .inl before
      · exact .inr (.inl is)
    · exact .inr (.inr here)
  kept sd among := two.kept sd (one.kept sd among)
  held n among := by
    rcases two.held n among with here | here
    · rcases one.held n here with before | ⟨sd, is, same⟩
      · exact .inl before
      · exact .inr ⟨sd, two.kept sd is, same⟩
    · exact .inr here

/-- Where nothing is met, and what else is kept does not matter. -/
theorem Followed.same {none_ : Dir → Prop} {s s' : Listing} (seen : s'.seenDir = s.seenDir)
    (following : s'.following = s.following) (empty : ∀ sd, none_ sd → sd.ino ∈ s.seenDir) :
    Followed none_ s s' where
  seen n := by
    rw [seen]
    exact ⟨.inl, fun either => either.elim id fun ⟨sd, is, same⟩ => same ▸ empty sd is⟩
  following _ among := .inl (following ▸ among)
  kept _ among := following ▸ among
  held _ among := .inl (seen ▸ among)

theorem follow_followed (subdirs : List Dir) (s : Listing) :
    Followed (· ∈ subdirs) s (follow subdirs s) := by
  induction subdirs generalizing s with
  | nil => exact Followed.same rfl rfl fun _ none_ => (by cases none_)
  | cons sd rest ih =>
      have split_ : (· ∈ sd :: rest) = fun other => other = sd ∨ other ∈ rest := by
        funext other
        exact propext List.mem_cons
      rw [split_, follow]
      split
      · next met => exact Followed.trans (Followed.same rfl rfl fun other is => is ▸ met) (ih s)
      · next fresh =>
          refine Followed.trans ?_ (ih _)
          constructor
          · simp [or_comm, eq_comm]
          · intro other among
            simpa using among
          · exact fun other among => List.mem_append_left _ among
          · intro num among
            rcases List.mem_cons.mp among with rfl | before
            · exact .inr ⟨sd, List.mem_append_right _ (List.mem_singleton_self _), rfl⟩
            · exact .inl before

theorem follow_out (subdirs : List Dir) (s : Listing) : (follow subdirs s).out = s.out := by
  induction subdirs generalizing s with
  | nil => rfl
  | cons sd rest ih =>
      rw [follow]
      split <;> rw [ih]

def SubdirOf (results : List (Dir × Option Result)) (sd : Dir) : Prop :=
  ∃ d res, (d, some res) ∈ results ∧ sd ∈ res.subdirs

def EntryOf (results : List (Dir × Option Result)) (e : Entry) : Prop :=
  ∃ d res, (d, some res) ∈ results ∧ e ∈ res.entries

/-- What a level's results come to: only the root's have to be there. -/
theorem gather_spec (results : List (Dir × Option Result)) (s : Listing) :
    (∃ err, gather results s = .error err ∧ ∃ d, (d, none) ∈ results ∧ d.ino = extRootInode) ∨
      ∃ s', gather results s = .ok s' ∧ Followed (SubdirOf results) s s' ∧
        ∀ e, e ∈ s'.out ↔ e ∈ s.out ∨ EntryOf results e := by
  induction results generalizing s with
  | nil =>
      have empty : ∀ sd, ¬ SubdirOf [] sd := fun sd ⟨_, _, none_, _⟩ => (by cases none_)
      refine .inr ⟨s, rfl, Followed.same rfl rfl fun sd is => absurd is (empty sd),
        fun e => ⟨.inl, ?_⟩⟩
      exact fun either => either.elim id fun ⟨_, _, none_, _⟩ => (by cases none_)
  | cons first rest ih =>
      obtain ⟨d, res⟩ := first
      cases res with
      | none =>
          have subdirs : SubdirOf ((d, none) :: rest) = SubdirOf rest := by
            funext sd
            simp [SubdirOf]
          have entries : EntryOf ((d, none) :: rest) = EntryOf rest := by
            funext e
            simp [EntryOf]
          rw [gather, subdirs, entries]
          split
          · next root => exact .inl ⟨_, rfl, d, List.mem_cons_self .., root⟩
          · rcases ih { s with skipped := s.skipped + 1 } with
              ⟨err, failed, other, among, root⟩ | ⟨s', read, followed, out⟩
            · exact .inl ⟨err, failed, other, List.mem_cons_of_mem _ among, root⟩
            · refine .inr ⟨s', read, ?_, out⟩
              exact ⟨followed.seen, followed.following, followed.kept, followed.held⟩
      | some res =>
          have subdirs : SubdirOf ((d, some res) :: rest) =
              fun sd => sd ∈ res.subdirs ∨ SubdirOf rest sd := by
            funext sd
            simp only [SubdirOf, List.mem_cons, Prod.mk.injEq, Option.some.injEq, or_and_right,
              exists_or, and_assoc, exists_eq_left, exists_and_left]
          have entries : ∀ e, EntryOf ((d, some res) :: rest) e ↔
              e ∈ res.entries ∨ EntryOf rest e := by
            intro e
            simp only [EntryOf, List.mem_cons, Prod.mk.injEq, Option.some.injEq, or_and_right,
              exists_or, and_assoc, exists_eq_left, exists_and_left]
          rw [gather, subdirs]
          rcases ih (follow res.subdirs { s with out := s.out ++ res.entries }) with
            ⟨err, failed, other, among, root⟩ | ⟨s', read, followed, out⟩
          · exact .inl ⟨err, failed, other, List.mem_cons_of_mem _ among, root⟩
          · have here := follow_followed res.subdirs { s with out := s.out ++ res.entries }
            have both := here.trans followed
            refine .inr ⟨s', read, ⟨both.seen, both.following, both.kept, both.held⟩, fun e => ?_⟩
            rw [out, follow_out, entries, List.mem_append, or_assoc]

/-! The levels. -/

/-- Before level `k` is read: what was met is in the level or has been read, its files listed. -/
structure Swept (v : ExtReader.Ext) (k : Nat) (level : List Dir) (s : Listing) : Prop where
  before : Before (Follows v) extRootInode k (fun n => ∃ d ∈ level, d.ino = n) (· ∈ s.seenDir)
  depth : ∀ d ∈ level, d.depth = k
  read : ∀ n ∈ s.seenDir, (∃ d ∈ level, d.ino = n) ∨
    (FolderSafe v n ∧ ∀ file, ListsFile v n file → ∃ e ∈ s.out, IsFileEntry e ∧ e.record = file)
  listed : ∀ e ∈ s.out, IsFileEntry e → ∃ n, Visits v n ∧ ListsFile v n e.record

/-- A listing of all that the root leads to. -/
structure Complete (v : ExtReader.Ext) (s : Listing) : Prop where
  read : ∀ n, Visits v n →
    FolderSafe v n ∧ ∀ file, ListsFile v n file → ∃ e ∈ s.out, IsFileEntry e ∧ e.record = file
  listed : ∀ e ∈ s.out, IsFileEntry e → ∃ n, Visits v n ∧ ListsFile v n e.record

theorem Swept.complete {k : Nat} {s : Listing} (swept : Swept v k [] s) : Complete v s where
  read n visits := by
    have empty : ∀ n, ¬ ∃ d ∈ ([] : List Dir), d.ino = n := fun n ⟨d, none_, _⟩ => (by cases none_)
    obtain ⟨j, reached⟩ := visits
    rcases swept.read n (swept.before.complete follows_narrows empty reached) with here | read
    · exact absurd here (empty n)
    · exact read
  listed := swept.listed

/-- The results of a level that was read without a panic. -/
theorem resultOf_adds {d : Dir} {res : Result} (read : resultOf v d = some res) :
    Adds v d (Lists v d.ino) res := by
  unfold resultOf at read
  rcases readDir_spec v d with ⟨panics, _⟩ | ⟨err, failed, _⟩ | ⟨res', same, _, adds⟩
  · rw [panics] at read
    cases read
  · rw [failed] at read
    cases read
  · rw [same] at read
    cases read
    exact adds

theorem resultOf_none {d : Dir} (safe : FolderSafe v d.ino) (failed : resultOf v d = none) :
    ∀ de, ¬ Lists v d.ino de := by
  unfold resultOf at failed
  rcases readDir_spec v d with ⟨_, torn⟩ | ⟨err, _, _, none_⟩ | ⟨res, same, _⟩
  · exact absurd safe torn
  · exact none_
  · rw [same] at failed
    cases failed

theorem subdirOf_results {level : List Dir} {sd : Dir} :
    SubdirOf (level.map fun d => (d, resultOf v d)) sd ↔
      ∃ d ∈ level, ∃ res, resultOf v d = some res ∧ sd ∈ res.subdirs := by
  unfold SubdirOf
  constructor
  · rintro ⟨d, res, among, here⟩
    obtain ⟨other, listed, same⟩ := List.mem_map.mp among
    obtain ⟨rfl, read⟩ := Prod.mk.inj same
    exact ⟨other, listed, res, read, here⟩
  · rintro ⟨d, listed, res, read, here⟩
    exact ⟨d, res, List.mem_map.mpr ⟨d, listed, by rw [read]⟩, here⟩

theorem entryOf_results {level : List Dir} {e : Entry} :
    EntryOf (level.map fun d => (d, resultOf v d)) e ↔
      ∃ d ∈ level, ∃ res, resultOf v d = some res ∧ e ∈ res.entries := by
  unfold EntryOf
  constructor
  · rintro ⟨d, res, among, here⟩
    obtain ⟨other, listed, same⟩ := List.mem_map.mp among
    obtain ⟨rfl, read⟩ := Prod.mk.inj same
    exact ⟨other, listed, res, read, here⟩
  · rintro ⟨d, listed, res, read, here⟩
    exact ⟨d, res, List.mem_map.mpr ⟨d, listed, by rw [read]⟩, here⟩

theorem exists_result {d : Dir} (safe : FolderSafe v d.ino) {de : ExtDirent}
    (lists : Lists v d.ino de) : ∃ res, resultOf v d = some res ∧ Adds v d (Lists v d.ino) res := by
  cases read : resultOf v d with
  | none => exact absurd lists (resultOf_none safe read de)
  | some res => exact ⟨res, rfl, resultOf_adds read⟩

/-- The subfolders of a level's results are what its folders lead to. -/
theorem subdirs_follow {k : Nat} {level : List Dir} (depth : ∀ d ∈ level, d.depth = k)
    (safe : ∀ d ∈ level, FolderSafe v d.ino) (num : Nat) :
    (∃ sd, SubdirOf (level.map fun d => (d, resultOf v d)) sd ∧ sd.ino = num) ↔
      ∃ source, (∃ d ∈ level, d.ino = source) ∧ Follows v k source num := by
  constructor
  · rintro ⟨sd, is, rfl⟩
    obtain ⟨d, listed, res, read, here⟩ := subdirOf_results.mp is
    obtain ⟨_, near, de, lists, same, folder⟩ := (resultOf_adds read).folders sd here
    exact ⟨d.ino, ⟨d, listed, rfl⟩, depth d listed ▸ near, de, lists, same, folder⟩
  · rintro ⟨_, ⟨d, listed, rfl⟩, near, de, lists, rfl, folder⟩
    obtain ⟨res, read, adds⟩ := exists_result (safe d listed) lists
    obtain ⟨sd, here, same⟩ := adds.allFolders (by rw [depth d listed]; exact near) de lists folder
    exact ⟨sd, subdirOf_results.mpr ⟨d, listed, res, read, here⟩, same⟩

theorem Swept.step {k : Nat} {level : List Dir} {s s' : Listing} (swept : Swept v k level s)
    (safe : ∀ d ∈ level, FolderSafe v d.ino)
    (followed : Followed (SubdirOf (level.map fun d => (d, resultOf v d))) { s with following := [] } s')
    (out : ∀ e, e ∈ s'.out ↔ e ∈ s.out ∨ EntryOf (level.map fun d => (d, resultOf v d)) e) :
    Swept v (k + 1) s'.following s' := by
  have follow_ := subdirs_follow swept.depth safe
  have fresh : ∀ sd ∈ s'.following, SubdirOf (level.map fun d => (d, resultOf v d)) sd := by
    intro sd among
    rcases followed.following sd among with none_ | is
    · cases none_
    · exact is
  constructor
  · apply swept.before.step follows_narrows
    · intro num
      rw [followed.seen, follow_]
    · rintro num ⟨sd, among, same⟩
      exact (follow_ num).mp ⟨sd, fresh sd among, same⟩
    · exact followed.held
  · intro sd among
    obtain ⟨d, listed, res, read, here⟩ := subdirOf_results.mp (fresh sd among)
    rw [((resultOf_adds read).folders sd here).1, swept.depth d listed]
  · intro num met
    rcases followed.held num met with old | new
    · refine .inr ?_
      rcases swept.read num old with ⟨d, listed, rfl⟩ | ⟨safe_, all⟩
      · refine ⟨safe d listed, ?_⟩
        rintro _ ⟨de, lists, rfl, file⟩
        obtain ⟨res, read, adds⟩ := exists_result (safe d listed) lists
        obtain ⟨e, here, is⟩ := adds.allFiles de lists file
        exact ⟨e, (out e).mpr (.inr (entryOf_results.mpr ⟨d, listed, res, read, here⟩)), is⟩
      · refine ⟨safe_, fun file lists => ?_⟩
        obtain ⟨e, here, is⟩ := all file lists
        exact ⟨e, (out e).mpr (.inl here), is⟩
    · exact .inl new
  · intro e among file
    rcases (out e).mp among with old | new
    · exact swept.listed e old file
    · obtain ⟨d, listed, res, read, here⟩ := entryOf_results.mp new
      exact ⟨d.ino, ⟨k, swept.before.reached _ ⟨d, listed, rfl⟩⟩, (resultOf_adds read).files e here file⟩

/-- What the levels come to. By induction on those that may come. -/
theorem listLevels_spec (turns : Nat) {k : Nat} (all : turns + k = 4098) (few : k ≤ 4097)
    {level : List Dir} {s : Listing} (swept : Swept v k level s) :
    (listLevels v turns level s = .panicked ∧ ∃ n, Visits v n ∧ ¬ FolderSafe v n) ∨
      (∃ err, listLevels v turns level s = .error err ∧ FolderSafe v extRootInode ∧
        ∀ de, ¬ Lists v extRootInode de) ∨
      ∃ s', listLevels v turns level s = .ok s' ∧ Complete v s' := by
  induction turns generalizing k level s with
  | zero => omega
  | succ turns ih =>
      rw [listLevels]
      split
      · next empty =>
          rw [empty] at swept
          exact .inr (.inr ⟨s, rfl, swept.complete⟩)
      · next some_ =>
          obtain ⟨d, rest, rfl⟩ := List.exists_cons_of_ne_nil some_
          have shallow := reaches_depth (swept.before.reached _ ⟨d, List.mem_cons_self .., rfl⟩)
          rcases readLevel_spec v (d :: rest) with ⟨panics, other, listed, torn⟩ | ⟨read, safe⟩
          · rw [panics]
            exact .inl ⟨rfl, other.ino, ⟨k, swept.before.reached _ ⟨other, listed, rfl⟩⟩, torn⟩
          · rw [read, Outcome.ok_bind]
            rcases gather_spec ((d :: rest).map fun d => (d, resultOf v d)) { s with following := [] } with
              ⟨err, failed, other, among, root⟩ | ⟨s', gathered, followed, out⟩
            · obtain ⟨source, listed, same⟩ := List.mem_map.mp among
              obtain ⟨rfl, failed_⟩ := Prod.mk.inj same
              rw [failed]
              rw [← root]
              exact .inr (.inl ⟨err, rfl, safe _ listed, resultOf_none (safe _ listed) failed_⟩)
            · rw [gathered, Outcome.ok_bind]
              exact ih (by omega) (by omega) (swept.step safe followed out)

theorem list_spec (v : ExtReader.Ext) :
    (list v = .panicked ∧ ∃ n, Visits v n ∧ ¬ FolderSafe v n) ∨
      (∃ err, list v = .error err ∧ FolderSafe v extRootInode ∧ ∀ de, ¬ Lists v extRootInode de) ∨
      ∃ s, list v = .ok s ∧ Complete v s := by
  apply listLevels_spec 4098 (k := 0) rfl (by omega)
  constructor
  · have start := @Before.start Nat (Follows v) extRootInode
    convert start using 2 <;> simp [eq_comm]
  · intro d among
    rw [List.mem_singleton.mp among]
  · intro n among
    rw [List.mem_singleton.mp among]
    exact .inl ⟨_, List.mem_singleton_self _, rfl⟩
  · exact fun e none_ => by cases none_

/-! When the volume can be read. -/

/-- No buffer of a folder's size is made, nor of an entry's. -/
def UnreadFolder (v : ExtReader.Ext) (ino : ExtInode) : Prop := ¬ isInline ino ∧ ¬ Mapped v ino

def UnreadEntry (v : ExtReader.Ext) (ino : ExtInode) : Prop :=
  (isReg ino = true → ¬ isInline ino) ∧
    (isSymlink ino = true → ino.extentTree = true ∧ ¬ isInline ino ∧ ¬ Mapped v ino)

/-- The inodes that the listing comes to are whole, and no size that is read is below zero. -/
structure Sound (v : ExtReader.Ext) : Prop where
  folders : ∀ num, Visits v num → InodeWhole v num ∧
    ∀ ino, inode v num = .ok ino → 0 ≤ ino.size ∨ UnreadFolder v ino
  entries : ∀ num, Visits v num → ∀ de, Lists v num de → InodeWhole v de.ino ∧
    ∀ ino, inode v de.ino = .ok ino → 0 ≤ ino.size ∨ UnreadEntry v ino

theorem folderNames_panics (opened : Opened v) (num : Nat) :
    folderNames v num ≠ .panicked ↔ InodeWhole v num ∧
      ∀ ino, inode v num = .ok ino → 0 ≤ ino.size ∨ UnreadFolder v ino := by
  have safe_ (ino : ExtInode) : content v ino ≠ .panicked ↔ 0 ≤ ino.size ∨ UnreadFolder v ino := by
    rw [ne_eq, content_panics, UnreadFolder, not_and_or, not_or, Int.not_lt]
  rw [← inode_panics opened]
  constructor
  · intro safe
    refine ⟨fun panics => safe ?_, fun ino found => (safe_ ino).mp fun panics => safe ?_⟩
    · rw [folderNames, panics]
      rfl
    · rw [folderNames, found, Outcome.ok_bind, panics]
      rfl
  · rintro ⟨whole, read⟩ panics
    rcases bind_panics.mp panics with first | ⟨ino, found, later⟩
    · exact whole first
    · rcases bind_panics.mp later with second | ⟨data, _, last⟩
      · exact (safe_ ino).mpr (read ino found) second
      · dsimp only at last
        generalize (if has ino.flags extFlagInlineData = true then 4 else 0) = start at last
        split at last
        · cases last
        · next start =>
            rw [slice_ok ⟨Nat.le_of_not_lt start, Nat.le_refl _⟩, Outcome.ok_bind] at last
            exact (parseDir_meets _ 0 (Nat.succ_pos _) (by omega) []).not_panicked last

theorem entrySafe_iff (opened : Opened v) (num : Nat) :
    (EntrySafe v num ∧ ∀ ino, inode v num = .ok ino → isReg ino = true → openInode v ino ≠ .panicked) ↔
      InodeWhole v num ∧ ∀ ino, inode v num = .ok ino → 0 ≤ ino.size ∨ UnreadEntry v ino := by
  unfold EntrySafe
  rw [inode_panics opened, and_assoc, ← forall_and]
  refine and_congr_right fun _ => forall_congr' fun ino => ?_
  rw [← imp_and]
  refine imp_congr_right fun _ => ?_
  rw [ne_eq, ne_eq, readLink_panics, openInode_panics, UnreadEntry]
  by_cases negative : ino.size < 0
  · have below : ¬ 0 ≤ ino.size := by omega
    simp only [negative, below, and_true, true_and, false_or]
    cases ino.extentTree <;> tauto
  · have above : 0 ≤ ino.size := by omega
    simp [negative, above]

/-- The listing and the files it lists are read without a panic. -/
def ListedRead (v : ExtReader.Ext) : Prop :=
  list v ≠ .panicked ∧ ∀ s, list v = .ok s → ∀ e ∈ s.out, e.isDir = false → e.symlink = false →
    openEntry v e ≠ .panicked

theorem Sound.folderSafe (opened : Opened v) (sound : Sound v) {num : Nat} (visits : Visits v num) :
    FolderSafe v num :=
  ⟨(folderNames_panics opened num).mpr (sound.folders num visits), fun de lists =>
    ((entrySafe_iff opened de.ino).mpr (sound.entries num visits de lists)).1⟩

theorem visits_alone (empty : ∀ de, ¬ Lists v extRootInode de) {num : Nat} (visits : Visits v num) :
    num = extRootInode := by
  obtain ⟨depth, reached⟩ := visits
  induction reached with
  | root => rfl
  | next _ edge ih =>
      obtain ⟨_, de, lists, _⟩ := edge
      rw [ih] at lists
      exact absurd lists (empty de)

theorem Complete.sound (opened : Opened v) {s : Listing} (complete : Complete v s)
    (read : ∀ e ∈ s.out, e.isDir = false → e.symlink = false → openEntry v e ≠ .panicked) : Sound v where
  folders num visits := (folderNames_panics opened num).mp (complete.read num visits).1.1
  entries num visits de lists := by
    obtain ⟨safe, all⟩ := complete.read num visits
    refine (entrySafe_iff opened de.ino).mp ⟨safe.2 de lists, fun ino found file => ?_⟩
    obtain ⟨e, listed, is, same⟩ := all de.ino ⟨de, lists, rfl, ino, found, file⟩
    have opens := read e listed is.1 is.2
    rw [openEntry, same, found] at opens
    exact opens

theorem listedRead_iff (opened : Opened v) : ListedRead v ↔ Sound v := by
  constructor
  · rintro ⟨safe, read⟩
    rcases list_spec v with ⟨panics, _⟩ | ⟨err, _, root, empty⟩ | ⟨s, listed, complete⟩
    · exact absurd panics safe
    · constructor
      · intro num visits
        rw [visits_alone empty visits]
        exact (folderNames_panics opened _).mp root.1
      · intro num visits de lists
        rw [visits_alone empty visits] at lists
        exact absurd lists (empty de)
    · exact complete.sound opened (read s listed)
  · intro sound
    rcases list_spec v with ⟨_, num, visits, torn⟩ | ⟨err, failed, _⟩ | ⟨s, listed, complete⟩
    · exact absurd (sound.folderSafe opened visits) torn
    · unfold ListedRead
      rw [failed]
      exact ⟨by simp, fun s is => by cases is⟩
    · unfold ListedRead
      rw [listed]
      refine ⟨by simp, ?_⟩
      rintro _ ⟨⟩ e among notDir notLink
      obtain ⟨num, visits, de, lists, same, ino, found, file⟩ := complete.listed e among ⟨notDir, notLink⟩
      have whole := (entrySafe_iff opened de.ino).mpr (sound.entries num visits de lists)
      rw [openEntry, found]
      rw [same] at whole
      exact whole.2 ino found file

/-- For every image: opening an ext volume does not panic; listing it, and opening the files
listed, ends without a panic if and only if the inodes that the listing comes to are whole and
no size that is read is below zero; and every read of a file that was opened ends. -/
theorem ext_image_read (image : Volume) : openExt image ≠ .panicked ∧
    ∀ v, openExt image = .ok v → (ListedRead v ↔ Sound v) ∧
      ∀ e f, openEntry v e = .ok f → Steady f := by
  refine ⟨(openExt_meets image).not_panicked, fun v opens => ⟨?_, fun e f read => ?_⟩⟩
  · exact listedRead_iff ((openExt_meets image).of_ok opens)
  · obtain ⟨ino, _, opened⟩ := Outcome.bind_ok read
    exact opened_steady opened

/-- 5120 bytes: the superblock of one group of 8 blocks and two inodes of `inodeSize` bytes,
its descriptor, the inodes from 3072 on, a file and the root, and the root's block, which names
the file. -/
def smallImage (inodeSize : UInt8) (i : Nat) : UInt8 :=
  -- The blocks, the first one, those of a group, the inodes of a group.
  if i = 1028 then 8
  else if i = 1044 then 1
  else if i = 1056 then 8
  else if i = 1064 then 2
  else if i = 1080 then 0x53
  else if i = 1081 then 0xEF
  else if i = 1100 then 1
  else if i = 1112 then inodeSize
  -- The inode table is block 3.
  else if i = 2056 then 3
  else if i = 3073 then 0x80
  else if i = 3201 then 0x40
  else if i = 3205 then 4
  else if i = 3240 then 4
  -- Inode 1, 12 bytes, a name of one letter.
  else if i = 4096 then 1
  else if i = 4100 then 12
  else if i = 4102 then 1
  else if i = 4104 then 97
  else 0

def smallVolume (inodeSize : UInt8) : Volume where
  image := ⟨5120, smallImage inodeSize⟩
  fits := by norm_num
  section_ := true
  sectioned := rfl

/-- With inodes of 129 bytes the extra size is read past the inode's end. -/
theorem torn_inode_panics : ∃ v, openExt (smallVolume 129) = .ok v ∧ list v = .panicked ∧
    ¬ ListedRead v := by
  have panics : isPanic (openExt (smallVolume 129) >>= list) = true := by decide +kernel
  cases opens : openExt (smallVolume 129) with
  | ok v =>
      rw [opens, Outcome.ok_bind] at panics
      cases listed : list v with
      | panicked => exact ⟨v, rfl, listed, fun read => read.1 listed⟩
      | ok s =>
          rw [listed] at panics
          cases panics
      | error err =>
          rw [listed] at panics
          cases panics
  | error err =>
      rw [opens] at panics
      cases panics
  | panicked => exact absurd opens (openExt_meets (smallVolume 129)).not_panicked

/-- The listing has one entry, and it can be opened. -/
def listsOne (v : ExtReader.Ext) : Read Listing → Bool
  | .ok s => s.out.length = 1 && s.out.all fun e => !isPanic (openEntry v e)
  | _ => false

def opensOne : Read ExtReader.Ext → Bool
  | .ok v => listsOne v (list v)
  | _ => false

theorem listsOne_read {v : ExtReader.Ext} (one : listsOne v (list v) = true) : ListedRead v := by
  cases listed : list v with
  | ok s =>
      unfold ListedRead
      rw [listed] at one ⊢
      rw [listsOne, Bool.and_eq_true, List.all_eq_true] at one
      refine ⟨by simp, ?_⟩
      rintro _ ⟨⟩ e among _ _ panics
      have safe := one.2 e among
      rw [panics] at safe
      cases safe
  | error err =>
      rw [listed] at one
      cases one
  | panicked =>
      rw [listed] at one
      cases one

theorem small_read : ∃ v, openExt (smallVolume 128) = .ok v ∧ listsOne v (list v) = true ∧
    Sound v := by
  have one : opensOne (openExt (smallVolume 128)) = true := by decide +kernel
  cases opens : openExt (smallVolume 128) with
  | ok v =>
      rw [opens] at one
      exact ⟨v, rfl, one, ((ext_image_read (smallVolume 128)).2 v opens).1.mp (listsOne_read one)⟩
  | error err =>
      rw [opens] at one
      cases one
  | panicked =>
      rw [opens] at one
      cases one

end ProxmoxBackup.ExtListing
