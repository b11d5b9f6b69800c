import ProxmoxBackup.FirstFit
import ProxmoxBackup.GoValues
import Mathlib.Data.List.Nodup
import Mathlib.Data.Nat.Digits.Lemmas
import Mathlib.Tactic.IntervalCases

/-! The plan of a split backup (gui/backup_analysis.go): large folders alone, the others packed
first-fit, and a further job for the files of each root. -/
namespace ProxmoxBackup.SplitPlan

open GoValues FirstFit

abbrev Bytes := List UInt8

def ascii (s : String) : Bytes := s.toList.map fun c => c.toNat.toUInt8

/-- The host's name, and filepath.Clean, filepath.Dir, strings.ToLower and sha256.Sum256. -/
structure Host where
  hostname : Bytes
  clean : Bytes → Bytes
  dir : Bytes → Bytes
  lower : Bytes → Bytes
  sum256 : Bytes → Bytes

structure FolderInfo where
  Path : Bytes
  Name : Bytes
  Size : Nat
  AccessDenied : Bool
  BackupID : Bytes
  deriving DecidableEq

structure BackupAnalysis where
  TotalSize : Nat
  Folders : List FolderInfo
  ShouldSplit : Bool
  RootsWithFiles : List Bytes

structure SplitJob where
  Index : Nat
  TotalJobs : Nat
  Folders : List Bytes
  TotalSize : Nat
  BackupID : Bytes
  ParentID : Bytes
  ExcludeList : List Bytes
  deriving DecidableEq

def BinTargetSize : Nat := 150 * 1024 * 1024 * 1024

/-- strings.Trim(s, "_") -/
def trimUnderscores (s : Bytes) : Bytes :=
  ((s.dropWhile (· = 95)).reverse.dropWhile (· = 95)).reverse

/-- What the replacements and the loop make of a byte of the cleaned path. -/
def idByte (c : UInt8) : List UInt8 :=
  if c = 92 ∨ c = 47 then [95]
  else if c = 32 then [45]
  else if (65 ≤ c ∧ c ≤ 90) ∨ (97 ≤ c ∧ c ≤ 122) ∨ (48 ≤ c ∧ c ≤ 57) ∨ c = 95 ∨ c = 46 ∨ c = 45 then [c]
  else []

def decimal (n : Nat) : Bytes :=
  if n = 0 then [48] else ((Nat.digits 10 n).map fun d => (48 + d).toUInt8).reverse

def hexDigit (n : Nat) : UInt8 := if n < 10 then (48 + n).toUInt8 else (87 + n).toUInt8

def hexEncode (b : Bytes) : Bytes := b.flatMap fun c => [hexDigit (c.toNat / 16), hexDigit (c.toNat % 16)]

/-- strings.Join(names, "\\n") -/
def joinLines : List Bytes → Bytes
  | [] => []
  | [name] => name
  | name :: rest => name ++ 10 :: joinLines rest

section

variable (h : Host)

def GenerateBackupID (path : Bytes) : Bytes :=
  let cleanPath := trimUnderscores ((h.clean path).flatMap idByte)
  if cleanPath = [] then h.hostname else h.hostname ++ 95 :: cleanPath

def generateBinID (parentPath : Bytes) (folders : List FolderInfo) (binIndex : Nat) : Bytes :=
  let names := (folders.map (·.Name)).mergeSort fun a b => decide (¬ b < a)
  let shortHash := hexEncode ((h.sum256 (joinLines names)).take 4)
  GenerateBackupID h parentPath ++ ascii "_bin" ++ decimal binIndex ++ 95 :: shortHash

def cleanKey (p : Bytes) : Bytes := h.lower (h.clean p)

/-- A bin and how much of it is used. -/
structure Bin where
  folders : List FolderInfo
  used : Nat

def placeFolder (targetSize : Nat) (folder : FolderInfo) : List Bin → List Bin
  | [] => [⟨[folder], folder.Size⟩]
  | bin :: rest =>
      if uint64 (bin.used + folder.Size) ≤ targetSize then
        ⟨bin.folders ++ [folder], uint64 (bin.used + folder.Size)⟩ :: rest
      else bin :: placeFolder targetSize folder rest

def binPackFolders (folders : List FolderInfo) (targetSize : Nat) : List (List FolderInfo) :=
  (folders.foldl (fun bins folder => placeFolder targetSize folder bins) []).map (·.folders)

def binSizeOf (binSize : Nat) : Nat := if binSize = 0 then BinTargetSize else binSize

def soloFolder (binSize : Nat) (folder : FolderInfo) : Bool :=
  decide (folder.Size > binSize) || folder.AccessDenied

def soloFolders (a : BackupAnalysis) (binSize : Nat) : List FolderInfo :=
  a.Folders.filter (soloFolder binSize)

def packable (a : BackupAnalysis) (binSize : Nat) : List FolderInfo :=
  a.Folders.filter fun folder => !soloFolder binSize folder

def soloID (folder : FolderInfo) : Bytes :=
  if folder.BackupID = [] then GenerateBackupID h folder.Path else folder.BackupID

def soloJob (baseBackupID : Bytes) (folder : FolderInfo) : SplitJob where
  Index := 0
  TotalJobs := 0
  Folders := [folder.Path]
  TotalSize := folder.Size
  BackupID := soloID h folder
  ParentID := baseBackupID
  ExcludeList := []

def parentPath (a : BackupAnalysis) : Bytes :=
  match a.Folders with
  | [] => []
  | first :: _ => h.dir first.Path

def binJob (a : BackupAnalysis) (baseBackupID : Bytes) (i : Nat) (bin : List FolderInfo) :
    SplitJob where
  Index := 0
  TotalJobs := 0
  Folders := bin.map (·.Path)
  TotalSize := uint64 (load FolderInfo.Size bin)
  BackupID := generateBinID h (parentPath h a) bin (i + 1)
  ParentID := baseBackupID
  ExcludeList := []

def rootID (root : Bytes) : Bytes := GenerateBackupID h root ++ ascii "_rootfiles"

/-- The folders that a root's job leaves out. -/
def subExcludes (a : BackupAnalysis) (root : Bytes) : List Bytes :=
  (a.Folders.filter fun f => decide (cleanKey h (h.dir f.Path) = cleanKey h root)).map (·.Path)

def rootJob (a : BackupAnalysis) (baseBackupID root : Bytes) : SplitJob where
  Index := 0
  TotalJobs := 0
  Folders := [root]
  TotalSize := 0
  BackupID := rootID h root
  ParentID := baseBackupID
  ExcludeList := subExcludes h a root

def wholeJob (a : BackupAnalysis) (baseBackupID : Bytes) : SplitJob where
  Index := 1
  TotalJobs := 1
  Folders := a.Folders.map (·.Path)
  TotalSize := a.TotalSize
  BackupID := baseBackupID
  ParentID := baseBackupID
  ExcludeList := []

def folderJobs (a : BackupAnalysis) (baseBackupID : Bytes) (binSize : Nat) : List SplitJob :=
  (soloFolders a binSize).map (soloJob h baseBackupID) ++
    (binPackFolders (packable a binSize) binSize).mapIdx (binJob h a baseBackupID)

def numbered (jobs : List SplitJob) : List SplitJob :=
  jobs.mapIdx fun i job => { job with Index := i + 1, TotalJobs := jobs.length }

def CreateSplitJobs (a : BackupAnalysis) (baseBackupID : Bytes) (binSize : Nat) : List SplitJob :=
  let binSize := binSizeOf binSize
  if ¬ a.ShouldSplit then [wholeJob a baseBackupID]
  else if soloFolders a binSize = [] ∧ packable a binSize = [] then [wholeJob a baseBackupID]
  else numbered (folderJobs h a baseBackupID binSize ++
    a.RootsWithFiles.map (rootJob h a baseBackupID))

/-! What a plan should do. -/

/-- The folder is one of the root's own. -/
def Under (root : Bytes) (f : FolderInfo) : Prop := h.clean (h.dir f.Path) = h.clean root

instance (root : Bytes) (f : FolderInfo) : Decidable (Under h root f) :=
  inferInstanceAs (Decidable (_ = _))

/-- The sizes of the folders of a job. -/
def totalOf (a : BackupAnalysis) (paths : List Bytes) : Nat :=
  load FolderInfo.Size (a.Folders.filter fun f => paths.contains f.Path)

structure Covers (a : BackupAnalysis) (binSize : Nat) (jobs : List SplitJob) : Prop where
  split : ∃ own further, jobs = own ++ further ∧
    (∀ f ∈ a.Folders, (own.filter fun j => j.Folders.contains f.Path).length = 1) ∧
    further.map (fun j => (j.Folders, j.ExcludeList)) = a.RootsWithFiles.map fun root =>
      ([root], (a.Folders.filter fun f => decide (Under h root f)).map (·.Path))
  bins : ∀ j ∈ jobs, 1 < j.Folders.length → totalOf a j.Folders ≤ binSizeOf binSize
  ids : jobs.Pairwise fun a b => a.BackupID ≠ b.BackupID

/-- No folder's parent differs from a root in its case only. -/
def RootsApart (a : BackupAnalysis) : Prop :=
  ∀ root ∈ a.RootsWithFiles, ∀ f ∈ a.Folders,
    cleanKey h (h.dir f.Path) = cleanKey h root → Under h root f

/-- The names of single folders differ from each other and from those of bins and roots, and
those of roots differ from each other. -/
structure IDsApart (a : BackupAnalysis) (binSize : Nat) : Prop where
  solo : ((soloFolders a binSize).map (soloID h)).Nodup
  roots : (a.RootsWithFiles.map (GenerateBackupID h)).Nodup
  bins : ∀ f ∈ soloFolders a binSize, ∀ i bin,
    (binPackFolders (packable a binSize) binSize)[i]? = some bin →
      soloID h f ≠ generateBinID h (parentPath h a) bin (i + 1)
  soloRoots : ∀ f ∈ soloFolders a binSize, ∀ root ∈ a.RootsWithFiles, soloID h f ≠ rootID h root

end

variable {h : Host} {a : BackupAnalysis}

/-! Packing, without a sum that wraps. -/

/-- The bins count what they hold. -/
def Exact (bins : List Bin) : Prop := ∀ bin ∈ bins, bin.used = load FolderInfo.Size bin.folders

theorem placeFolder_eq {targetSize : Nat} {folder : FolderInfo} {bins : List Bin}
    (exact_ : Exact bins)
    (fits : load FolderInfo.Size (bins.map (·.folders)).flatten + folder.Size < 2 ^ 64) :
    Exact (placeFolder targetSize folder bins) ∧
      (placeFolder targetSize folder bins).map (·.folders) =
        place FolderInfo.Size targetSize folder (bins.map (·.folders)) := by
  induction bins with
  | nil =>
      refine ⟨fun bin listed => ?_, rfl⟩
      obtain rfl := List.mem_singleton.mp listed
      rfl
  | cons bin rest ih =>
      rw [List.map_cons, List.flatten_cons, load_append] at fits
      have used := exact_ bin List.mem_cons_self
      have sum : uint64 (bin.used + folder.Size) = load FolderInfo.Size bin.folders + folder.Size := by
        rw [used]
        exact uint64_same _ (by omega)
      rw [placeFolder, List.map_cons, place, sum]
      split
      · refine ⟨fun other listed => ?_, rfl⟩
        obtain rfl | later := List.mem_cons.mp listed
        · rw [load_append]
          rfl
        · exact exact_ other (List.mem_cons_of_mem _ later)
      · obtain ⟨later, same⟩ :=
          ih (fun other listed => exact_ other (List.mem_cons_of_mem _ listed)) (by omega)
        refine ⟨fun other listed => ?_, by rw [List.map_cons, same]⟩
        obtain rfl | listed := List.mem_cons.mp listed
        · exact used
        · exact later other listed

theorem binPack_eq (targetSize : Nat) (folders : List FolderInfo)
    (fits : load FolderInfo.Size folders < 2 ^ 64) :
    binPackFolders folders targetSize = firstFit FolderInfo.Size targetSize folders := by
  have every (folders : List FolderInfo) (bins : List Bin) (exact_ : Exact bins)
      (fits : load FolderInfo.Size ((bins.map (·.folders)).flatten ++ folders) < 2 ^ 64) :
      (folders.foldl (fun bins folder => placeFolder targetSize folder bins) bins).map (·.folders) =
        packInto FolderInfo.Size targetSize (bins.map (·.folders)) folders := by
    induction folders generalizing bins with
    | nil => rfl
    | cons folder rest ih =>
        have room := fits
        rw [load_append, load] at room
        have small : load FolderInfo.Size (bins.map (·.folders)).flatten + folder.Size < 2 ^ 64 := by
          omega
        obtain ⟨placed, same⟩ := @placeFolder_eq targetSize folder bins exact_ small
        rw [List.foldl_cons, ih _ placed, same]
        · rfl
        · rw [same]
          have moved := (@place_perm _ FolderInfo.Size targetSize folder
            (bins.map (·.folders))).append_right rest
          rw [List.append_assoc, List.singleton_append] at moved
          rwa [load_perm moved]
  exact every folders [] (fun _ listed => absurd listed List.not_mem_nil) fits

/-! Each folder in one job. -/

theorem one_list {p : Bytes} {lists : List (List Bytes)} (distinct : lists.flatten.Nodup)
    (listed : p ∈ lists.flatten) : (lists.filter fun l => l.contains p).length = 1 := by
  induction lists with
  | nil => cases listed
  | cons l rest ih =>
      rw [List.flatten_cons] at distinct listed
      obtain ⟨-, later, apart⟩ := List.nodup_append.mp distinct
      by_cases here : p ∈ l
      · have nowhere : rest.filter (fun l => l.contains p) = [] := by
          apply List.filter_eq_nil_iff.mpr
          intro other member inside
          have there := List.mem_flatten.mpr ⟨other, member, List.contains_iff_mem.mp inside⟩
          exact apart p here p there rfl
        rw [List.filter_cons_of_pos (by simpa using here), nowhere]
        rfl
      · rw [List.filter_cons_of_neg (by simpa using here)]
        exact ih later ((List.mem_append.mp listed).resolve_left here)

theorem map_mapIdx_const {α β γ : Type} {f : Nat → α → β} {g : β → γ} {k : α → γ}
    (same : ∀ i x, g (f i x) = k x) (items : List α) : (items.mapIdx f).map g = items.map k := by
  apply List.ext_getElem
  · simp
  · intro i _ _
    simp [same]

/-- Numbering changes nothing else. -/
theorem numbered_map {γ : Type} {g : SplitJob → γ}
    (same : ∀ (job : SplitJob) i n, g { job with Index := i, TotalJobs := n } = g job)
    (jobs : List SplitJob) : (numbered jobs).map g = jobs.map g :=
  map_mapIdx_const (fun i job => same job (i + 1) jobs.length) jobs

theorem folderJobs_folders (base : Bytes) (binSize : Nat) :
    (folderJobs h a base binSize).map (·.Folders) =
      (soloFolders a binSize).map (fun f => [f.Path]) ++
        (binPackFolders (packable a binSize) binSize).map fun bin => bin.map (·.Path) := by
  have bins := map_mapIdx_const (f := binJob h a base) (g := fun j => j.Folders)
    (k := fun bin => bin.map (·.Path)) (fun _ _ => rfl) (binPackFolders (packable a binSize) binSize)
  rw [folderJobs, List.map_append, List.map_map, bins]
  rfl

theorem parts_perm (a : BackupAnalysis) (binSize : Nat) :
    (soloFolders a binSize ++ packable a binSize).Perm a.Folders :=
  List.filter_append_perm (soloFolder binSize) a.Folders

theorem packable_fits (binSize : Nat) (fits : load FolderInfo.Size a.Folders < 2 ^ 64) :
    load FolderInfo.Size (packable a binSize) < 2 ^ 64 := by
  have total := @load_perm _ FolderInfo.Size _ _ (parts_perm a binSize)
  rw [load_append] at total
  omega

theorem folderJobs_perm (base : Bytes) (binSize : Nat)
    (fits : load FolderInfo.Size a.Folders < 2 ^ 64) :
    ((folderJobs h a base binSize).map (·.Folders)).flatten.Perm (a.Folders.map (·.Path)) := by
  have solo (folders : List FolderInfo) :
      (folders.map fun f => [f.Path]).flatten = folders.map (·.Path) := by
    induction folders with
    | nil => rfl
    | cons f rest ih => rw [List.map_cons, List.flatten_cons, ih, List.map_cons, List.singleton_append]
  rw [folderJobs_folders, List.flatten_append, solo, ← List.map_flatten,
    binPack_eq _ _ (packable_fits binSize fits), ← List.map_append]
  exact (((firstFit_perm _).append_left _).trans (parts_perm a binSize)).map _

/-! The totals. -/

theorem totalOf_bin (paths : (a.Folders.map (·.Path)).Nodup) {binSize : Nat}
    (fits : load FolderInfo.Size a.Folders < 2 ^ 64) {bin : List FolderInfo}
    (listed : bin ∈ binPackFolders (packable a binSize) binSize) (several : 1 < bin.length) :
    totalOf a (bin.map (·.Path)) ≤ binSize := by
  rw [binPack_eq _ _ (packable_fits binSize fits)] at listed
  have inside (f : FolderInfo) (member : f ∈ bin) : f ∈ a.Folders := by
    have packed := (@firstFit_perm _ FolderInfo.Size binSize _).mem_iff.mp
      (List.mem_flatten.mpr ⟨bin, listed, member⟩)
    exact (List.mem_filter.mp packed).1
  have distinct : bin.Nodup := by
    have all : (packable a binSize).Nodup := paths.of_map.filter _
    have flat := (@firstFit_perm _ FolderInfo.Size binSize _).nodup_iff.mpr all
    exact (List.sublist_flatten_of_mem listed).nodup flat
  have same : (a.Folders.filter fun f => (bin.map (·.Path)).contains f.Path).Perm bin := by
    apply (List.perm_ext_iff_of_nodup (paths.of_map.filter _) distinct).mpr
    intro f
    rw [List.mem_filter, List.contains_iff_mem, List.mem_map]
    constructor
    · rintro ⟨member, g, inBin, path⟩
      exact List.inj_on_of_nodup_map paths (inside g inBin) member path ▸ inBin
    · exact fun inBin => ⟨inside f inBin, f, inBin, rfl⟩
  rw [totalOf, load_perm same]
  exact firstFit_packed _ bin listed several

/-! The names. -/

theorem digit_read {d : Nat} (small : d < 10) :
    ((48 + d).toUInt8).toNat - 48 = d ∧ (48 + d).toUInt8 ≠ 95 := by
  interval_cases d <;> decide

theorem decimal_inj {m n : Nat} (same : decimal (m + 1) = decimal (n + 1)) : m = n := by
  have read (k : Nat) : ((decimal (k + 1)).reverse.map fun c => c.toNat - 48) =
      Nat.digits 10 (k + 1) := by
    rw [decimal, if_neg (Nat.succ_ne_zero k), List.reverse_reverse, List.map_map]
    refine (List.map_congr_left fun d listed => ?_).trans (List.map_id _)
    exact (digit_read (Nat.digits_lt_base (by decide) listed)).1
  have digits : Nat.digits 10 (m + 1) = Nat.digits 10 (n + 1) := by
    rw [← read m, same, read]
  exact Nat.succ.inj (Nat.digits_inj_iff.mp digits)

theorem decimal_plain (n : Nat) : 95 ∉ decimal (n + 1) := by
  rw [decimal, if_neg (Nat.succ_ne_zero n), List.mem_reverse, List.mem_map]
  rintro ⟨d, listed, same⟩
  exact (digit_read (Nat.digits_lt_base (by decide) listed)).2 same

theorem hexDigit_plain {n : Nat} (small : n < 16) : hexDigit n ≠ 115 := by
  interval_cases n <;> decide

theorem hexEncode_plain (b : Bytes) : 115 ∉ hexEncode b := by
  rw [hexEncode, List.mem_flatMap]
  rintro ⟨c, -, listed⟩
  have small := c.toNat_lt
  simp only [List.mem_cons, List.not_mem_nil, or_false] at listed
  obtain same | same := listed
  · exact hexDigit_plain (by omega) same.symm
  · exact hexDigit_plain (by omega) same.symm

theorem takeWhile_plain {first rest : Bytes} (plain : 95 ∉ first) :
    (first ++ 95 :: rest).takeWhile (· ≠ 95) = first := by
  induction first with
  | nil => rfl
  | cons c tail ih =>
      obtain ⟨other, later⟩ := List.ne_and_not_mem_of_not_mem_cons plain
      rw [List.cons_append, List.takeWhile_cons_of_pos (by simpa using other.symm), ih later]

/-- The names of two bins differ in their number. -/
theorem binID_inj {parent : Bytes} {first second : List FolderInfo} {i j : Nat}
    (same : generateBinID h parent first (i + 1) = generateBinID h parent second (j + 1)) : i = j := by
  rw [generateBinID, generateBinID, List.append_assoc, List.append_assoc (_ ++ _)] at same
  have rest := List.append_cancel_left same
  have numbers := congrArg (List.takeWhile (· ≠ 95)) rest
  rw [takeWhile_plain (decimal_plain i), takeWhile_plain (decimal_plain j)] at numbers
  exact decimal_inj numbers

theorem hash_end (b rest : Bytes) : ((hexEncode b).reverse ++ [95] ++ rest).head? ≠ some 115 := by
  match last : (hexEncode b).reverse with
  | [] => exact nofun
  | c :: tail =>
      intro ends
      have listed : 115 ∈ (hexEncode b).reverse := by
        rw [last, show c = 115 from Option.some.inj ends]
        exact List.mem_cons_self
      exact hexEncode_plain b (List.mem_reverse.mp listed)

/-- A bin's name ends in a hash, a root's does not. -/
theorem binID_ne_rootID (parent root : Bytes) (bin : List FolderInfo) (i : Nat) :
    generateBinID h parent bin i ≠ rootID h root := by
  intro same
  have ends := congrArg List.head? (congrArg List.reverse same)
  have rootEnd : (GenerateBackupID h root ++ ascii "_rootfiles").reverse.head? = some 115 := by
    rw [List.reverse_append]
    rfl
  rw [generateBinID, rootID, rootEnd, List.reverse_append, List.reverse_cons] at ends
  exact hash_end _ _ ends

theorem jobIDs (base : Bytes) (binSize : Nat) :
    (folderJobs h a base binSize ++ a.RootsWithFiles.map (rootJob h a base)).map (·.BackupID) =
      (soloFolders a binSize).map (soloID h) ++
        ((binPackFolders (packable a binSize) binSize).mapIdx fun i bin =>
          generateBinID h (parentPath h a) bin (i + 1)) ++ a.RootsWithFiles.map (rootID h) := by
  have bins : ((binPackFolders (packable a binSize) binSize).mapIdx (binJob h a base)).map
      (·.BackupID) = (binPackFolders (packable a binSize) binSize).mapIdx fun i bin =>
        generateBinID h (parentPath h a) bin (i + 1) := by
    apply List.ext_getElem
    · simp
    · intro i _ _
      simp [binJob]
  rw [folderJobs, List.map_append, List.map_append, List.map_map, List.map_map, bins]
  rfl

theorem idsApart_iff (base : Bytes) (binSize : Nat) :
    ((folderJobs h a base binSize ++ a.RootsWithFiles.map (rootJob h a base)).map
      (·.BackupID)).Nodup ↔ IDsApart h a binSize := by
  have member (id : Bytes) : id ∈ ((binPackFolders (packable a binSize) binSize).mapIdx fun i bin =>
      generateBinID h (parentPath h a) bin (i + 1)) ↔
        ∃ i bin, (binPackFolders (packable a binSize) binSize)[i]? = some bin ∧
          generateBinID h (parentPath h a) bin (i + 1) = id := by
    rw [List.mem_iff_getElem?]
    simp only [List.getElem?_mapIdx, Option.map_eq_some_iff]
  have binsOnce : ((binPackFolders (packable a binSize) binSize).mapIdx fun i bin =>
      generateBinID h (parentPath h a) bin (i + 1)).Nodup := by
    apply List.nodup_iff_injective_getElem.mpr
    rintro ⟨i, inI⟩ ⟨j, inJ⟩ same
    simp only [List.getElem_mapIdx] at same
    exact Fin.ext (binID_inj same)
  have roots : (a.RootsWithFiles.map (rootID h)).Nodup ↔
      (a.RootsWithFiles.map (GenerateBackupID h)).Nodup := by
    have whole : a.RootsWithFiles.map (rootID h) =
        (a.RootsWithFiles.map (GenerateBackupID h)).map (· ++ ascii "_rootfiles") := by
      rw [List.map_map]
      rfl
    rw [whole]
    exact List.nodup_map_iff fun _ _ => List.append_cancel_right
  rw [jobIDs, List.nodup_append, List.nodup_append, roots]
  constructor
  · rintro ⟨⟨solo, -, bins⟩, distinct, further⟩
    refine ⟨solo, distinct, ?_, ?_⟩
    · intro f listed i bin found
      exact bins _ (List.mem_map_of_mem listed) _ ((member _).mpr ⟨i, bin, found, rfl⟩)
    · intro f listed root inRoots
      exact further _ (List.mem_append_left _ (List.mem_map_of_mem listed)) _
        (List.mem_map_of_mem inRoots)
  · rintro ⟨solo, distinct, bins, soloRoots⟩
    refine ⟨⟨solo, binsOnce, ?_⟩, distinct, ?_⟩
    · intro id listed other found
      obtain ⟨f, inSolo, rfl⟩ := List.mem_map.mp listed
      obtain ⟨i, bin, here, rfl⟩ := (member _).mp found
      exact bins f inSolo i bin here
    · intro id listed other found
      obtain ⟨root, inRoots, rfl⟩ := List.mem_map.mp found
      obtain single | packed := List.mem_append.mp listed
      · obtain ⟨f, inSolo, rfl⟩ := List.mem_map.mp single
        exact soloRoots f inSolo root inRoots
      · obtain ⟨i, bin, -, rfl⟩ := (member _).mp packed
        exact binID_ne_rootID _ root bin (i + 1)

/-! The plan. -/

theorem filter_map_length {p : Bytes} (jobs : List SplitJob) :
    (jobs.filter fun j => j.Folders.contains p).length =
      ((jobs.map (·.Folders)).filter fun l => l.contains p).length := by
  rw [List.filter_map, List.length_map]
  rfl

theorem createSplitJobs_eq (should : a.ShouldSplit = true) (some_ : a.Folders ≠ []) (base : Bytes)
    (binSize : Nat) : CreateSplitJobs h a base binSize =
      numbered (folderJobs h a base (binSizeOf binSize) ++
        a.RootsWithFiles.map (rootJob h a base)) := by
  have work : ¬ (soloFolders a (binSizeOf binSize) = [] ∧ packable a (binSizeOf binSize) = []) := by
    rintro ⟨solo, rest⟩
    have parts := parts_perm a (binSizeOf binSize)
    rw [solo, rest] at parts
    exact some_ parts.symm.eq_nil
  simp only [CreateSplitJobs, should, not_true, if_false, if_neg work]

/-- The folders a root's job leaves out are its own exactly when no other differs in case. -/
theorem excludes_iff : (∀ root ∈ a.RootsWithFiles, subExcludes h a root =
      (a.Folders.filter fun f => decide (Under h root f)).map (·.Path)) ↔ RootsApart h a := by
  constructor
  · intro same root inRoots f listed key
    have out : f.Path ∈ subExcludes h a root :=
      List.mem_map_of_mem (List.mem_filter.mpr ⟨listed, decide_eq_true key⟩)
    rw [same root inRoots] at out
    obtain ⟨g, kept, path⟩ := List.mem_map.mp out
    have under := of_decide_eq_true (List.mem_filter.mp kept).2
    rw [Under, path] at under
    exact under
  · intro apart root inRoots
    rw [subExcludes]
    refine congrArg _ (List.filter_congr fun f listed => ?_)
    apply decide_eq_decide.mpr
    exact ⟨apart root inRoots f listed, fun under => congrArg h.lower under⟩

theorem covers_of {base : Bytes} {binSize : Nat} (should : a.ShouldSplit = true)
    (some_ : a.Folders ≠ []) (paths : (a.Folders.map (·.Path)).Nodup)
    (fits : load FolderInfo.Size a.Folders < 2 ^ 64) (roots : RootsApart h a)
    (ids : IDsApart h a (binSizeOf binSize)) :
    Covers h a binSize (CreateSplitJobs h a base binSize) := by
  have folders := folderJobs_perm (h := h) (a := a) base (binSizeOf binSize) fits
  rw [createSplitJobs_eq should some_]
  have kept {γ : Type} {g : SplitJob → γ}
      (same : ∀ (job : SplitJob) i n, g { job with Index := i, TotalJobs := n } = g job) :=
    numbered_map same (folderJobs h a base (binSizeOf binSize) ++
      a.RootsWithFiles.map (rootJob h a base))
  constructor
  case split =>
    refine ⟨(numbered _).take (folderJobs h a base (binSizeOf binSize)).length,
      (numbered _).drop (folderJobs h a base (binSizeOf binSize)).length,
      (List.take_append_drop _ _).symm, ?_, ?_⟩
    · intro f listed
      rw [filter_map_length, List.map_take, kept fun _ _ _ => rfl, List.map_append,
        List.take_left' (List.length_map _)]
      apply one_list (folders.nodup_iff.mpr paths)
      exact folders.mem_iff.mpr (List.mem_map_of_mem listed)
    · rw [List.map_drop, kept fun _ _ _ => rfl, List.map_append,
        List.drop_left' (List.length_map _), List.map_map]
      apply List.map_congr_left
      intro root inRoots
      exact congrArg (Prod.mk [root]) (excludes_iff.mpr roots root inRoots)
  case bins =>
    intro j listed several
    have shown : j.Folders ∈ (numbered (folderJobs h a base (binSizeOf binSize) ++
        a.RootsWithFiles.map (rootJob h a base))).map (·.Folders) := List.mem_map_of_mem listed
    rw [kept fun _ _ _ => rfl, List.map_append, folderJobs_folders, List.append_assoc] at shown
    obtain solo | rest := List.mem_append.mp shown
    · obtain ⟨f, -, same⟩ := List.mem_map.mp solo
      rw [← same] at several
      exact absurd several (Nat.lt_irrefl 1)
    · obtain packed | root := List.mem_append.mp rest
      · obtain ⟨bin, inBins, same⟩ := List.mem_map.mp packed
        rw [← same, List.length_map] at several
        rw [← same]
        exact totalOf_bin paths fits inBins several
      · obtain ⟨further, inRoots, same⟩ := List.mem_map.mp root
        obtain ⟨_, -, rfl⟩ := List.mem_map.mp inRoots
        rw [← same] at several
        exact absurd several (Nat.lt_irrefl 1)
  case ids =>
    apply List.pairwise_map.mp
    rw [kept fun _ _ _ => rfl]
    exact (idsApart_iff base (binSizeOf binSize)).mpr ids

theorem apart_of_covers {base : Bytes} {binSize : Nat} (should : a.ShouldSplit = true)
    (some_ : a.Folders ≠ []) (covers : Covers h a binSize (CreateSplitJobs h a base binSize)) :
    RootsApart h a ∧ IDsApart h a (binSizeOf binSize) := by
  obtain ⟨⟨own, further, whole, -, excludes⟩, -, ids⟩ := covers
  rw [createSplitJobs_eq should some_] at whole ids
  have kept {γ : Type} {g : SplitJob → γ}
      (same : ∀ (job : SplitJob) i n, g { job with Index := i, TotalJobs := n } = g job) :=
    numbered_map same (folderJobs h a base (binSizeOf binSize) ++
      a.RootsWithFiles.map (rootJob h a base))
  constructor
  · apply excludes_iff.mp
    have shown := congrArg (List.map fun j : SplitJob => (j.Folders, j.ExcludeList)) whole
    rw [kept fun _ _ _ => rfl, List.map_append, List.map_append, excludes, List.map_map] at shown
    -- The jobs of the roots are the last ones.
    have last := (List.append_inj' shown (by rw [List.length_map, List.length_map])).2
    intro root inRoots
    exact (Prod.mk.inj (List.map_inj_left.mp last root inRoots)).2
  · apply (idsApart_iff base (binSizeOf binSize)).mp
    rw [← kept fun _ _ _ => rfl]
    exact List.pairwise_map.mpr ids

/-- A split plan covers everything once exactly when there is a folder to split where a root has
files, no folder's parent is a root but for its case, and the names differ. -/
theorem split_covers_exact (h : Host) (a : BackupAnalysis) (baseBackupID : Bytes) (binSize : Nat)
    (should : a.ShouldSplit = true) (paths : (a.Folders.map (·.Path)).Nodup)
    (fits : load FolderInfo.Size a.Folders < 2 ^ 64) :
    Covers h a binSize (CreateSplitJobs h a baseBackupID binSize) ↔
      (a.Folders = [] → a.RootsWithFiles = []) ∧ RootsApart h a ∧
        IDsApart h a (binSizeOf binSize) := by
  by_cases none_ : a.Folders = []
  · have solo : soloFolders a (binSizeOf binSize) = [] := by rw [soloFolders, none_]; rfl
    have rest : packable a (binSizeOf binSize) = [] := by rw [packable, none_]; rfl
    have whole : CreateSplitJobs h a baseBackupID binSize = [wholeJob a baseBackupID] := by
      simp only [CreateSplitJobs, should, not_true, if_false, solo, rest, and_self, if_true]
    rw [whole]
    constructor
    · rintro ⟨⟨own, further, same, -, excludes⟩, -, -⟩
      have noRoots : a.RootsWithFiles = [] := by
        match found : a.RootsWithFiles with
        | [] => rfl
        | root :: more =>
            rw [found] at excludes
            match further, excludes with
            | job :: later, excludes =>
                have listed : job ∈ [wholeJob a baseBackupID] :=
                  same ▸ List.mem_append_right own List.mem_cons_self
                obtain rfl := List.mem_singleton.mp listed
                have folders := (Prod.mk.inj (List.cons.inj excludes).1).1
                rw [wholeJob, none_] at folders
                cases folders
      refine ⟨fun _ => noRoots, ?_, ?_, ?_, ?_, ?_⟩
      · intro root inRoots
        rw [noRoots] at inRoots
        cases inRoots
      · rw [solo]
        exact .nil
      · rw [noRoots]
        exact .nil
      · rw [solo]
        exact nofun
      · rw [solo]
        exact nofun
    · rintro ⟨roots, -, -⟩
      refine ⟨⟨[wholeJob a baseBackupID], [], rfl, ?_, ?_⟩, ?_, List.pairwise_singleton _ _⟩
      · rw [none_]
        exact nofun
      · rw [roots none_]
        rfl
      · intro j listed several
        obtain rfl := List.mem_singleton.mp listed
        rw [wholeJob, none_] at several
        cases several
  · constructor
    · intro covers
      exact ⟨fun empty => absurd empty none_, apart_of_covers should none_ covers⟩
    · rintro ⟨-, roots, ids⟩
      exact covers_of should none_ paths fits roots ids

/-- A host whose paths are clean, for text of ASCII letters. -/
def linux : Host where
  hostname := ascii "pc"
  clean := id
  dir p := (p.reverse.dropWhile (· ≠ 47)).reverse.dropLast
  lower := List.map fun c => if 65 ≤ c ∧ c ≤ 90 then c + 32 else c
  sum256 _ := List.replicate 32 0

def folder (path name : String) (size : Nat) : FolderInfo :=
  ⟨ascii path, ascii name, size, false, []⟩

/-- A folder larger than a bin and two that are packed. -/
def threeFolders : BackupAnalysis where
  TotalSize := 17
  Folders := [folder "/d/a b" "a b" 12, folder "/d/c" "c" 3, folder "/d/d" "d" 2]
  ShouldSplit := true
  RootsWithFiles := [ascii "/d"]

theorem three_folders_covered :
    Covers linux threeFolders 10 (CreateSplitJobs linux threeFolders (ascii "pc") 10) := by
  apply (split_covers_exact linux threeFolders (ascii "pc") 10 rfl (by decide) (by decide)).mpr
  refine ⟨by decide, ?_, (idsApart_iff (ascii "pc") 10).mp (by decide +kernel)⟩
  intro root inRoots f listed _
  obtain rfl := List.mem_singleton.mp inRoots
  revert f
  decide

/-- Two large folders whose names differ in a blank have one backup ID. -/
def blankAndDash : BackupAnalysis where
  TotalSize := 24
  Folders := [folder "/d/a b" "a b" 12, folder "/d/a-b" "a-b" 12]
  ShouldSplit := true
  RootsWithFiles := []

theorem one_id_for_two_jobs :
    (CreateSplitJobs linux blankAndDash (ascii "pc") 10).map (·.BackupID) =
        [ascii "pc_d_a-b", ascii "pc_d_a-b"] ∧
      ¬ Covers linux blankAndDash 10 (CreateSplitJobs linux blankAndDash (ascii "pc") 10) := by
  have ids : (CreateSplitJobs linux blankAndDash (ascii "pc") 10).map (·.BackupID) =
      [ascii "pc_d_a-b", ascii "pc_d_a-b"] := by decide +kernel
  refine ⟨ids, fun covers => ?_⟩
  have distinct := List.pairwise_map.mpr covers.ids
  rw [ids] at distinct
  exact absurd distinct (by decide)

end ProxmoxBackup.SplitPlan
