import ProxmoxBackup.RestorePaths
import Mathlib.Data.List.Nodup
import Mathlib.Data.List.TakeWhile

/-! RestoreSnapshotInline of gui/restore_inline.go: a selection of paths as the
browse tree shows them, translated for each archive, normalised again and matched
by the reader (ExtractWithRewriter), and what is extracted where. The restoring
system is one whose only separator is "/". The destination is empty and no write
fails, so an entry is extracted unless the code drops or refuses it. -/

namespace ProxmoxBackup.RestoreSelection

open DynamicChunks LexicalPath RestorePaths

inductive Kind where
  | file
  | folder
  | symlink
  deriving DecidableEq

structure TreeEntry where
  path : Text
  kind : Kind
  deriving DecidableEq

/-- A name Linux allows that is a whole name. -/
def LegalName (name : Text) : Prop := name ≠ [] ∧ name ≠ [dot] ∧ name ≠ dotdot

def LegalPath (path : Text) : Prop := ∀ name ∈ path.splitOn slash, LegalName name

/-- A folder's tree, in the archive's order. -/
structure Archive where
  entries : List TreeEntry
  legal : ∀ e ∈ entries, LegalPath e.path
  distinct : (entries.map TreeEntry.path).Nodup
  folders : ∀ e ∈ entries, ∀ up, under up e.path = true →
    ∃ d ∈ entries, d.path = up ∧ d.kind = .folder

/-- `fast` tells whether the reader finds its way by the GOODBYE tables. -/
structure Member where
  wrapper : Text
  archive : Archive
  fast : Bool

/-- resolveArchiveDisplayNames gives every archive a name of its own. -/
structure Snapshot where
  members : List Member
  legal : ∀ m ∈ members, LegalName m.wrapper ∧ slash ∉ m.wrapper
  distinct : (members.map Member.wrapper).Nodup

/-- One displayed path as the archive under `wrapper` knows it. -/
def translate (wrapper inc : Text) : Option Text :=
  let norm := forward inc
  if norm = wrapper then some []
  else if under wrapper norm then some (trimUnder wrapper norm)
  else none

/-- wrapRewriterForArchive, for alternate_abs only. -/
def archiveRewriter (mode : Mode) (selection : List Text) (wrapper archivePath : Text) :
    Option Text :=
  match mode with
  | .alternateAbs => rewriter mode selection (wrapper ++ slash :: archivePath)
  | .alternateFlat => rewriter mode selection archivePath

structure Extraction where
  links : List (Place UInt8)
  extracted : List (TreeEntry × Place UInt8)

def dest (root : Place UInt8) (text : Text) : Place UInt8 := System.linux.lexis.join root text

def extractEntry (root : Place UInt8) (rewrite : Text → Option Text) (includes : List Text)
    (s : Extraction) (e : TreeEntry) : Extraction :=
  if !pathMatches e.path includes || isUnsafeArchivePath e.path then s
  else
    match rewrite e.path with
    | none => s
    | some text =>
        let full := dest root text
        -- underCreatedLink
        if s.links.any fun link => decide (Below link full) then s
        else
          { links := if e.kind = .symlink then full :: s.links else s.links
            extracted := s.extracted ++ [(e, full)] }

/-- walkIncludes: the spans of the included entries when the tables lead to each
of them, the whole archive otherwise. -/
def walked (m : Member) (includes : List Text) : List TreeEntry :=
  if m.fast && includes.all fun inc => m.archive.entries.any fun e => e.path == inc then
    m.archive.entries.filter fun e => pathSelected e.path includes
  else m.archive.entries

def restoreArchive (root : Place UInt8) (mode : Mode) (selection : List Text) (m : Member) :
    List (TreeEntry × Place UInt8) :=
  let includesToCheck := normalizeIncludes selection
  let archiveIncludes := includesToCheck.filterMap (translate m.wrapper)
  -- Nothing of the selection is in this archive: an empty list would mean everything.
  if !includesToCheck.isEmpty && archiveIncludes.isEmpty then []
  else
    let includes := normalizeIncludes archiveIncludes
    ((walked m includes).foldl
      (extractEntry root (archiveRewriter mode selection m.wrapper) includes) ⟨[], []⟩).extracted

structure Item where
  wrapper : Text
  entry : TreeEntry
  at_ : Place UInt8
  deriving DecidableEq

def restoreSnapshot (root : Place UInt8) (mode : Mode) (selection : List Text)
    (snapshot : Snapshot) : List Item :=
  snapshot.members.flatMap fun m =>
    (restoreArchive root mode selection m).map fun out => ⟨m.wrapper, out.1, out.2⟩

/-- As the browse tree shows it. -/
def shown (wrapper path : Text) : Text := wrapper ++ slash :: path

/-- Selected itself, or below a selected folder; no selection is everything. -/
def Chosen (selection : List Text) (path : Text) : Prop :=
  selection = [] ∨ ∃ s ∈ selection, path = s ∨ under s path = true

/-- Where an extracted file belongs. -/
def belongs (mode : Mode) (selection : List Text) (path : Text) : Text :=
  match mode with
  | .alternateAbs => path
  | .alternateFlat =>
      let top := commonAncestorDir (normalizeIncludes selection)
      if top = [] then path else trimUnder top path

def files (root : Place UInt8) (mode : Mode) (selection : List Text) (snapshot : Snapshot) :
    List Item :=
  (restoreSnapshot root mode selection snapshot).filter fun item => item.entry.kind ≠ .folder

/-- The files extracted are the chosen ones, each once, each where it belongs and
no two at one place. -/
structure Exact (root : Place UInt8) (mode : Mode) (selection : List Text)
    (snapshot : Snapshot) : Prop where
  chosen : ∀ m ∈ snapshot.members, ∀ e ∈ m.archive.entries, e.kind ≠ .folder →
    ((∃ item ∈ files root mode selection snapshot, item.wrapper = m.wrapper ∧ item.entry = e) ↔
      Chosen selection (shown m.wrapper e.path))
  once : ((files root mode selection snapshot).map fun item =>
    (item.wrapper, item.entry.path)).Nodup
  placed : ∀ item ∈ files root mode selection snapshot,
    item.at_ = dest root (belongs mode selection (shown item.wrapper item.entry.path))
  apart : ((files root mode selection snapshot).map Item.at_).Nodup

/-- What the reader makes of a selection: backslashes are slashes, and a wrapper
counts only if nothing below it is selected too. -/
def Reads (selection : List Text) (wrapper path : Text) : Prop :=
  let includes := normalizeIncludes selection
  includes = [] ∨ (wrapper ∈ includes ∧ ∀ s ∈ includes, under wrapper s = false) ∨
    ∃ s ∈ includes, under wrapper s = true ∧
      let inc := trimSlashes (trimUnder wrapper s)
      path = inc ∨ under inc path = true ∨ under path inc = true

/-- A file that is read, not refused and not dropped. -/
def Kept (mode : Mode) (selection : List Text) (wrapper path : Text) : Prop :=
  Reads selection wrapper path ∧ isUnsafeArchivePath path = false ∧
    archiveRewriter mode selection wrapper path ≠ none

def Holds (mode : Mode) (selection : List Text) (snapshot : Snapshot) : Prop :=
  ∀ m ∈ snapshot.members, ∀ e ∈ m.archive.entries, e.kind ≠ .folder →
    match mode with
    | .alternateAbs => Chosen selection (shown m.wrapper e.path) ↔
        Reads selection m.wrapper e.path ∧ isUnsafeArchivePath e.path = false
    | .alternateFlat => ¬ Chosen selection (shown m.wrapper e.path) ∧
        ¬ Kept mode selection m.wrapper e.path

/-! Text facts. -/

theorem under_iff (inc path : Text) : under inc path = true ↔ ∃ rest, path = inc ++ slash :: rest := by
  simp only [under, List.isPrefixOf_iff_prefix]
  constructor
  · rintro ⟨rest, rfl⟩
    exact ⟨rest, by simp⟩
  · rintro ⟨rest, rfl⟩
    exact ⟨rest, by simp⟩

theorem under_append (inc rest : Text) : under inc (inc ++ slash :: rest) = true :=
  (under_iff _ _).mpr ⟨rest, rfl⟩

theorem trimUnder_append (inc rest : Text) : trimUnder inc (inc ++ slash :: rest) = rest := by
  rw [trimUnder, if_pos (under_append inc rest)]
  simp

theorem splitOn_append (first rest : Text) :
    (first ++ slash :: rest).splitOn slash = first.splitOn slash ++ rest.splitOn slash :=
  List.splitOn_append_cons_self first rest

theorem foldl_legal (root : Place UInt8) (names : List Text) (legal : ∀ name ∈ names, LegalName name) :
    names.foldl System.linux.lexis.enter root = { root with names := root.names ++ names } := by
  induction names generalizing root with
  | nil => simp
  | cons name rest ih =>
      obtain ⟨filled, notDot, notUp⟩ := legal name (List.mem_cons_self ..)
      have entered : System.linux.lexis.enter root name = { root with names := root.names ++ [name] } := by
        have busy : ¬ System.linux.lexis.idle name := by
          rintro (empty | single)
          · exact filled empty
          · exact notDot single
        unfold Lexis.enter
        rw [if_neg busy, if_neg (by exact notUp)]
      rw [List.foldl_cons, entered, ih _ fun more member => legal more (List.mem_cons_of_mem _ member)]
      simp

theorem dest_legal (root : Place UInt8) (text : Text) (legal : LegalPath text) :
    dest root text = { root with names := root.names ++ text.splitOn slash } :=
  foldl_legal root (text.splitOn slash) legal

theorem splitOn_injective (first second : Text) (same : first.splitOn slash = second.splitOn slash) :
    first = second := by
  have whole : ∀ text : Text, [slash].intercalate (text.splitOn slash) = text :=
    fun _ => List.intercalate_splitOn slash
  rw [← whole first, same, whole]

theorem dest_injective (root : Place UInt8) (first second : Text) (legal : LegalPath first)
    (other : LegalPath second) (same : dest root first = dest root second) : first = second := by
  rw [dest_legal root first legal, dest_legal root second other] at same
  have names := congrArg Place.names same
  exact splitOn_injective first second (by simpa using names)

theorem intercalate_append (first second : List Text) (some_ : first ≠ []) (more : second ≠ []) :
    [slash].intercalate (first ++ second) =
      [slash].intercalate first ++ slash :: [slash].intercalate second := by
  induction first with
  | nil => exact absurd rfl some_
  | cons name rest ih =>
      cases rest with
      | nil =>
          obtain ⟨head, tail, rfl⟩ := List.exists_cons_of_ne_nil more
          simp [List.intercalate]
      | cons other last =>
          have later := ih (List.cons_ne_nil _ _)
          simp only [List.intercalate, List.cons_append, List.intersperse_cons_cons, List.flatten_cons,
            List.append_assoc] at later ⊢
          simp [later]

/-- More names than another path's, after the same ones. -/
theorem under_of_names (inc path : Text) (more : List Text) (some_ : more ≠ [])
    (names : path.splitOn slash = inc.splitOn slash ++ more) : under inc path = true := by
  rw [under_iff]
  refine ⟨[slash].intercalate more, ?_⟩
  have whole : ∀ text : Text, [slash].intercalate (text.splitOn slash) = text :=
    fun _ => List.intercalate_splitOn slash
  rw [← whole path, names, intercalate_append _ _ (List.splitOn_ne_nil _ _) some_, whole]

theorem legal_rest (inc rest : Text) (legal : LegalPath (inc ++ slash :: rest)) : LegalPath rest := by
  intro name member
  refine legal name ?_
  rw [splitOn_append]
  exact List.mem_append_right _ member

theorem shown_names (wrapper path : Text) (whole : slash ∉ wrapper) :
    (shown wrapper path).splitOn slash = wrapper :: path.splitOn slash := by
  rw [shown, splitOn_append, List.splitOn_eq_singleton whole]
  rfl

theorem shown_legal (wrapper path : Text) (name : LegalName wrapper) (whole : slash ∉ wrapper)
    (legal : LegalPath path) : LegalPath (shown wrapper path) := by
  unfold LegalPath
  rw [shown_names wrapper path whole]
  intro other member
  rcases List.mem_cons.mp member with rfl | later
  · exact name
  · exact legal other later

theorem shown_injective (first second path other : Text) (whole : slash ∉ first)
    (single : slash ∉ second) (same : shown first path = shown second other) :
    first = second ∧ path = other := by
  have names := congrArg (List.splitOn slash) same
  rw [shown_names first path whole, shown_names second other single, List.cons.injEq] at names
  exact ⟨names.1, splitOn_injective path other names.2⟩

theorem pathMatches_iff (path : Text) (includes : List Text) : pathMatches path includes = true ↔
    includes = [] ∨ ∃ inc ∈ includes, path = inc ∨ under inc path = true ∨ under path inc = true := by
  simp [pathMatches, List.any_eq_true, or_assoc]

theorem pathSelected_iff (path : Text) (includes : List Text) : pathSelected path includes = true ↔
    includes = [] ∨ ∃ inc ∈ includes, path = inc ∨ under inc path = true := by
  simp [pathSelected, List.any_eq_true]

/-! What one archive gives. -/

theorem same_of_path (archive : Archive) (e d : TreeEntry) (member : e ∈ archive.entries)
    (other : d ∈ archive.entries) (same : d.path = e.path) : d = e :=
  List.inj_on_of_nodup_map archive.distinct other member same

/-- Only folders have anything below them. -/
theorem folder_of_under (archive : Archive) (l e : TreeEntry) (member : l ∈ archive.entries)
    (below : e ∈ archive.entries) (inside : under l.path e.path = true) : l.kind = .folder := by
  obtain ⟨d, listed, same, folder⟩ := archive.folders e below l.path inside
  rw [← same_of_path archive l d member listed same]
  exact folder

section extraction

variable {root : Place UInt8} {rewrite : Text → Option Text} {includes : List Text}

/-- The reader handles this entry. -/
def Passes (includes : List Text) (e : TreeEntry) : Prop :=
  pathMatches e.path includes = true ∧ isUnsafeArchivePath e.path = false

/-- An entry is left out, or extracted where the rewriter says. -/
theorem extractEntry_cases (root : Place UInt8) (rewrite : Text → Option Text) (includes : List Text)
    (s : Extraction) (e : TreeEntry) :
    extractEntry root rewrite includes s e = s ∨
      ∃ text, Passes includes e ∧ rewrite e.path = some text ∧
        extractEntry root rewrite includes s e =
          { links := if e.kind = .symlink then dest root text :: s.links else s.links
            extracted := s.extracted ++ [(e, dest root text)] } := by
  unfold extractEntry
  split
  · exact Or.inl rfl
  · next passes =>
      simp only [Bool.or_eq_true, Bool.not_eq_true', not_or, Bool.not_eq_false,
        Bool.not_eq_true] at passes
      split
      · exact Or.inl rfl
      · next text found =>
          simp only
          split
          · exact Or.inl rfl
          · exact Or.inr ⟨text, passes, found, rfl⟩

/-- An entry with no link above it. -/
theorem extractEntry_free (s : Extraction) (e : TreeEntry) (text : Text) (passes : Passes includes e)
    (found : rewrite e.path = some text) (free : ∀ link ∈ s.links, ¬ Below link (dest root text)) :
    extractEntry root rewrite includes s e =
      { links := if e.kind = .symlink then dest root text :: s.links else s.links
        extracted := s.extracted ++ [(e, dest root text)] } := by
  have clear : s.links.any (fun link => decide (Below link (dest root text))) = false := by
    rw [List.any_eq_false]
    intro link member
    simpa using free link member
  unfold extractEntry
  simp [passes.1, passes.2, found, clear]

/-- What is extracted is a part of the entries, in their order. -/
theorem extracted_part (root : Place UInt8) (rewrite : Text → Option Text) (includes : List Text)
    (entries : List TreeEntry) (s : Extraction) : ∃ part : List TreeEntry,
    part.Sublist entries ∧
      ((entries.foldl (extractEntry root rewrite includes) s).extracted).map Prod.fst =
        s.extracted.map Prod.fst ++ part := by
  induction entries generalizing s with
  | nil => exact ⟨[], List.Sublist.refl _, by simp⟩
  | cons e rest ih =>
      rw [List.foldl_cons]
      obtain ⟨part, sub, same⟩ := ih (extractEntry root rewrite includes s e)
      rcases extractEntry_cases root rewrite includes s e with
        still | ⟨text, _, _, moved⟩
      · rw [still] at same ⊢
        exact ⟨part, sub.cons e, same⟩
      · rw [moved] at same ⊢
        exact ⟨e :: part, sub.cons_cons e, by simpa using same⟩

theorem extracted_placed (entries : List TreeEntry) (s : Extraction) (out : TreeEntry × Place UInt8)
    (member : out ∈ (entries.foldl (extractEntry root rewrite includes) s).extracted) :
    out ∈ s.extracted ∨ (out.1 ∈ entries ∧ Passes includes out.1 ∧
      ∃ text, rewrite out.1.path = some text ∧ out.2 = dest root text) := by
  induction entries generalizing s with
  | nil => exact Or.inl member
  | cons e rest ih =>
      rw [List.foldl_cons] at member
      rcases ih _ member with earlier | ⟨listed, passes, text⟩
      · rcases extractEntry_cases root rewrite includes s e with
          still | ⟨text, passes, found, moved⟩
        · rw [still] at earlier
          exact Or.inl earlier
        · rw [moved] at earlier
          rcases List.mem_append.mp earlier with old | new
          · exact Or.inl old
          · rw [List.mem_singleton] at new
            subst new
            exact Or.inr ⟨List.mem_cons_self .., passes, text, found, rfl⟩
      · exact Or.inr ⟨List.mem_cons_of_mem _ listed, passes, text⟩

theorem extracted_grow (entries : List TreeEntry) (s : Extraction) (out : TreeEntry × Place UInt8)
    (member : out ∈ s.extracted) :
    out ∈ (entries.foldl (extractEntry root rewrite includes) s).extracted := by
  induction entries generalizing s with
  | nil => exact member
  | cons e rest ih =>
      rw [List.foldl_cons]
      apply ih
      rcases extractEntry_cases root rewrite includes s e with
        still | ⟨text, _, _, moved⟩
      · rw [still]
        exact member
      · rw [moved]
        exact List.mem_append_left _ member

/-- Where no link lies above an entry, every entry that passes is extracted. -/
theorem extracted_all (entries : List TreeEntry) (s : Extraction) (place : TreeEntry → Text)
    (found : ∀ e ∈ entries, rewrite e.path = some (place e))
    (free : ∀ link ∈ s.links, ∀ e ∈ entries, ¬ Below link (dest root (place e)))
    (apart : ∀ l ∈ entries, l.kind = .symlink → ∀ e ∈ entries,
      ¬ Below (dest root (place l)) (dest root (place e)))
    (e : TreeEntry) (listed : e ∈ entries) (passes : Passes includes e) :
    (e, dest root (place e)) ∈ (entries.foldl (extractEntry root rewrite includes) s).extracted := by
  induction entries generalizing s with
  | nil => cases listed
  | cons first rest ih =>
      rw [List.foldl_cons]
      have here := found first (List.mem_cons_self ..)
      rcases List.mem_cons.mp listed with rfl | later
      · apply extracted_grow
        rw [extractEntry_free s e _ passes here fun link member =>
          free link member e (List.mem_cons_self ..)]
        simp
      · refine ih _ (fun e member => found e (List.mem_cons_of_mem _ member)) ?_
          (fun l member link e other => apart l (List.mem_cons_of_mem _ member) link e
            (List.mem_cons_of_mem _ other)) later
        intro link member e other
        rcases extractEntry_cases root rewrite includes s first with still | ⟨text, _, same, moved⟩
        · rw [still] at member
          exact free link member e (List.mem_cons_of_mem _ other)
        · rw [moved] at member
          rw [here, Option.some.injEq] at same
          subst same
          split at member
          · next isLink =>
              rcases List.mem_cons.mp member with rfl | old
              · exact apart first (List.mem_cons_self ..) isLink e (List.mem_cons_of_mem _ other)
              · exact free link old e (List.mem_cons_of_mem _ other)
          · exact free link member e (List.mem_cons_of_mem _ other)

/-- A link is extracted before anything can be refused for it. -/
theorem extracted_some (entries : List TreeEntry) (s : Extraction) (none_ : s.links = [])
    (e : TreeEntry) (listed : e ∈ entries) (passes : Passes includes e) (text : Text)
    (found : rewrite e.path = some text) (file : e.kind ≠ .folder) :
    ∃ out ∈ (entries.foldl (extractEntry root rewrite includes) s).extracted,
      out.1.kind ≠ .folder := by
  induction entries generalizing s with
  | nil => cases listed
  | cons first rest ih =>
      rw [List.foldl_cons]
      rcases List.mem_cons.mp listed with rfl | later
      · refine ⟨(e, dest root text), extracted_grow _ _ _ ?_, file⟩
        rw [extractEntry_free s e text passes found (by simp [none_])]
        simp
      · rcases extractEntry_cases root rewrite includes s first with still | ⟨other, _, _, moved⟩
        · rw [still]
          exact ih s none_ later
        · by_cases isLink : first.kind = .symlink
          · refine ⟨(first, dest root other), extracted_grow _ _ _ ?_, by simp [isLink]⟩
            rw [moved]
            simp
          · refine ih _ ?_ later
            rw [moved, if_neg isLink]
            exact none_

end extraction

/-- Nothing lies below a link, as long as the wrapper is kept. -/
theorem not_below_link (root : Place UInt8) (m : Member) (name : LegalName m.wrapper)
    (whole : slash ∉ m.wrapper) (l e : TreeEntry) (member : l ∈ m.archive.entries)
    (link : l.kind = .symlink) (other : e ∈ m.archive.entries) :
    ¬ Below (dest root (shown m.wrapper l.path)) (dest root (shown m.wrapper e.path)) := by
  have legal : ∀ e ∈ m.archive.entries, LegalPath (shown m.wrapper e.path) :=
    fun e member => shown_legal _ _ name whole (m.archive.legal e member)
  rw [dest_legal root _ (legal l member), dest_legal root _ (legal e other)]
  rintro ⟨_, _, more, some_, names⟩
  simp only [shown_names _ _ whole, List.append_assoc, List.append_cancel_left_eq,
    List.cons_append, List.cons.injEq, true_and] at names
  have folder := folder_of_under m.archive l e member other
    (under_of_names l.path e.path more some_ names)
  rw [link] at folder
  cases folder

/-- The tables lead to the same files as the whole walk. -/
theorem mem_walked (m : Member) (includes : List Text) (e : TreeEntry)
    (listed : e ∈ m.archive.entries) (file : e.kind ≠ .folder)
    (reached : pathMatches e.path includes = true) : e ∈ walked m includes := by
  unfold walked
  split
  · next both =>
      simp only [Bool.and_eq_true, List.all_eq_true, List.any_eq_true, beq_iff_eq] at both
      rw [List.mem_filter, pathSelected_iff]
      refine ⟨listed, ?_⟩
      rcases (pathMatches_iff _ _).mp reached with all | ⟨inc, member, same | below | above⟩
      · exact Or.inl all
      · exact Or.inr ⟨inc, member, Or.inl same⟩
      · exact Or.inr ⟨inc, member, Or.inr below⟩
      · obtain ⟨d, there, rfl⟩ := both.2 inc member
        exact absurd (folder_of_under m.archive e d listed there above) file
  · exact listed

theorem walked_part (m : Member) (includes : List Text) :
    (walked m includes).Sublist m.archive.entries := by
  unfold walked
  split
  · exact List.filter_sublist
  · exact List.Sublist.refl _

/-! What the normalisations leave of a displayed path. -/

theorem mem_trimSlashes (text : Text) (c : UInt8) (member : c ∈ trimSlashes text) : c ∈ text := by
  have inner := (List.dropWhile_sublist _).subset (List.mem_reverse.mp member)
  exact (List.dropWhile_sublist _).subset (List.mem_reverse.mp inner)

theorem trimSlashes_end (text : Text) : (trimSlashes text).getLast? ≠ some slash := by
  rw [trimSlashes, List.getLast?_reverse]
  intro last
  have stopped := List.head?_dropWhile_not (fun c => c == slash)
    (text.dropWhile fun c => c == slash).reverse
  rw [last] at stopped
  simp at stopped

theorem trimSlashes_filled (text : Text) (c : UInt8) (member : c ∈ text) (other : c ≠ slash) :
    trimSlashes text ≠ [] := by
  intro empty
  rw [trimSlashes, List.reverse_eq_nil_iff, List.dropWhile_eq_nil_iff] at empty
  have kept : c ∈ text.dropWhile (· == slash) := by
    have split_ := List.takeWhile_append_dropWhile (p := fun c => c == slash) (l := text)
    rw [← split_] at member
    rcases List.mem_append.mp member with front | back
    · exact absurd (by simpa using List.mem_takeWhile_imp front) other
    · exact back
  exact other (by simpa using empty c (List.mem_reverse.mpr kept))

theorem forward_fixed (text : Text) (plain : backslash ∉ text) : forward text = text := by
  unfold forward
  rw [List.map_congr_left (g := id), List.map_id]
  intro c member
  rw [if_neg]
  · rfl
  · rintro rfl
    exact plain member

theorem forward_plain (text : Text) : backslash ∉ forward text := by
  intro member
  obtain ⟨c, _, same⟩ := List.mem_map.mp member
  split at same
  · cases same
  · next other => exact other same

theorem mem_normalizeIncludes (includes : List Text) (inc : Text) :
    inc ∈ normalizeIncludes includes ↔
      inc ≠ [] ∧ ∃ p ∈ includes, trimSlashes (forward p) = inc := by
  simp only [normalizeIncludes, List.mem_filter, List.mem_map, decide_eq_true_eq]
  exact and_comm

theorem normalized_plain (selection : List Text) (s : Text) (member : s ∈ normalizeIncludes selection) :
    backslash ∉ s := by
  obtain ⟨_, p, _, rfl⟩ := (mem_normalizeIncludes _ _).mp member
  exact fun inside => forward_plain p (mem_trimSlashes _ _ inside)

/-- What is left of a path below the wrapper is more than slashes. -/
theorem rest_filled (selection : List Text) (wrapper rest : Text)
    (member : wrapper ++ slash :: rest ∈ normalizeIncludes selection) :
    trimSlashes rest ≠ [] ∧ backslash ∉ rest := by
  have plain := normalized_plain selection _ member
  obtain ⟨_, p, _, same⟩ := (mem_normalizeIncludes _ _).mp member
  have ending := trimSlashes_end (forward p)
  rw [same] at ending
  refine ⟨?_, fun inside => plain (by simp [inside])⟩
  cases rest.eq_nil_or_concat with
  | inl empty =>
      subst empty
      simp at ending
  | inr snoc =>
      obtain ⟨front, last, rfl⟩ := snoc
      refine trimSlashes_filled _ last (by simp) ?_
      rintro rfl
      apply ending
      rw [List.concat_eq_append, ← List.cons_append, ← List.append_assoc]
      exact List.getLast?_concat

theorem translate_of_mem (selection : List Text) (wrapper s : Text)
    (member : s ∈ normalizeIncludes selection) : translate wrapper s =
      if s = wrapper then some [] else if under wrapper s then some (trimUnder wrapper s) else none := by
  simp only [translate, forward_fixed s (normalized_plain selection s member)]

/-- The includes the reader is left with. -/
theorem mem_readerIncludes (selection : List Text) (wrapper inc : Text) :
    inc ∈ normalizeIncludes ((normalizeIncludes selection).filterMap (translate wrapper)) ↔
      ∃ s ∈ normalizeIncludes selection, under wrapper s = true ∧
        inc = trimSlashes (trimUnder wrapper s) := by
  rw [mem_normalizeIncludes]
  constructor
  · rintro ⟨filled, t, listed, rfl⟩
    obtain ⟨s, member, found⟩ := List.mem_filterMap.mp listed
    rw [translate_of_mem selection wrapper s member] at found
    split at found
    · cases found
      exact absurd rfl filled
    · split at found
      · next inside =>
          cases found
          obtain ⟨rest, rfl⟩ := (under_iff _ _).mp inside
          have plain := (rest_filled selection wrapper rest member).2
          refine ⟨_, member, inside, ?_⟩
          rw [trimUnder_append, forward_fixed rest plain]
      · cases found
  · rintro ⟨s, member, inside, rfl⟩
    obtain ⟨rest, rfl⟩ := (under_iff _ _).mp inside
    obtain ⟨filled, plain⟩ := rest_filled selection wrapper rest member
    rw [trimUnder_append]
    refine ⟨filled, rest, List.mem_filterMap.mpr ⟨_, member, ?_⟩, by rw [forward_fixed rest plain]⟩
    have other : wrapper ++ slash :: rest ≠ wrapper := by
      intro same
      have lengths := congrArg List.length same
      simp at lengths
    rw [translate_of_mem selection wrapper _ member, if_neg other, if_pos inside, trimUnder_append]

theorem asked_iff (selection : List Text) (wrapper : Text) :
    (normalizeIncludes selection).filterMap (translate wrapper) ≠ [] ↔
      ∃ s ∈ normalizeIncludes selection, s = wrapper ∨ under wrapper s = true := by
  constructor
  · intro some_
    obtain ⟨t, listed⟩ := List.exists_mem_of_ne_nil _ some_
    obtain ⟨s, member, found⟩ := List.mem_filterMap.mp listed
    refine ⟨s, member, ?_⟩
    rw [translate_of_mem selection wrapper s member] at found
    split at found
    · next same => exact Or.inl same
    · split at found
      · next inside => exact Or.inr inside
      · cases found
  · rintro ⟨s, member, reached⟩ none_
    have gone := List.filterMap_eq_nil_iff.mp none_ s member
    rw [translate_of_mem selection wrapper s member] at gone
    rcases reached with same | inside
    · rw [if_pos same] at gone
      cases gone
    · split at gone
      · cases gone
      · cases gone

theorem reads_iff (selection : List Text) (wrapper path : Text) :
    ((normalizeIncludes selection = [] ∨
        (normalizeIncludes selection).filterMap (translate wrapper) ≠ []) ∧
      pathMatches path (normalizeIncludes
        ((normalizeIncludes selection).filterMap (translate wrapper))) = true) ↔
      Reads selection wrapper path := by
  rw [asked_iff, pathMatches_iff]
  constructor
  · rintro ⟨asked, reached⟩
    rcases asked with all | ⟨s, member, here⟩
    · exact Or.inl all
    · rcases reached with empty | ⟨inc, listed, touches⟩
      · have none_ : ∀ s ∈ normalizeIncludes selection, under wrapper s = false := by
          intro s member
          by_contra inside
          have listed := (mem_readerIncludes selection wrapper _).mpr
            ⟨s, member, by simpa using inside, rfl⟩
          rw [empty] at listed
          cases listed
        rcases here with rfl | inside
        · exact Or.inr (Or.inl ⟨member, none_⟩)
        · rw [none_ s member] at inside
          cases inside
      · obtain ⟨s, member, inside, rfl⟩ := (mem_readerIncludes selection wrapper inc).mp listed
        exact Or.inr (Or.inr ⟨s, member, inside, touches⟩)
  · rintro (all | ⟨member, none_⟩ | ⟨s, member, inside, touches⟩)
    · refine ⟨Or.inl all, Or.inl ?_⟩
      rw [all]
      rfl
    · refine ⟨Or.inr ⟨wrapper, member, Or.inl rfl⟩, Or.inl ?_⟩
      rw [List.eq_nil_iff_forall_not_mem]
      intro inc listed
      obtain ⟨s, there, inside, _⟩ := (mem_readerIncludes selection wrapper inc).mp listed
      rw [none_ s there] at inside
      cases inside
    · refine ⟨Or.inr ⟨s, member, Or.inr inside⟩, Or.inr ⟨_, ?_, touches⟩⟩
      exact (mem_readerIncludes selection wrapper _).mpr ⟨s, member, inside, rfl⟩

section restored

variable {root : Place UInt8} {mode : Mode} {selection : List Text}

/-- An archive is gone through exactly if some of the selection is in it. -/
theorem restoreArchive_asked (m : Member)
    (asked : normalizeIncludes selection = [] ∨
      (normalizeIncludes selection).filterMap (translate m.wrapper) ≠ []) :
    restoreArchive root mode selection m =
      let includes := normalizeIncludes ((normalizeIncludes selection).filterMap (translate m.wrapper))
      ((walked m includes).foldl
        (extractEntry root (archiveRewriter mode selection m.wrapper) includes) ⟨[], []⟩).extracted := by
  unfold restoreArchive
  simp only
  rw [if_neg]
  simp only [Bool.and_eq_true, Bool.not_eq_true', List.isEmpty_eq_false_iff, List.isEmpty_iff, not_and]
  intro some_
  exact asked.resolve_left some_

theorem restoreArchive_unasked (m : Member)
    (unasked : ¬ (normalizeIncludes selection = [] ∨
      (normalizeIncludes selection).filterMap (translate m.wrapper) ≠ [])) :
    restoreArchive root mode selection m = [] := by
  rw [not_or, not_not] at unasked
  unfold restoreArchive
  simp [unasked.1, unasked.2]

theorem mem_restoreArchive (m : Member) (out : TreeEntry × Place UInt8)
    (member : out ∈ restoreArchive root mode selection m) :
    out.1 ∈ m.archive.entries ∧ Reads selection m.wrapper out.1.path ∧
      isUnsafeArchivePath out.1.path = false ∧
      ∃ text, archiveRewriter mode selection m.wrapper out.1.path = some text ∧
        out.2 = dest root text := by
  by_cases asked : normalizeIncludes selection = [] ∨
      (normalizeIncludes selection).filterMap (translate m.wrapper) ≠ []
  · rw [restoreArchive_asked m asked] at member
    rcases extracted_placed _ _ out member with none_ | ⟨listed, passes, placed⟩
    · cases none_
    · exact ⟨(walked_part m _).subset listed, (reads_iff _ _ _).mp ⟨asked, passes.1⟩, passes.2, placed⟩
  · rw [restoreArchive_unasked m asked] at member
    cases member

theorem restoreArchive_part (root : Place UInt8) (mode : Mode) (selection : List Text) (m : Member) :
    ∃ part : List TreeEntry,
    part.Sublist m.archive.entries ∧
      (restoreArchive root mode selection m).map Prod.fst = part := by
  by_cases asked : normalizeIncludes selection = [] ∨
      (normalizeIncludes selection).filterMap (translate m.wrapper) ≠ []
  · rw [restoreArchive_asked m asked]
    obtain ⟨part, sub, same⟩ := extracted_part root (archiveRewriter mode selection m.wrapper) _
      (walked m _) ⟨[], []⟩
    exact ⟨part, sub.trans (walked_part m _), same⟩
  · rw [restoreArchive_unasked m asked]
    exact ⟨[], List.nil_sublist _, rfl⟩

theorem restoreArchive_complete (m : Member) (name : LegalName m.wrapper) (whole : slash ∉ m.wrapper)
    (e : TreeEntry) (listed : e ∈ m.archive.entries) (file : e.kind ≠ .folder)
    (reads : Reads selection m.wrapper e.path) (safe : isUnsafeArchivePath e.path = false) :
    (e, dest root (shown m.wrapper e.path)) ∈ restoreArchive root .alternateAbs selection m := by
  obtain ⟨asked, reached⟩ := (reads_iff _ _ _).mpr reads
  have part := (walked_part m (normalizeIncludes
    ((normalizeIncludes selection).filterMap (translate m.wrapper)))).subset
  rw [restoreArchive_asked m asked]
  exact extracted_all _ _ (fun e => shown m.wrapper e.path) (fun _ _ => rfl)
    (fun _ member => absurd member List.not_mem_nil)
    (fun l member link e other => not_below_link root m name whole l e (part member) link (part other))
    e (mem_walked m _ e listed file reached) ⟨reached, safe⟩

/-- Some file is extracted where one is kept. -/
theorem restoreArchive_some (m : Member) (e : TreeEntry) (listed : e ∈ m.archive.entries)
    (file : e.kind ≠ .folder) (kept : Kept mode selection m.wrapper e.path) :
    ∃ out ∈ restoreArchive root mode selection m, out.1.kind ≠ .folder := by
  obtain ⟨reads, safe, found⟩ := kept
  obtain ⟨asked, reached⟩ := (reads_iff _ _ _).mpr reads
  obtain ⟨text, found⟩ := Option.ne_none_iff_exists'.mp found
  rw [restoreArchive_asked m asked]
  exact extracted_some _ _ rfl e (mem_walked m _ e listed file reached) ⟨reached, safe⟩ text found file

theorem mem_files (snapshot : Snapshot) (item : Item) :
    item ∈ files root mode selection snapshot ↔ item.entry.kind ≠ .folder ∧
      ∃ m ∈ snapshot.members, item.wrapper = m.wrapper ∧
        (item.entry, item.at_) ∈ restoreArchive root mode selection m := by
  simp only [files, restoreSnapshot, List.mem_filter, List.mem_flatMap, List.mem_map,
    decide_eq_true_eq]
  constructor
  · rintro ⟨⟨m, member, out, extracted, rfl⟩, file⟩
    exact ⟨file, m, member, rfl, extracted⟩
  · rintro ⟨file, m, member, same, extracted⟩
    refine ⟨⟨m, member, _, extracted, ?_⟩, file⟩
    rw [← same]

theorem files_once (snapshot : Snapshot) :
    ((files root mode selection snapshot).map fun item => (item.wrapper, item.entry.path)).Nodup := by
  have part : ((files root mode selection snapshot).map fun item =>
      (item.wrapper, item.entry.path)).Sublist
      ((restoreSnapshot root mode selection snapshot).map fun item =>
        (item.wrapper, item.entry.path)) := List.filter_sublist.map _
  refine part.nodup ?_
  rw [restoreSnapshot, List.map_flatMap, List.nodup_flatMap]
  constructor
  · intro m _
    obtain ⟨entries, sub, same⟩ := restoreArchive_part root mode selection m
    have paths := (sub.map TreeEntry.path).nodup m.archive.distinct
    rw [← same, List.map_map] at paths
    rw [List.map_map]
    exact List.Nodup.of_map Prod.snd (by simpa [List.map_map, Function.comp_def] using paths)
  · have apart : snapshot.members.Pairwise fun m other => m.wrapper ≠ other.wrapper :=
      List.pairwise_map.mp snapshot.distinct
    refine apart.imp fun {m other} different key first second => ?_
    simp only [List.mem_map] at first second
    obtain ⟨_, ⟨out, _, rfl⟩, rfl⟩ := first
    obtain ⟨_, ⟨out, _, rfl⟩, same⟩ := second
    exact different (congrArg Prod.fst same).symm

theorem file_of_member (snapshot : Snapshot) (m : Member) (member : m ∈ snapshot.members) (item : Item)
    (there : item ∈ files root mode selection snapshot) (same : item.wrapper = m.wrapper) :
    (item.entry, item.at_) ∈ restoreArchive root mode selection m := by
  obtain ⟨_, other, listed, wrapper, extracted⟩ := (mem_files snapshot item).mp there
  have found : other = m :=
    List.inj_on_of_nodup_map snapshot.distinct listed member (wrapper.symm.trans same)
  rwa [found] at extracted

/-- A file that is kept in the structured mode is extracted, and only such a file. -/
theorem structured_file (snapshot : Snapshot) (m : Member) (member : m ∈ snapshot.members)
    (e : TreeEntry) (listed : e ∈ m.archive.entries) (file : e.kind ≠ .folder) :
    (∃ item ∈ files root .alternateAbs selection snapshot, item.wrapper = m.wrapper ∧ item.entry = e) ↔
      Reads selection m.wrapper e.path ∧ isUnsafeArchivePath e.path = false := by
  constructor
  · rintro ⟨item, there, wrapper, rfl⟩
    have extracted := file_of_member snapshot m member item there wrapper
    obtain ⟨_, reads, safe, _⟩ := mem_restoreArchive m _ extracted
    exact ⟨reads, safe⟩
  · rintro ⟨reads, safe⟩
    obtain ⟨name, whole⟩ := snapshot.legal m member
    have extracted : (e, dest root (shown m.wrapper e.path)) ∈
        restoreArchive root .alternateAbs selection m :=
      restoreArchive_complete m name whole e listed file reads safe
    exact ⟨⟨m.wrapper, e, _⟩, (mem_files snapshot _).mpr ⟨file, m, member, rfl, extracted⟩, rfl, rfl⟩

theorem structured_placed (snapshot : Snapshot) (item : Item)
    (there : item ∈ files root .alternateAbs selection snapshot) :
    item.at_ = dest root (shown item.wrapper item.entry.path) := by
  obtain ⟨_, m, _, wrapper, extracted⟩ := (mem_files snapshot item).mp there
  obtain ⟨_, _, _, text, found, placed⟩ := mem_restoreArchive m _ extracted
  cases found
  have at_ : item.at_ = dest root (shown m.wrapper item.entry.path) := placed
  rw [at_, wrapper]

theorem structured_apart (snapshot : Snapshot) :
    ((files root .alternateAbs selection snapshot).map Item.at_).Nodup := by
  have once : ((files root .alternateAbs selection snapshot).map fun item =>
      (item.wrapper, item.entry.path)).Nodup := files_once snapshot
  rw [List.nodup_map_iff_inj_on (List.Nodup.of_map _ once)]
  intro first member second other same
  refine List.inj_on_of_nodup_map once member other ?_
  obtain ⟨_, m, inside, wrapper, extracted⟩ := (mem_files snapshot first).mp member
  obtain ⟨_, m', inside', wrapper', extracted'⟩ := (mem_files snapshot second).mp other
  obtain ⟨name, whole⟩ := snapshot.legal m inside
  obtain ⟨name', whole'⟩ := snapshot.legal m' inside'
  have legal := m.archive.legal _ (mem_restoreArchive m _ extracted).1
  have legal' := m'.archive.legal _ (mem_restoreArchive m' _ extracted').1
  rw [structured_placed snapshot first member, structured_placed snapshot second other,
    wrapper, wrapper'] at same
  have texts := dest_injective root _ _ (shown_legal _ _ name whole legal)
    (shown_legal _ _ name' whole' legal') same
  obtain ⟨wrappers, paths⟩ := shown_injective _ _ _ _ whole whole' texts
  rw [wrapper, wrapper', wrappers, paths]

end restored

/-! The flat mode takes its prefix from paths with the wrapper and cuts it from
paths without. -/

theorem flat_cases (selection : List Text) (path text : Text)
    (found : rewriter .alternateFlat selection path = some text) :
    let top := commonAncestorDir (normalizeIncludes selection)
    (top = [] ∧ text = path) ∨ (top ≠ [] ∧ path = top ++ slash :: text) := by
  simp only [rewriter] at found
  split at found
  · next empty =>
      cases found
      rw [List.isEmpty_iff] at empty
      subst empty
      exact Or.inl ⟨rfl, rfl⟩
  · split at found
    · cases found
    · split at found
      · next none_ =>
          cases found
          exact Or.inl ⟨none_, rfl⟩
      · next some_ =>
          split at found
          · cases found
          · split at found
            · cases found
            · next moved =>
                cases found
                have inside : under (commonAncestorDir (normalizeIncludes selection)) path = true := by
                  by_contra outside
                  exact moved (if_neg outside)
                obtain ⟨rest, same⟩ := (under_iff _ _).mp inside
                refine Or.inr ⟨some_, ?_⟩
                conv_rhs => rw [same, trimUnder_append]
                exact same

theorem flat_misplaced (root : Place UInt8) (selection : List Text) (wrapper path text : Text)
    (name : LegalName wrapper) (whole : slash ∉ wrapper) (legal : LegalPath path)
    (found : rewriter .alternateFlat selection path = some text) :
    dest root text ≠ dest root (belongs .alternateFlat selection (shown wrapper path)) := by
  have full := shown_legal wrapper path name whole legal
  have longer : (shown wrapper path).length = wrapper.length + 1 + path.length := by
    simp [shown]
    omega
  intro same
  rcases flat_cases selection path text found with ⟨none_, rfl⟩ | ⟨some_, cut⟩
  · simp only [belongs, none_, if_true] at same
    have texts := congrArg List.length (dest_injective root _ _ legal full same)
    omega
  · simp only [belongs, some_, if_false] at same
    have legalText : LegalPath text := legal_rest _ text (cut ▸ legal)
    have lengths := congrArg List.length cut
    simp only [List.length_append, List.length_cons] at lengths
    by_cases inside : under (commonAncestorDir (normalizeIncludes selection)) (shown wrapper path) = true
    · obtain ⟨rest, split_⟩ := (under_iff _ _).mp inside
      have legalRest : LegalPath rest := legal_rest _ rest (split_ ▸ full)
      rw [split_, trimUnder_append] at same
      have texts := congrArg List.length (dest_injective root _ _ legalText legalRest same)
      have lengths' := congrArg List.length split_
      simp only [List.length_append, List.length_cons] at lengths'
      omega
    · rw [trimUnder, if_neg inside] at same
      have texts := congrArg List.length (dest_injective root _ _ legalText full same)
      omega

theorem flat_nothing (root : Place UInt8) (selection : List Text) (snapshot : Snapshot)
    (placed : ∀ item ∈ files root .alternateFlat selection snapshot,
      item.at_ = dest root (belongs .alternateFlat selection (shown item.wrapper item.entry.path))) :
    files root .alternateFlat selection snapshot = [] := by
  rw [List.eq_nil_iff_forall_not_mem]
  intro item there
  obtain ⟨_, m, member, wrapper, extracted⟩ := (mem_files snapshot item).mp there
  obtain ⟨listed, _, _, text, found, at_⟩ := mem_restoreArchive m _ extracted
  obtain ⟨name, whole⟩ := snapshot.legal m member
  have here := placed item there
  have at_ : item.at_ = dest root text := at_
  rw [at_, wrapper] at here
  exact flat_misplaced root selection m.wrapper _ text name whole (m.archive.legal _ listed) found here

/-- A restore to another folder extracts exactly the selected files, each where it
belongs, if and only if: structured, the reader's reading of the selection and its
refusals leave exactly the selected files; flat, there is no file to extract. -/
theorem selection_restored (root : Place UInt8) (mode : Mode) (selection : List Text)
    (snapshot : Snapshot) : Exact root mode selection snapshot ↔ Holds mode selection snapshot := by
  cases mode with
  | alternateAbs =>
      constructor
      · intro exact_ m member e listed file
        rw [← exact_.chosen m member e listed file]
        exact structured_file snapshot m member e listed file
      · intro holds
        refine ⟨fun m member e listed file => ?_, files_once snapshot,
          structured_placed snapshot, structured_apart snapshot⟩
        rw [structured_file snapshot m member e listed file]
        exact (holds m member e listed file).symm
  | alternateFlat =>
      constructor
      · intro exact_ m member e listed file
        have nothing := flat_nothing root selection snapshot exact_.placed
        refine ⟨fun chosen => ?_, fun kept => ?_⟩
        · obtain ⟨item, there, _⟩ := (exact_.chosen m member e listed file).mpr chosen
          rw [nothing] at there
          cases there
        · obtain ⟨out, extracted, kind⟩ : ∃ out ∈ restoreArchive root .alternateFlat selection m,
              out.1.kind ≠ .folder := restoreArchive_some m e listed file kept
          have there := (mem_files snapshot ⟨m.wrapper, out.1, out.2⟩).mpr
            ⟨kind, m, member, rfl, extracted⟩
          rw [nothing] at there
          cases there
      · intro holds
        have nothing : files root .alternateFlat selection snapshot = [] := by
          rw [List.eq_nil_iff_forall_not_mem]
          intro item there
          obtain ⟨file, m, member, wrapper, extracted⟩ := (mem_files snapshot item).mp there
          obtain ⟨listed, reads, safe, text, found, _⟩ := mem_restoreArchive m _ extracted
          refine (holds m member item.entry listed file).2 ⟨reads, safe, ?_⟩
          rw [found]
          nofun
        refine ⟨fun m member e listed file => ?_, files_once snapshot, ?_, ?_⟩
        · simp [nothing, (holds m member e listed file).1]
        · simp [nothing]
        · simp [nothing]

/-- The file f and the folder s, which holds the file g. -/
def smallArchive : Archive where
  entries := [⟨[0x66], .file⟩, ⟨[0x73], .folder⟩, ⟨[0x73, slash, 0x67], .file⟩]
  legal := by
    intro e member
    simp only [List.mem_cons, List.not_mem_nil, or_false] at member
    unfold LegalPath LegalName
    rcases member with rfl | rfl | rfl <;> decide
  distinct := by decide
  folders := by
    intro e member up inside
    obtain ⟨rest, same⟩ := (under_iff _ _).mp inside
    simp only [List.mem_cons, List.not_mem_nil, or_false] at member
    refine ⟨⟨[0x73], .folder⟩, by simp, ?_, rfl⟩
    rcases member with rfl | rfl | rfl
    · rcases up with _ | ⟨first, up⟩ <;> simp [slash] at same
    · rcases up with _ | ⟨first, up⟩ <;> simp [slash] at same
    · rcases up with _ | ⟨first, _ | ⟨second, _ | ⟨third, up⟩⟩⟩
      · simp [slash] at same
      · simp only [List.cons_append, List.cons.injEq] at same
        rw [← same.1]
      · simp [slash] at same
      · simp [slash] at same

def smallSnapshot : Snapshot where
  members := [⟨[0x44], smallArchive, false⟩]
  legal := by
    intro m member
    rw [List.mem_singleton.mp member]
    unfold LegalName
    decide
  distinct := by decide

/-- The wrapper D selected with D/s in it restores D/s/g only, and the flat mode
drops the selected D/s/g. -/
theorem wrapper_with_folder_incomplete :
    Chosen [[0x44], [0x44, slash, 0x73]] (shown [0x44] [0x66]) ∧
      (files ⟨true, 0, []⟩ .alternateAbs [[0x44], [0x44, slash, 0x73]] smallSnapshot).map
        (fun item => item.entry.path) = [[0x73, slash, 0x67]] ∧
      files ⟨true, 0, []⟩ .alternateFlat [[0x44, slash, 0x73, slash, 0x67]] smallSnapshot = [] ∧
      ¬ Exact ⟨true, 0, []⟩ .alternateAbs [[0x44], [0x44, slash, 0x73]] smallSnapshot ∧
      ¬ Exact ⟨true, 0, []⟩ .alternateFlat [[0x44, slash, 0x73, slash, 0x67]] smallSnapshot := by
  have chosen : Chosen [[0x44], [0x44, slash, 0x73]] (shown [0x44] [0x66]) :=
    Or.inr ⟨[0x44], by simp, Or.inr (by decide)⟩
  have below : Chosen [[0x44, slash, 0x73, slash, 0x67]] (shown [0x44] [0x73, slash, 0x67]) :=
    Or.inr ⟨_, List.mem_singleton.mpr rfl, Or.inl rfl⟩
  have extracted : (files ⟨true, 0, []⟩ .alternateAbs [[0x44], [0x44, slash, 0x73]]
      smallSnapshot).map (fun item => item.entry.path) = [[0x73, slash, 0x67]] := by decide +kernel
  have dropped : files ⟨true, 0, []⟩ .alternateFlat [[0x44, slash, 0x73, slash, 0x67]]
      smallSnapshot = [] := by decide +kernel
  refine ⟨chosen, extracted, dropped, fun exact_ => ?_, fun exact_ => ?_⟩
  · obtain ⟨item, there, _, entry⟩ := (exact_.chosen _ (List.mem_singleton.mpr rfl) ⟨[0x66], .file⟩
      (by simp [smallArchive]) nofun).mpr chosen
    have path := List.mem_map_of_mem (f := fun item : Item => item.entry.path) there
    rw [extracted, entry] at path
    simp at path
  · obtain ⟨item, there, _⟩ := (exact_.chosen _ (List.mem_singleton.mpr rfl)
      ⟨[0x73, slash, 0x67], .file⟩ (by simp [smallArchive]) nofun).mpr below
    rw [dropped] at there
    cases there

end ProxmoxBackup.RestoreSelection
