import Mathlib.Data.List.Basic

/-! Paths read lexically, over any alphabet: a text is split at its separators,
"." and empty segments are skipped, and ".." leaves the folder it stands in. A
text joined to a root stays below it exactly if no ".." has more names before it
than it may leave; one that does not stay leads out of some root. -/

namespace ProxmoxBackup.LexicalPath

variable {α : Type*}

/-- The separators, and the character that "." and ".." are made of. -/
structure Lexis (α : Type*) where
  sep : α → Bool
  dot : α

/-- A cleaned path: `ups` counts the ".." a path that is not rooted begins with. -/
structure Place (α : Type*) where
  rooted : Bool
  ups : Nat
  names : List (List α)
  deriving DecidableEq

def Place.parent (here : Place α) : Place α :=
  if here.names = [] then
    if here.rooted then here else { here with ups := here.ups + 1 }
  else { here with names := here.names.dropLast }

section

variable [DecidableEq α]

def Lexis.idle (lex : Lexis α) (segment : List α) : Prop :=
  segment = [] ∨ segment = [lex.dot]

instance (lex : Lexis α) (segment : List α) : Decidable (lex.idle segment) :=
  inferInstanceAs (Decidable (_ ∨ _))

def Lexis.enter (lex : Lexis α) (here : Place α) (segment : List α) : Place α :=
  if lex.idle segment then here
  else if segment = [lex.dot, lex.dot] then here.parent
  else { here with names := here.names ++ [segment] }

def Lexis.segments (lex : Lexis α) (text : List α) : List (List α) := text.splitOnP lex.sep

def Lexis.join (lex : Lexis α) (root : Place α) (text : List α) : Place α :=
  (lex.segments text).foldl lex.enter root

/-- `depth` names lie between the root and where the segments start. -/
def Lexis.stays (lex : Lexis α) : Nat → List (List α) → Bool
  | depth, [] => 0 < depth
  | depth, segment :: rest =>
      if lex.idle segment then lex.stays depth rest
      else if segment = [lex.dot, lex.dot] then 0 < depth && lex.stays (depth - 1) rest
      else lex.stays (depth + 1) rest

structure Below (root here : Place α) : Prop where
  rooted : here.rooted = root.rooted
  ups : here.ups = root.ups
  names : ∃ more, more ≠ [] ∧ here.names = root.names ++ more

instance (root here : Place α) : Decidable (Below root here) :=
  decidable_of_iff (here.rooted = root.rooted ∧ here.ups = root.ups ∧
    root.names <+: here.names ∧ here.names ≠ root.names) <| by
    constructor
    · rintro ⟨rooted, ups, ⟨more, names⟩, other⟩
      refine ⟨rooted, ups, more, ?_, names.symm⟩
      rintro rfl
      exact other (by simpa using names.symm)
    · rintro ⟨rooted, ups, more, some_, names⟩
      refine ⟨rooted, ups, ⟨more, names.symm⟩, ?_⟩
      rw [names]
      simpa using some_

end

/-- The folders entered so far are `more`. -/
def Place.inside (root : Place α) (more : List (List α)) : Place α :=
  { root with names := root.names ++ more }

theorem parent_inside (root : Place α) (more : List (List α)) (some_ : more ≠ []) :
    (root.inside more).parent = root.inside more.dropLast := by
  have filled : root.names ++ more ≠ [] := by simp [some_]
  simp [Place.parent, Place.inside, filled, List.dropLast_append_of_ne_nil some_]

theorem foldl_stays [DecidableEq α] (lex : Lexis α) (root : Place α) (segments more : List (List α))
    (stays : lex.stays more.length segments = true) :
    Below root (segments.foldl lex.enter (root.inside more)) := by
  induction segments generalizing more with
  | nil =>
      simp only [Lexis.stays, decide_eq_true_eq] at stays
      exact ⟨rfl, rfl, more, List.ne_nil_of_length_pos stays, rfl⟩
  | cons segment rest ih =>
      rw [List.foldl_cons]
      simp only [Lexis.stays] at stays
      unfold Lexis.enter
      split at stays
      · next idle =>
          rw [if_pos idle]
          exact ih more stays
      · next busy =>
          rw [if_neg busy]
          split at stays
          · next leaves =>
              rw [if_pos leaves]
              simp only [Bool.and_eq_true, decide_eq_true_eq] at stays
              rw [parent_inside root more (List.ne_nil_of_length_pos stays.1)]
              exact ih _ (by simpa using stays.2)
          · next enters =>
              rw [if_neg enters]
              have deeper : ({ root.inside more with
                  names := (root.inside more).names ++ [segment] } : Place α) =
                  root.inside (more ++ [segment]) := by
                simp [Place.inside]
              rw [deeper]
              exact ih _ (by simpa using stays)

theorem below_join [DecidableEq α] (lex : Lexis α) (root : Place α) (text : List α)
    (stays : lex.stays 0 (lex.segments text) = true) : Below root (lex.join root text) := by
  have start : root.inside [] = root := by simp [Place.inside]
  have below := foldl_stays lex root (lex.segments text) [] stays
  rwa [start] at below

/-! A root whose name is no segment of the text is never entered again. -/

def Astray (name : List α) (here : Place α) : Prop :=
  here.rooted = true ∧ here.names.head? ≠ some name

theorem astray_enter [DecidableEq α] (lex : Lexis α) (name : List α) (here : Place α) (segment : List α)
    (other : segment ≠ name) (astray : Astray name here) : Astray name (lex.enter here segment) := by
  obtain ⟨rooted, head⟩ := astray
  unfold Lexis.enter
  split
  · exact ⟨rooted, head⟩
  · split
    · unfold Place.parent
      split
      · exact ⟨rooted, head⟩
      · refine ⟨rooted, ?_⟩
        show here.names.dropLast.head? ≠ some name
        cases names : here.names with
        | nil => simp
        | cons first rest =>
            cases rest with
            | nil => simp
            | cons second more => simpa [names] using head
    · refine ⟨rooted, ?_⟩
      show (here.names ++ [segment]).head? ≠ some name
      cases names : here.names with
      | nil => simpa using other
      | cons first rest => simpa [names] using head

theorem foldl_astray [DecidableEq α] (lex : Lexis α) (name : List α) (segments : List (List α)) (here : Place α)
    (others : ∀ segment ∈ segments, segment ≠ name) (astray : Astray name here) :
    Astray name (segments.foldl lex.enter here) := by
  induction segments generalizing here with
  | nil => exact astray
  | cons segment rest ih =>
      rw [List.foldl_cons]
      exact ih _ (fun more member => others more (List.mem_cons_of_mem _ member))
        (astray_enter lex name here segment (others segment (List.mem_cons_self ..)) astray)

theorem astray_not_below (name : List α) (here : Place α) (astray : Astray name here) :
    ¬ Below ⟨true, 0, [name]⟩ here := by
  rintro ⟨_, _, more, _, names⟩
  apply astray.2
  rw [names]
  rfl

theorem foldl_leaves [DecidableEq α] (lex : Lexis α) (name : List α) (segments more : List (List α))
    (others : ∀ segment ∈ segments, segment ≠ name)
    (leaves : lex.stays more.length segments = false) :
    ¬ Below ⟨true, 0, [name]⟩ (segments.foldl lex.enter ((⟨true, 0, [name]⟩ : Place α).inside more)) := by
  induction segments generalizing more with
  | nil =>
      simp only [Lexis.stays, decide_eq_false_iff_not, Nat.not_lt, Nat.le_zero,
        List.length_eq_zero_iff] at leaves
      subst leaves
      rintro ⟨_, _, more, some_, names⟩
      exact some_ (by simpa [Place.inside] using names)
  | cons segment rest ih =>
      have later : ∀ segment ∈ rest, segment ≠ name :=
        fun more member => others more (List.mem_cons_of_mem _ member)
      rw [List.foldl_cons]
      simp only [Lexis.stays] at leaves
      unfold Lexis.enter
      split at leaves
      · next idle =>
          rw [if_pos idle]
          exact ih more later leaves
      · next busy =>
          rw [if_neg busy]
          split at leaves
          · next up =>
              rw [if_pos up]
              simp only [Bool.and_eq_false_iff, decide_eq_false_iff_not, Nat.not_lt,
                Nat.le_zero, List.length_eq_zero_iff] at leaves
              by_cases empty : more = []
              · subst empty
                -- The root itself is left, and nothing later leads back into it.
                refine astray_not_below name _ (foldl_astray lex name rest _ later ?_)
                exact ⟨rfl, by simp [Place.parent, Place.inside]⟩
              · rw [parent_inside _ more empty]
                refine ih _ later ?_
                rcases leaves with none_ | deeper
                · exact absurd none_ empty
                · simpa using deeper
          · next enters =>
              rw [if_neg enters]
              have deeper : ({ (⟨true, 0, [name]⟩ : Place α).inside more with
                  names := ((⟨true, 0, [name]⟩ : Place α).inside more).names ++ [segment] } :
                    Place α) = (⟨true, 0, [name]⟩ : Place α).inside (more ++ [segment]) := by
                simp [Place.inside]
              rw [deeper]
              exact ih _ later (by simpa using leaves)

theorem segment_length (sep : α → Bool) (text segment : List α)
    (member : segment ∈ text.splitOnP sep) : segment.length ≤ text.length := by
  induction text generalizing segment with
  | nil =>
      simp only [List.splitOnP_nil, List.mem_singleton] at member
      simp [member]
  | cons first rest ih =>
      rw [List.splitOnP_cons_eq_if_modifyHead] at member
      split at member
      · rcases List.mem_cons.mp member with empty | later
        · simp [empty]
        · exact Nat.le_trans (ih segment later) (Nat.le_succ _)
      · cases parts : rest.splitOnP sep with
        | nil => exact absurd parts (List.splitOnP_ne_nil _ _)
        | cons head tail =>
            rw [parts] at member
            rcases List.mem_cons.mp member with grown | later
            · have short := ih head (by simp [parts])
              simpa [grown] using short
            · exact Nat.le_trans (ih segment (by simp [parts, later])) (Nat.le_succ _)

/-- A text that does not stay leads out of some root. -/
theorem leaves_some_root [DecidableEq α] (lex : Lexis α) (text : List α)
    (leaves : lex.stays 0 (lex.segments text) = false) :
    ∃ root : Place α, ¬ Below root (lex.join root text) := by
  let name := List.replicate (text.length + 1) lex.dot
  refine ⟨⟨true, 0, [name]⟩, ?_⟩
  have others : ∀ segment ∈ lex.segments text, segment ≠ name := by
    rintro segment member rfl
    have short := segment_length lex.sep text _ member
    simp only [name, List.length_replicate] at short
    omega
  simpa [Lexis.join, Place.inside] using foldl_leaves lex name (lex.segments text) [] others leaves

end ProxmoxBackup.LexicalPath
