import ProxmoxBackup.LogRotation
import Mathlib.Data.List.Nodup

/-! A log keeps its lines through rotations in order: each second's files hold what its
rename brought, once, or cleanup took it. -/

namespace ProxmoxBackup.RotationKept

open TransitionSystem LogRotation

/-- Cleanup took the lines of a rotation. -/
def Lost (swept : List Line) (e : Slot) : Prop := ∀ line ∈ lines e.moved, line ∈ swept

/-- What a second's files are while its goroutine is at a phase. -/
def Held (swept : List Line) (e : Slot) : Phase → Prop
  | .started => e.gz = none ∧ (e.raw = none → Lost swept e)
  | .opened src => src = e.moved ∧ e.gz = none ∧ (e.raw = none → Lost swept e)
  | .created src =>
      src = e.moved ∧ (e.raw = none → Lost swept e) ∧ (e.gz = none → e.raw = none)
  | .copied =>
      (∀ content, e.gz = some content → content = e.moved) ∧
        (e.raw = none → Lost swept e) ∧ (e.gz = none → e.raw = none)
  | .failed => e.raw = none → Lost swept e
  | .cleaning | .sweeping _ _ | .ended =>
      (∀ content, e.gz = some content → content = e.moved) ∧ (e.raw = none ∨ e.gz = none) ∧
        (e.raw = none → e.gz = none → Lost swept e)

/-- One goroutine at most, and what its phase says. -/
structure Good (swept : List Line) (e : Slot) : Prop where
  raw : ∀ content, e.raw = some content → content = e.moved
  task : ∃ phase, (e.tasks = [phase] ∨ e.tasks = [] ∧ phase = .ended) ∧ Held swept e phase

theorem Lost.more {swept : List Line} {e : Slot} (lost : Lost swept e) (more : List Line) :
    Lost (swept ++ more) e := fun line among => List.mem_append_left _ (lost line among)

theorem Held.more {swept : List Line} {e : Slot} {phase : Phase} (held : Held swept e phase)
    (more : List Line) : Held (swept ++ more) e phase := by
  cases phase with
  | started => exact ⟨held.1, fun gone => (held.2 gone).more more⟩
  | opened src => exact ⟨held.1, held.2.1, fun gone => (held.2.2 gone).more more⟩
  | created src => exact ⟨held.1, fun gone => (held.2.1 gone).more more, held.2.2⟩
  | copied => exact ⟨held.1, fun gone => (held.2.1 gone).more more, held.2.2⟩
  | failed => exact fun gone => (held gone).more more
  | cleaning | sweeping listed left | ended =>
      exact ⟨held.1, held.2.1, fun raw gz => (held.2.2 raw gz).more more⟩

/-- A second's files are read as what its rename brought, or not at all once it is lost. -/
theorem good_visible {swept : List Line} {e : Slot} (good : Good swept e) :
    e.visible = e.moved ∨ e.visible = [] ∧ Lost swept e := by
  obtain ⟨raw, phase, tasks, held⟩ := good
  have half : e.half = phase.half := by
    rcases tasks with one | ⟨none_, is⟩
    · simp [Slot.half, one]
    · simp [Slot.half, none_, is, Phase.half]
  unfold Slot.visible
  rw [half]
  cases rawIs : e.raw with
  | some content =>
      have same := raw content rawIs
      left
      cases phase with
      | started | opened src => simp_all [Held]
      | created src | copied | failed => simp_all [Held, Phase.half]
      | cleaning | sweeping listed left | ended => simp_all [Held]
  | none =>
      cases phase with
      | started | opened src => simp_all [Held]
      | created src | copied | failed => simp_all [Held, Phase.half]
      | cleaning | sweeping listed left | ended =>
          cases gzIs : e.gz with
          | none => simp_all [Held]
          | some content =>
              left
              simp_all [Held, Phase.half]

/-! Steps of one second's goroutine. -/

/-- What a step of the goroutine leaves as it was. -/
structure Same (e after : Slot) : Prop where
  stamp : after.stamp = e.stamp
  moved : after.moved = e.moved
  gone : e.raw = none → after.raw = none

theorem good_one {swept : List Line} {e : Slot} {i : Nat} {phase : Phase} (good : Good swept e)
    (at_ : e.tasks[i]? = some phase) :
    i = 0 ∧ e.tasks = [phase] ∧ Held swept e phase := by
  obtain ⟨_, other, tasks, held⟩ := good
  rcases tasks with one | ⟨none_, _⟩
  · rw [one] at at_
    cases i with
    | zero => cases at_; exact ⟨rfl, one, held⟩
    | succ i => simp at at_
  · rw [none_] at at_
    simp at at_

/-- The slot of a goroutine that goes on holds what its new phase says. -/
theorem good_go {swept : List Line} {e after : Slot} {phase next : Phase}
    (one : e.tasks = [phase]) (tasks : after.tasks = (e.go 0 next).tasks)
    (raw : ∀ content, after.raw = some content → content = after.moved)
    (held : Held swept after next) : Good swept after where
  raw := raw
  task := ⟨next, .inl (by rw [tasks, Slot.go, one]; rfl), held⟩

theorem good_opens {swept : List Line} {e after : Slot} {i : Nat} {ok : Bool}
    (good : Good swept e) (went : e.compress i .opens ok = some after) :
    Good swept after ∧ Same e after := by
  unfold Slot.compress at went
  cases at_ : e.tasks[i]? with
  | none => simp [at_] at went
  | some phase =>
      obtain ⟨rfl, one, held⟩ := good_one good at_
      cases phase with
      | started =>
          obtain ⟨clean, lost⟩ := held
          have settled : Held swept e .cleaning := by
            refine ⟨fun content is => ?_, .inr clean, fun gone _ => lost gone⟩
            rw [clean] at is
            cases is
          cases rawIs : e.raw with
          | none =>
              simp only [at_, rawIs, Option.some.injEq] at went
              subst went
              exact ⟨good_go one rfl good.raw settled, rfl, rfl, id⟩
          | some src =>
              have is := good.raw src rawIs
              simp only [at_, rawIs, Option.some.injEq] at went
              subst went
              cases ok with
              | true => exact ⟨good_go one rfl good.raw ⟨is, clean, lost⟩, rfl, rfl, id⟩
              | false => exact ⟨good_go one rfl good.raw settled, rfl, rfl, id⟩
      | _ => simp [at_] at went

theorem good_creates {swept : List Line} {e after : Slot} {i : Nat} {ok : Bool}
    (good : Good swept e) (went : e.compress i .creates ok = some after) :
    Good swept after ∧ Same e after := by
  unfold Slot.compress at went
  cases at_ : e.tasks[i]? with
  | none => simp [at_] at went
  | some phase =>
      obtain ⟨rfl, one, held⟩ := good_one good at_
      cases phase with
      | opened src =>
          obtain ⟨is, clean, lost⟩ := held
          simp only [at_, Option.some.injEq] at went
          subst went
          cases ok with
          | true => exact ⟨good_go one rfl good.raw ⟨is, lost, fun none_ => by cases none_⟩,
              rfl, rfl, id⟩
          | false =>
              refine ⟨good_go one rfl good.raw ⟨fun content gz => ?_, .inr clean,
                fun gone _ => lost gone⟩, rfl, rfl, id⟩
              exact absurd (gz.symm.trans clean) (by simp)
      | _ => simp [at_] at went

theorem good_copies {swept : List Line} {e after : Slot} {i : Nat} {content : Content} {ok : Bool}
    (good : Good swept e) (went : e.compress i (.copies content) ok = some after) :
    Good swept after ∧ Same e after := by
  unfold Slot.compress at went
  cases at_ : e.tasks[i]? with
  | none => simp [at_] at went
  | some phase =>
      obtain ⟨rfl, one, held⟩ := good_one good at_
      cases phase with
      | created src =>
          obtain ⟨is, lost, gz⟩ := held
          have alone : e.tasks.length = 1 := by rw [one]; rfl
          simp only [at_, alone] at went
          split at went
          · cases went
          · next exact_ =>
              cases went
              have gone : (e.gz.map fun _ => content) = none → e.gz = none :=
                fun none_ => Option.map_eq_none_iff.mp none_
              cases ok with
              | false => exact ⟨good_go one rfl good.raw lost, rfl, rfl, id⟩
              | true =>
                  refine ⟨good_go one rfl good.raw ⟨fun made mapped => ?_, lost,
                    fun none_ => gz (gone none_)⟩, rfl, rfl, id⟩
                  obtain ⟨_, _, same⟩ := Option.map_eq_some_iff.mp mapped
                  simp only [decide_true, Bool.and_true, Bool.true_and, decide_eq_true_eq,
                    not_not] at exact_
                  exact same.symm.trans (exact_.trans is)
      | _ => simp [at_] at went

theorem good_dropsGz {swept : List Line} {e after : Slot} {i : Nat} {ok : Bool}
    (good : Good swept e) (went : e.compress i .dropsGz ok = some after)
    (gone : ok = true ∨ e.gz = none) : Good swept after ∧ Same e after := by
  unfold Slot.compress at went
  cases at_ : e.tasks[i]? with
  | none => simp [at_] at went
  | some phase =>
      obtain ⟨rfl, one, held⟩ := good_one good at_
      cases phase with
      | failed =>
          simp only [at_, Option.some.injEq] at went
          subst went
          have clean : (if ok then none else e.gz) = none := by
            cases gone with
            | inl removed => rw [removed]; rfl
            | inr none_ => rw [none_, ite_self]
          refine ⟨good_go one rfl good.raw ⟨fun content is => ?_, .inr clean,
            fun raw _ => held raw⟩, rfl, rfl, id⟩
          exact absurd (is.symm.trans clean) (by simp)
      | _ => simp [at_] at went

theorem good_dropsRaw {swept : List Line} {e after : Slot} {i : Nat} {ok : Bool}
    (good : Good swept e) (went : e.compress i .dropsRaw ok = some after)
    (gone : ok = true ∨ e.raw = none) : Good swept after ∧ Same e after := by
  unfold Slot.compress at went
  cases at_ : e.tasks[i]? with
  | none => simp [at_] at went
  | some phase =>
      obtain ⟨rfl, one, held⟩ := good_one good at_
      cases phase with
      | copied =>
          obtain ⟨whole, lost, gz⟩ := held
          simp only [at_, Option.some.injEq] at went
          subst went
          have removed : (if ok then none else e.raw) = none := by
            cases gone with
            | inl removed => rw [removed]; rfl
            | inr none_ => rw [none_, ite_self]
          refine ⟨good_go one rfl (fun content is => ?_)
            ⟨whole, .inl removed, fun _ none_ => lost (gz none_)⟩, rfl, rfl, fun _ => removed⟩
          exact absurd (is.symm.trans removed) (by simp)
      | _ => simp [at_] at went

/-- compressLogFile starts no cleanup of its own. -/
theorem compress_sweeping {e after : Slot} {i : Nat} {move : Move} {ok : Bool}
    {listed left : List Name} (went : e.compress i move ok = some after)
    (sweeps : .sweeping listed left ∈ after.tasks) : .sweeping listed left ∈ e.tasks := by
  have next : ∃ phase, after.tasks = e.tasks.set i phase ∧ phase ≠ .sweeping listed left := by
    unfold Slot.compress at went
    split at went
    · split at went
      · cases went
        exact ⟨_, rfl, by cases ok <;> simp⟩
      · cases went
        exact ⟨_, rfl, by simp⟩
    · cases went
      cases ok with
      | true => exact ⟨_, rfl, by simp⟩
      | false => exact ⟨_, rfl, by simp⟩
    · split at went
      · cases went
      · cases went
        exact ⟨_, rfl, by cases ok <;> simp⟩
    · cases went
      exact ⟨_, rfl, by simp⟩
    · cases went
      exact ⟨_, rfl, by simp⟩
    · cases went
  obtain ⟨phase, tasks, other⟩ := next
  rw [tasks] at sweeps
  rcases List.mem_or_eq_of_mem_set sweeps with before | is
  · exact before
  · exact absurd is.symm other

/-- A file that cleanup removes is of a second whose original is gone, or it is the
original. -/
theorem good_remove {swept : List Line} {e : Slot} (good : Good swept e) {n : Name}
    (more : List Line) (behind : n.stamp = e.stamp → n.gz = true → e.raw = none)
    (taken : lines ((e.file n).getD []) ⊆ more) :
    Good (swept ++ more) (e.remove n) ∧ Same e (e.remove n) := by
  obtain ⟨raw, phase, tasks, held⟩ := good
  have same := held.more more
  unfold Slot.remove
  by_cases here : n.stamp = e.stamp
  · rw [if_pos here]
    cases gz : n.gz with
    | true =>
        have gone := behind here gz
        have file : e.file n = e.gz := by rw [Slot.file, if_pos here, if_pos gz]
        rw [file] at taken
        refine ⟨⟨raw, phase, tasks, ?_⟩, rfl, rfl, id⟩
        cases phase with
        | started => exact ⟨rfl, same.2⟩
        | opened src => exact ⟨same.1, rfl, same.2.2⟩
        | created src => exact ⟨same.1, same.2.1, fun _ => gone⟩
        | copied => exact ⟨(fun _ is => by cases is), same.2.1, fun _ => gone⟩
        | failed => exact same
        | cleaning | sweeping listed left | ended =>
            refine ⟨(fun _ is => by cases is), .inl gone, fun _ _ => ?_⟩
            cases gzIs : e.gz with
            | none => exact same.2.2 gone gzIs
            | some content =>
                have is := held.1 content gzIs
                rw [gzIs, is] at taken
                exact fun line among => List.mem_append_right _ (taken among)
    | false =>
        have file : e.file n = e.raw := by rw [Slot.file, if_pos here, gz]; rfl
        rw [file] at taken
        have lost : (e.raw = none → Lost (swept ++ more) e) → Lost (swept ++ more) e := by
          intro before
          cases rawIs : e.raw with
          | none => exact before rawIs
          | some content =>
              have is := raw content rawIs
              rw [rawIs, is] at taken
              exact fun line among => List.mem_append_right _ (taken among)
        refine ⟨⟨(fun _ is => by cases is), phase, tasks, ?_⟩, rfl, rfl, fun _ => rfl⟩
        cases phase with
        | started => exact ⟨same.1, fun _ => lost same.2⟩
        | opened src => exact ⟨same.1, same.2.1, fun _ => lost same.2.2⟩
        | created src => exact ⟨same.1, fun _ => lost same.2.1, fun _ => rfl⟩
        | copied => exact ⟨same.1, fun _ => lost same.2.1, fun _ => rfl⟩
        | failed => exact fun _ => lost same
        | cleaning | sweeping listed left | ended =>
            exact ⟨same.1, .inl rfl, fun _ clean => lost fun gone => same.2.2 gone clean⟩
  · rw [if_neg here]
    exact ⟨⟨raw, phase, tasks, same⟩, rfl, rfl, id⟩

/-! The invariant of a run in order. -/

/-- A name that cleanup is to remove: at least maxFiles newer ones were listed with it, and
it stands for its second alone. -/
def Doomed (c : Config) (slots : List Slot) (listed : List Name) (n : Name) : Prop :=
  c.maxFiles ≤ (newer n listed).length ∧
    ∃ e ∈ slots, e.stamp = n.stamp ∧ (n.gz = true → e.raw = none)

structure Sound (c : Config) (s : State) : Prop where
  sorted : s.slots.Pairwise (·.stamp < ·.stamp)
  written : s.written = lines (s.slots.flatMap (·.moved)) ++ lines (s.current.getD [])
  numbers : s.written.Pairwise (·.number < ·.number)
  below : ∀ line ∈ s.written, line.number < s.count
  opened : s.opened = true → s.current.isSome = true
  slots : ∀ e ∈ s.slots, Good s.swept e
  sweeps : ∀ e ∈ s.slots, ∀ listed left, .sweeping listed left ∈ e.tasks →
    ∀ n ∈ left, Doomed c s.slots listed n

variable {c : Config} {s : State}

theorem flatMap_sublist {α β : Type} {f g : α → List β} (list : List α)
    (each : ∀ x ∈ list, (f x).Sublist (g x)) : (list.flatMap f).Sublist (list.flatMap g) := by
  induction list with
  | nil => exact List.Sublist.refl _
  | cons x rest ih =>
      rw [List.flatMap_cons, List.flatMap_cons]
      exact (each x (List.mem_cons_self ..)).append
        (ih fun y among => each y (List.mem_cons_of_mem _ among))

theorem lines_append (first second : Content) :
    lines (first ++ second) = lines first ++ lines second := List.filter_append ..

/-- What the invariant says of the log. -/
theorem sound_kept (sound : Sound c s) : Kept s where
  distinct := sound.numbers
  order := by
    rw [sound.written, log, lines_append]
    refine List.Sublist.append (List.Sublist.filter _ ?_) (List.Sublist.refl _)
    refine flatMap_sublist s.slots fun e listed => ?_
    rcases good_visible (sound.slots e listed) with same | ⟨gone, _⟩
    · rw [same]
    · rw [gone]
      exact List.nil_sublist _
  found := by
    intro line among kept
    rw [sound.written] at among
    rw [log, lines_append]
    rcases List.mem_append.mp among with rotated | current
    · obtain ⟨moved, whole⟩ := List.mem_filter.mp rotated
      obtain ⟨e, listed, inside⟩ := List.mem_flatMap.mp moved
      rcases good_visible (sound.slots e listed) with same | ⟨_, lost⟩
      · refine List.mem_append_left _ (List.mem_filter.mpr ⟨?_, whole⟩)
        exact List.mem_flatMap.mpr ⟨e, listed, by rwa [same]⟩
      · exact absurd (lost line (List.mem_filter.mpr ⟨inside, whole⟩)) kept
    · exact List.mem_append_right _ current

/-! Steps that change the files of a second. -/

theorem unique_stamp {slots : List Slot} (sorted : slots.Pairwise (·.stamp < ·.stamp)) {e x : Slot}
    (first : e ∈ slots) (second : x ∈ slots) (same : x.stamp = e.stamp) : x = e := by
  have nodup : (slots.map (·.stamp)).Nodup :=
    List.pairwise_map.mpr (sorted.imp fun lt => Nat.ne_of_lt lt)
  exact List.inj_on_of_nodup_map nodup second first same

theorem slotAt_some {slots : List Slot} {stamp : Nat} {e : Slot}
    (here : slotAt slots stamp = some e) : e ∈ slots ∧ e.stamp = stamp :=
  ⟨List.mem_of_find?_eq_some here, by simpa using List.find?_some here⟩

theorem doomed_map {slots : List Slot} {g : Slot → Slot} (same : ∀ e ∈ slots, Same e (g e))
    {listed : List Name} {n : Name} (doomed : Doomed c slots listed n) :
    Doomed c (slots.map g) listed n := by
  obtain ⟨many, e, among, stamp, gone⟩ := doomed
  have kept := same e among
  exact ⟨many, g e, List.mem_map_of_mem among, kept.stamp.trans stamp,
    fun gz => kept.gone (gone gz)⟩

/-- A change of the rotated files keeps the invariant where it keeps each second's. -/
theorem sound_slots (sound : Sound c s) (g : Slot → Slot) (more : List Line)
    (good : ∀ e ∈ s.slots, Good (s.swept ++ more) (g e) ∧ Same e (g e))
    (sweeps : ∀ e ∈ s.slots, ∀ listed left, .sweeping listed left ∈ (g e).tasks →
      ∀ n ∈ left, Doomed c s.slots listed n) :
    Sound c { s with slots := s.slots.map g, swept := s.swept ++ more } where
  sorted := by
    refine List.pairwise_map.mpr (sound.sorted.imp_of_mem fun {a b} first second lt => ?_)
    rwa [(good a first).2.stamp, (good b second).2.stamp]
  written := by
    have moved : (s.slots.map g).flatMap (·.moved) = s.slots.flatMap (·.moved) := by
      rw [List.flatMap_map]
      exact List.flatMap_congr fun e among => (good e among).2.moved
    rw [sound.written, moved]
  numbers := sound.numbers
  below := sound.below
  opened := sound.opened
  slots := by
    intro after among
    obtain ⟨e, listed, rfl⟩ := List.mem_map.mp among
    exact (good e listed).1
  sweeps := by
    intro after among listed left sweeping n doomed
    obtain ⟨e, inside, rfl⟩ := List.mem_map.mp among
    exact doomed_map (fun e among => (good e among).2) (sweeps e inside listed left sweeping n doomed)

theorem replace_same (sorted : s.slots.Pairwise (·.stamp < ·.stamp)) {e after : Slot}
    (among : e ∈ s.slots) (same : Same e after) :
    ∀ x ∈ s.slots, Same x (if x.stamp = after.stamp then after else x) := by
  intro x listed
  by_cases at_ : x.stamp = after.stamp
  · have is := unique_stamp sorted among listed (at_.trans same.stamp)
    rw [if_pos at_, is]
    exact same
  · rw [if_neg at_]
    exact ⟨rfl, rfl, id⟩

theorem sound_replace (sound : Sound c s) {e after : Slot} (among : e ∈ s.slots)
    (good : Good s.swept after) (same : Same e after)
    (sweeps : ∀ listed left, .sweeping listed left ∈ after.tasks →
      ∀ n ∈ left, Doomed c s.slots listed n) :
    Sound c { s with slots := replace after s.slots } := by
  have changed := sound_slots sound (fun x => if x.stamp = after.stamp then after else x) []
  rw [List.append_nil] at changed
  refine changed (fun x listed => ⟨?_, replace_same sound.sorted among same x listed⟩) ?_
  · by_cases at_ : x.stamp = after.stamp
    · simpa only [if_pos at_] using good
    · simpa only [if_neg at_] using sound.slots x listed
  · intro x listed names left sweeping
    by_cases at_ : x.stamp = after.stamp
    · simp only [if_pos at_] at sweeping
      exact sweeps names left sweeping
    · simp only [if_neg at_] at sweeping
      exact sound.sweeps x listed names left sweeping

theorem sound_compress (sound : Sound c s) {stamp i : Nat} {move : Move} {ok : Bool} {e after : Slot}
    (ordered : inOrder c s (.compress stamp i move ok) = true)
    (here : slotAt s.slots stamp = some e) (went : e.compress i move ok = some after) :
    Sound c { s with slots := replace after s.slots } := by
  obtain ⟨among, _⟩ := slotAt_some here
  have good := sound.slots e among
  have both : Good s.swept after ∧ Same e after := by
    cases move with
    | opens => exact good_opens good went
    | creates => exact good_creates good went
    | copies content => exact good_copies good went
    | dropsGz =>
        refine good_dropsGz good went ?_
        simpa [inOrder, here] using ordered
    | dropsRaw =>
        refine good_dropsRaw good went ?_
        simpa [inOrder, here] using ordered
  refine sound_replace sound among both.1 both.2 fun listed left sweeping => ?_
  exact sound.sweeps e among listed left (compress_sweeping went sweeping)

/-! Cleanup's list. -/

/-- A name among all but the last maxFiles of a list by the second has as many newer. -/
theorem newer_many {listed : List Name} (sorted : listed.Pairwise (·.stamp < ·.stamp)) {k : Nat}
    {n : Name} (among : n ∈ listed.take k) : listed.length - k ≤ (newer n listed).length := by
  have parts := List.take_append_drop k listed
  rw [← parts] at sorted
  have behind := (List.pairwise_append.mp sorted).2.2 n among
  have all : (listed.drop k).filter (n.stamp < ·.stamp) = listed.drop k :=
    List.filter_eq_self.mpr fun m later => decide_eq_true (behind m later)
  have split : newer n listed = (listed.take k).filter (n.stamp < ·.stamp) ++ listed.drop k := by
    rw [← all, newer, ← List.filter_append, parts]
  rw [split, List.length_append, List.length_drop]
  exact Nat.le_add_left _ _

/-- Where no original stands beside its .gz, the names are in the order of their seconds. -/
theorem rotatedLogs_sorted (sorted : s.slots.Pairwise (·.stamp < ·.stamp))
    (single : ∀ e ∈ s.slots, e.raw = none ∨ e.gz = none) :
    (rotatedLogs s.slots).Pairwise (·.stamp < ·.stamp) := by
  refine List.pairwise_flatMap.mpr ⟨fun e among => ?_, ?_⟩
  · rcases single e among with none_ | none_
    · cases gz : e.gz <;> simp [Slot.files, none_, gz]
    · cases raw : e.raw <;> simp [Slot.files, none_, raw]
  · refine sorted.imp fun {a b} lt n first m second => ?_
    have stamps : ∀ (e : Slot), ∀ n ∈ e.files, n.stamp = e.stamp := by
      intro e n listed
      unfold Slot.files at listed
      rcases List.mem_append.mp listed with raw | gz
      · split at raw <;> simp_all
      · split at gz <;> simp_all
    rwa [stamps a n first, stamps b m second]

theorem listed_slot {slots : List Slot} (single : ∀ e ∈ slots, e.raw = none ∨ e.gz = none)
    {n : Name} (listed : n ∈ rotatedLogs slots) :
    ∃ e ∈ slots, e.stamp = n.stamp ∧ (n.gz = true → e.raw = none) := by
  obtain ⟨e, among, inside⟩ := List.mem_flatMap.mp listed
  refine ⟨e, among, ?_⟩
  unfold Slot.files at inside
  rcases List.mem_append.mp inside with raw | gz
  · split at raw <;> simp_all
  · split at gz
    · next some_ =>
        rcases single e among with none_ | none_
        · simp_all
        · simp_all
    · simp_all

theorem sound_list (sound : Sound c s) {stamp i : Nat} {ok : Bool} {e after : Slot}
    (ordered : inOrder c s (.list stamp i ok) = true)
    (here : slotAt s.slots stamp = some e)
    (went : e.list c (rotatedLogs s.slots) i ok = some after) :
    Sound c { s with slots := replace after s.slots } := by
  obtain ⟨among, _⟩ := slotAt_some here
  have single : ∀ e ∈ s.slots, e.raw = none ∨ e.gz = none := by
    simpa [inOrder] using ordered
  unfold Slot.list at went
  split at went
  · next at_ =>
      obtain ⟨rfl, one, held⟩ := good_one (sound.slots e among) at_
      cases went
      refine sound_replace sound among ?_ ⟨rfl, rfl, id⟩ ?_
      · cases ok with
        | true => exact good_go one rfl (sound.slots e among).raw held
        | false => exact good_go one rfl (sound.slots e among).raw held
      · intro listed left sweeping n doomed
        simp only [Slot.go, one, List.set_cons_zero, List.mem_singleton] at sweeping
        cases ok with
        | false => cases sweeping
        | true =>
            cases sweeping
            unfold filesToRemove at doomed
            split at doomed
            · cases doomed
            · next long =>
                have many := newer_many (rotatedLogs_sorted sound.sorted single) doomed
                exact ⟨by omega, listed_slot single (List.mem_of_mem_take doomed)⟩
  · cases went

theorem sound_sweep (sound : Sound c s) {stamp i : Nat} {e : Slot} {listed left : List Name}
    {n : Name} (here : slotAt s.slots stamp = some e) (next : e.next i = some (listed, n, left))
    (slots : List Slot) (is : slots = replace (e.go i (.sweeping listed left)) s.slots) :
    Sound c { s with slots := slots } ∧
      Sound c { s with
        slots := slots.map (·.remove n), swept := s.swept ++ sweptBy c listed n slots } := by
  obtain ⟨among, _⟩ := slotAt_some here
  unfold Slot.next at next
  split at next
  · next at_ =>
      cases next
      obtain ⟨rfl, one, held⟩ := good_one (sound.slots e among) at_
      have doomed := sound.sweeps e among listed (n :: left) (by rw [one]; exact List.mem_singleton_self _)
      have moved : Sound c { s with slots := slots } := by
        rw [is]
        refine sound_replace sound among (good_go one rfl (sound.slots e among).raw held)
          ⟨rfl, rfl, id⟩ ?_
        intro names rest sweeping m later
        simp only [Slot.go, one, List.set_cons_zero, List.mem_singleton] at sweeping
        cases sweeping
        exact doomed m (List.mem_cons_of_mem _ later)
      refine ⟨moved, ?_⟩
      have same : Same e (e.go 0 (.sweeping listed left)) := ⟨rfl, rfl, id⟩
      obtain ⟨many, x, inside, stamp, gone⟩ : Doomed c slots listed n := by
        rw [is]
        exact doomed_map (replace_same sound.sorted among same)
          (doomed n (List.mem_cons_self ..))
      refine sound_slots moved (·.remove n) _ (fun y later => ?_) ?_
      · refine good_remove (moved.slots y later) _ (fun same gz => ?_) ?_
        · rw [unique_stamp moved.sorted inside later (same.symm.trans stamp.symm)]
          exact gone gz
        · rw [sweptBy, if_pos many]
          intro line taken
          obtain ⟨held, whole⟩ := List.mem_filter.mp taken
          exact List.mem_filter.mpr ⟨List.mem_flatMap.mpr ⟨y, later, held⟩, whole⟩
      · intro y later names rest sweeping
        have same : (y.remove n).tasks = y.tasks := by
          unfold Slot.remove
          split
          · split <;> rfl
          · rfl
        rw [same] at sweeping
        exact moved.sweeps y later names rest sweeping
  · cases next

/-! Write. -/

theorem sound_reopen (sound : Sound c s) (fate : Fate) : Sound c (reopenOrDie fate s) := by
  unfold reopenOrDie
  split
  · exact { sound with opened := fun _ => rfl }
  · exact { sound with opened := fun opened => by cases opened }

theorem sound_append (sound : Sound c s) (fate : Fate) (message : List UInt8) :
    Sound c (append fate message s) := by
  have below : ∀ line ∈ s.written, line.number < s.count + 1 :=
    fun line among => Nat.lt_succ_of_lt (sound.below line among)
  unfold append
  split
  · next opened =>
      obtain ⟨content, current⟩ := Option.isSome_iff_exists.mp (sound.opened opened)
      have written := sound.written
      rw [current] at written
      cases fate.taken with
      | none =>
          refine { sound with
            written := ?_, numbers := ?_, below := ?_, opened := fun _ => by rw [current]; rfl }
          · simp only [current, Option.map_some, Option.getD_some, lines_append]
            rw [written, List.append_assoc]
            rfl
          · refine List.pairwise_append.mpr ⟨sound.numbers, List.pairwise_singleton _ _, ?_⟩
            intro line among new is
            rw [List.mem_singleton.mp is]
            exact sound.below line among
          · intro line among
            rcases List.mem_append.mp among with old | new
            · exact below line old
            · rw [List.mem_singleton.mp new]
              exact Nat.lt_succ_self _
      | some n =>
          refine { sound with
            written := ?_, below := below, opened := fun _ => by rw [current]; rfl }
          have torn : lines [⟨s.count, message.take n, false⟩] = [] := rfl
          simp only [current, Option.map_some, Option.getD_some, lines_append]
          rw [written, torn, List.append_nil]
          rfl
  · exact { sound with below := below }

/-- Whether the old file was open makes no difference. -/
theorem reopen_closed (fate : Fate) (s : State) :
    reopenOrDie fate s = reopenOrDie fate { s with opened := false } := by
  unfold reopenOrDie
  split <;> rfl

/-- A later second's files stand behind all others. -/
theorem moveTo_last {slots : List Slot} {stamp : Nat} (later : ∀ e ∈ slots, e.stamp < stamp)
    (content : Content) (tasks : List Phase) :
    moveTo stamp content tasks slots = slots ++ [⟨stamp, some content, none, tasks, content⟩] := by
  induction slots with
  | nil => rfl
  | cons e rest ih =>
      have first := later e (List.mem_cons_self ..)
      rw [moveTo, if_neg (by omega), if_neg (by omega),
        ih fun x among => later x (List.mem_cons_of_mem _ among)]
      rfl

theorem sound_moved (sound : Sound c s) (fate : Fate) {content : Content}
    (current : s.current = some content) (later : ∀ e ∈ s.slots, e.stamp < fate.stamp) :
    Sound c { s with
      opened := false
      current := none, slots := moveTo fate.stamp content (launched c fate) s.slots } := by
  rw [moveTo_last later]
  have started : launched c fate = [] ∨ launched c fate = [.started] := by
    unfold launched
    split
    · exact .inl rfl
    · exact .inr rfl
  refine { sound with
    sorted := ?_, written := ?_, opened := (fun opened => by cases opened), slots := ?_, sweeps := ?_ }
  · refine List.pairwise_append.mpr ⟨sound.sorted, List.pairwise_singleton _ _, ?_⟩
    intro e among new is
    rw [List.mem_singleton.mp is]
    exact later e among
  · have written := sound.written
    rw [current] at written
    simp only [List.flatMap_append, List.flatMap_cons, List.flatMap_nil, List.append_nil,
      lines_append]
    rw [written]
    exact (List.append_nil _).symm
  · intro e among
    rcases List.mem_append.mp among with old | new
    · exact sound.slots e old
    · rw [List.mem_singleton.mp new]
      refine ⟨fun moved is => (Option.some.inj is).symm, ?_⟩
      rcases started with none_ | one
      · exact ⟨.ended, .inr ⟨none_, rfl⟩, (fun _ is => by cases is), .inr rfl,
          fun gone => by cases gone⟩
      · exact ⟨.started, .inl one, rfl, fun gone => by cases gone⟩
  · intro e among listed left sweeping n doomed
    rcases List.mem_append.mp among with old | new
    · obtain ⟨many, x, inside, rest⟩ := sound.sweeps e old listed left sweeping n doomed
      exact ⟨many, x, List.mem_append_left _ inside, rest⟩
    · rw [List.mem_singleton.mp new] at sweeping
      rcases started with none_ | one
      · rw [none_] at sweeping
        cases sweeping
      · rw [one] at sweeping
        cases List.mem_singleton.mp sweeping

theorem sound_rotate (sound : Sound c s) (fate : Fate)
    (later : fate.renamed = true → ∀ e ∈ s.slots, e.stamp < fate.stamp) :
    Sound c (rotate c fate s) := by
  unfold rotate
  split
  · next content current =>
      split
      · next renamed =>
          have moved := sound_moved sound fate current (later renamed)
          split
          · exact { moved with opened := fun _ => rfl }
          · rw [reopen_closed]
            exact sound_reopen moved fate
      · exact sound_reopen sound fate
  · exact sound_reopen sound fate

theorem sound_step {after : State} {action : Action} (sound : Sound c s)
    (ordered : inOrder c s action = true) (went : step c s action = some after) :
    Sound c after := by
  cases action with
  | write message fate =>
      cases went
      refine sound_append ?_ fate message
      split
      · next full =>
          refine sound_rotate sound fate fun renamed => ?_
          simpa [inOrder, renamed, Nat.not_lt.mpr full] using ordered
      · exact sound
  | compress stamp i move ok =>
      obtain ⟨e, here, later⟩ := Option.bind_eq_some_iff.mp went
      obtain ⟨moved, compressed, is⟩ := Option.bind_eq_some_iff.mp later
      cases is
      exact sound_compress sound ordered here compressed
  | list stamp i ok =>
      obtain ⟨e, here, later⟩ := Option.bind_eq_some_iff.mp went
      obtain ⟨moved, listed, is⟩ := Option.bind_eq_some_iff.mp later
      cases is
      exact sound_list sound ordered here listed
  | sweep stamp i ok =>
      obtain ⟨e, here, later⟩ := Option.bind_eq_some_iff.mp went
      obtain ⟨⟨listed, n, left⟩, next, is⟩ := Option.bind_eq_some_iff.mp later
      have both := sound_sweep sound here next _ rfl
      cases ok with
      | true => cases is; exact both.2
      | false => cases is; exact both.1

theorem sound_start (started : Started s) : Sound c s := by
  obtain ⟨written, swept⟩ := started.nothing
  obtain ⟨content, current, old⟩ := started.current
  have none_ : lines (s.slots.flatMap (·.moved)) = [] := by
    refine List.filter_eq_nil_iff.mpr fun line among => ?_
    obtain ⟨e, listed, inside⟩ := List.mem_flatMap.mp among
    exact List.filter_eq_nil_iff.mp (started.slots e listed).2.2.1 line inside
  constructor
  case sorted => exact started.sorted
  case written => rw [written, none_, current, Option.getD_some, old, List.append_nil]
  case numbers => rw [written]; exact List.Pairwise.nil
  case below => rw [written]; exact fun _ among => by cases among
  case opened => exact fun _ => by rw [current]; rfl
  case slots =>
    intro e among
    obtain ⟨tasks, single, lines_, raw, gz⟩ := started.slots e among
    refine ⟨raw, .ended, .inr ⟨tasks, rfl⟩, gz, single, fun _ _ => ?_⟩
    intro line inside
    rw [lines_] at inside
    cases inside
  case sweeps =>
    intro e among listed left sweeping
    rw [(started.slots e among).1] at sweeping
    cases sweeping

theorem sound_invariant (c : Config) :
    Invariant ((logger c).restrict fun s action => inOrder c s action = true) (Sound c) where
  start _ started := sound_start started
  step _ _ _ sound went := sound_step sound went.2 went.1

/-- In every state that rotations in order lead to, each line is found once and in order,
but for those of files that cleanup removed with at least maxFiles newer ones. -/
theorem rotated_lines_kept (c : Config)
    (reached : Reachable ((logger c).restrict fun s action => inOrder c s action = true) s) :
    Kept s :=
  sound_kept ((sound_invariant c).reachable reached)

/-! A log of one-byte files. -/

def small : Config := ⟨1, 5, false⟩

def empty : State := ⟨true, 0, some [], [], 0, [], []⟩

/-- A second in which all file operations succeed. -/
def goes (stamp : Nat) : Fate := ⟨stamp, true, true, true, true, none⟩

theorem empty_started : Started empty :=
  ⟨rfl, ⟨[], rfl, rfl⟩, List.Pairwise.nil, (fun _ among => by cases among), rfl, rfl⟩

/-- A rotation that is compressed and cleaned up before the next. -/
def inTurn : List Action :=
  [.write [65] (goes 7), .write [66] (goes 7), .compress 7 0 .opens true,
    .compress 7 0 .creates true, .compress 7 0 (.copies [⟨0, [65], true⟩]) true,
    .compress 7 0 .dropsRaw true, .list 7 0 true, .write [67] (goes 8)]

theorem rotated_in_turn : ∃ s,
    Reachable ((logger small).restrict fun s action => inOrder small s action = true) s ∧ Kept s ∧
      lines (log s) = [⟨0, [65], true⟩, ⟨1, [66], true⟩, ⟨2, [67], true⟩] := by
  let after : State := ⟨true, 1, some [⟨2, [67], true⟩],
    [⟨7, none, some [⟨0, [65], true⟩], [.sweeping [⟨7, true⟩] []], [⟨0, [65], true⟩]⟩,
      ⟨8, some [⟨1, [66], true⟩], none, [.started], [⟨1, [66], true⟩]⟩], 3,
    [⟨0, [65], true⟩, ⟨1, [66], true⟩, ⟨2, [67], true⟩], []⟩
  have executed : inTurn.foldlM
      (checked (step small) fun s action => inOrder small s action = true) empty = some after := by
    decide
  have reached : Reachable ((logger small).restrict fun s action => inOrder small s action = true)
      after := reachable_of_checked (fun _ _ _ taken => taken) empty_started executed
  exact ⟨after, reached, rotated_lines_kept small reached, by decide⟩

/-- Two rotations in one second: the second renames over the file of the first. -/
theorem renamed_over : ∃ s, Reachable (logger small) s ∧ ¬ Kept s := by
  let lost : State := ⟨true, 1, some [⟨2, [67], true⟩],
    [⟨7, some [⟨1, [66], true⟩], none, [.started, .started], [⟨1, [66], true⟩]⟩], 3,
    [⟨0, [65], true⟩, ⟨1, [66], true⟩, ⟨2, [67], true⟩], []⟩
  have run : Run (logger small) empty
      [.write [65] (goes 7), .write [66] (goes 7), .write [67] (goes 7)] lost :=
    run_of_foldlM (step small) (fun _ _ _ taken => taken) (by decide)
  refine ⟨lost, ⟨empty, _, empty_started, run⟩, fun kept => ?_⟩
  exact absurd (kept.found ⟨0, [65], true⟩ (by decide) (by decide)) (by decide)

end ProxmoxBackup.RotationKept
