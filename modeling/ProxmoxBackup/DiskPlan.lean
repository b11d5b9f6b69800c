import Mathlib.Data.List.Pairwise
import Mathlib.Data.List.Sort
import Mathlib.Data.List.TakeWhile
import ProxmoxBackup.Tiling

/-! planDiskReads of machinebackuplib/partition_plan.go: the partitions of a disk
and the space between them, front to back. Positions are only compared, so they
are natural numbers. -/

namespace ProxmoxBackup.DiskPlan

open Tiling

structure Partition where
  StartByte : Nat
  EndByte : Nat
  RequiresVSS : Bool
  Skip : Bool
  Letter : String
  Number : Nat
  FileSystem : String
  deriving DecidableEq

inductive PlanError where
  | endsBeforeStart (start stop : Nat)
  | overlaps (start curpos : Nat)
  | pastEnd (start stop total : Nat)
  deriving DecidableEq

/-- Space between partitions. -/
def space (start stop : Nat) : Partition := ⟨start, stop, false, false, "", 0, ""⟩

/-- The loop of planDiskReads over what is left of the sorted partitions. -/
def planFrom (total curpos : Nat) : List Partition → Except PlanError (List Partition)
  | [] => .ok (if curpos < total then [space curpos total] else [])
  | P :: rest =>
      if P.EndByte < P.StartByte then .error (.endsBeforeStart P.StartByte P.EndByte)
      else if P.StartByte < curpos then .error (.overlaps P.StartByte curpos)
      else if P.EndByte > total then .error (.pastEnd P.StartByte P.EndByte total)
      else match planFrom total P.EndByte rest with
        | .error e => .error e
        | .ok plan =>
            .ok ((if P.StartByte > curpos then [space curpos P.StartByte] else []) ++ P :: plan)

def startsFirst (a b : Partition) : Prop := a.StartByte ≤ b.StartByte

instance : DecidableRel startsFirst := fun a b => Nat.decLe a.StartByte b.StartByte

/-- slices.SortStableFunc by StartByte -/
def sortParts (parts : List Partition) : List Partition := parts.insertionSort startsFirst

def planDiskReads (parts : List Partition) (total : Nat) : Except PlanError (List Partition) :=
  planFrom total 0 (sortParts parts)

/-! What is refused. -/

/-- Two partitions share a byte. -/
def Overlap (p q : Partition) : Prop :=
  ∃ b, p.StartByte ≤ b ∧ b < p.EndByte ∧ q.StartByte ≤ b ∧ b < q.EndByte

/-- What is to be refused: a partition that ends before it starts or past the
disk's end, or two that overlap. -/
def Bad (parts : List Partition) (total : Nat) : Prop :=
  (∃ p ∈ parts, p.EndByte < p.StartByte ∨ total < p.EndByte) ∨
    ¬parts.Pairwise fun p q => ¬Overlap p q

/-- An empty partition inside another one, or at its start and listed after it. -/
def EmptyInside (parts : List Partition) : Prop :=
  ∃ p e, e.StartByte = e.EndByte ∧ e.StartByte < p.EndByte ∧
    (p ∈ parts ∧ e ∈ parts ∧ p.StartByte < e.StartByte ∨
      p.StartByte = e.StartByte ∧ [p, e].Sublist parts)

/-- Sorted and laid end to end over the disk: the partitions as they are, and
otherwise only space between them. -/
structure GoodPlan (parts : List Partition) (total : Nat) (plan : List Partition) : Prop where
  tiles : Tiles Partition.StartByte Partition.EndByte 0 plan total
  entries : ∃ spaces, plan.Perm (parts ++ spaces) ∧
    ∀ s ∈ spaces, ∃ start stop, start < stop ∧ s = space start stop

structure PlansWell (parts : List Partition) (total : Nat) : Prop where
  refuses : (∃ e, planDiskReads parts total = .error e) ↔ Bad parts total
  plans : ∀ plan, planDiskReads parts total = .ok plan → GoodPlan parts total plan

theorem planFrom_good (total curpos : Nat) (parts plan : List Partition) (fits : curpos ≤ total)
    (planned : planFrom total curpos parts = .ok plan) :
    Tiles Partition.StartByte Partition.EndByte curpos plan total ∧
      ∃ spaces, plan.Perm (parts ++ spaces) ∧
        ∀ s ∈ spaces, ∃ start stop, start < stop ∧ s = space start stop := by
  induction parts generalizing curpos plan with
  | nil =>
      cases planned
      split
      · next before =>
          refine ⟨⟨rfl, fits, rfl⟩, _, List.Perm.refl _, fun s member => ?_⟩
          exact ⟨curpos, total, before, List.mem_singleton.mp member⟩
      · refine ⟨show curpos = total by omega, [], List.Perm.refl _, fun s member => ?_⟩
        exact absurd member List.not_mem_nil
  | cons P rest ih =>
      unfold planFrom at planned
      split at planned
      · cases planned
      · next proper =>
          split at planned
          · cases planned
          · next after =>
              split at planned
              · cases planned
              · next inside =>
                  split at planned
                  · cases planned
                  · next tail tailPlanned =>
                      obtain ⟨tiles, spaces, perm, gaps⟩ := ih P.EndByte tail (by omega) tailPlanned
                      cases planned
                      split
                      · next gap =>
                          refine ⟨⟨rfl, Nat.le_of_lt gap, rfl, by omega, tiles⟩,
                            space curpos P.StartByte :: spaces, ?_, fun s member => ?_⟩
                          · refine (List.Perm.cons _ (List.Perm.cons P perm)).trans ?_
                            exact (@List.perm_middle _ (space curpos P.StartByte) (P :: rest) spaces).symm
                          · rcases List.mem_cons.mp member with rfl | member
                            · exact ⟨curpos, P.StartByte, gap, rfl⟩
                            · exact gaps s member
                      · refine ⟨⟨by omega, by omega, tiles⟩, spaces, List.Perm.cons P perm, gaps⟩

/-- The loop goes through when each partition starts where the one before it has
ended, or later. -/
theorem planFrom_ok_iff (total curpos : Nat) (parts : List Partition) :
    (∃ plan, planFrom total curpos parts = .ok plan) ↔
      (∀ p ∈ parts, p.StartByte ≤ p.EndByte ∧ p.EndByte ≤ total ∧ curpos ≤ p.StartByte) ∧
        parts.Pairwise fun p q => p.EndByte ≤ q.StartByte := by
  induction parts generalizing curpos with
  | nil =>
      refine iff_of_true ⟨_, rfl⟩ ⟨fun p member => ?_, List.Pairwise.nil⟩
      exact absurd member List.not_mem_nil
  | cons P rest ih =>
      have tail := ih P.EndByte
      rw [List.pairwise_cons]
      unfold planFrom
      split
      · next before =>
          refine iff_of_false (fun ⟨_, planned⟩ => by cases planned) fun ⟨all, _⟩ => ?_
          have here := all P List.mem_cons_self
          omega
      · next proper =>
          split
          · next over_ =>
              refine iff_of_false (fun ⟨_, planned⟩ => by cases planned) fun ⟨all, _⟩ => ?_
              have here := all P List.mem_cons_self
              omega
          · next after =>
              split
              · next past =>
                  refine iff_of_false (fun ⟨_, planned⟩ => by cases planned) fun ⟨all, _⟩ => ?_
                  have here := all P List.mem_cons_self
                  omega
              · next inside =>
                  have same : (∃ plan, (match planFrom total P.EndByte rest with
                      | .error e => (.error e : Except PlanError (List Partition))
                      | .ok plan => .ok ((if P.StartByte > curpos then
                          [space curpos P.StartByte] else []) ++ P :: plan)) = .ok plan) ↔
                      ∃ plan, planFrom total P.EndByte rest = .ok plan := by
                    cases planFrom total P.EndByte rest with
                    | error e => exact iff_of_false (fun ⟨_, no⟩ => by cases no) (fun ⟨_, no⟩ => by cases no)
                    | ok plan => exact iff_of_true ⟨_, rfl⟩ ⟨_, rfl⟩
                  rw [same, tail]
                  constructor
                  · rintro ⟨all, pairs⟩
                    refine ⟨fun p member => ?_, fun q member => (all q member).2.2, pairs⟩
                    rcases List.mem_cons.mp member with rfl | member
                    · omega
                    · have later := all p member
                      omega
                  · rintro ⟨all, here, pairs⟩
                    refine ⟨fun p member => ?_, pairs⟩
                    have later := all p (List.mem_cons_of_mem P member)
                    exact ⟨later.1, later.2.1, here p member⟩

/-! The order of the partitions. -/

instance : Std.Total startsFirst := ⟨fun a b => Nat.le_total a.StartByte b.StartByte⟩

instance : IsTrans Partition startsFirst := ⟨fun _ _ _ first second => Nat.le_trans first second⟩

theorem sortParts_perm (parts : List Partition) : (sortParts parts).Perm parts :=
  List.perm_insertionSort startsFirst parts

theorem sortParts_sorted (parts : List Partition) : (sortParts parts).Pairwise startsFirst :=
  List.pairwise_insertionSort startsFirst parts

/-- Partitions with one start stay in the order in which they are listed. -/
theorem sortParts_stable (parts : List Partition) (k : Nat) :
    (sortParts parts).filter (fun p => p.StartByte = k) =
      parts.filter fun p => p.StartByte = k := by
  induction parts with
  | nil => rfl
  | cons first rest ih =>
      unfold sortParts at ih ⊢
      rw [List.insertionSort_cons_eq_take_drop, List.filter_append]
      -- what is put in front of the inserted one starts before it
      have front : ∀ p ∈ (rest.insertionSort startsFirst).takeWhile fun b => ¬startsFirst first b,
          p.StartByte < first.StartByte := by
        intro p member
        have before := List.mem_takeWhile_imp member
        rw [decide_eq_true_eq] at before
        exact Nat.lt_of_not_le before
      by_cases here : first.StartByte = k
      · have none_ : ((rest.insertionSort startsFirst).takeWhile fun b =>
            ¬startsFirst first b).filter (fun p => p.StartByte = k) = [] := by
          refine List.filter_eq_nil_iff.mpr fun p member => ?_
          have before := front p member
          simp
          omega
        have whole : ((rest.insertionSort startsFirst).dropWhile fun b =>
            ¬startsFirst first b).filter (fun p => p.StartByte = k) =
              rest.filter fun p => p.StartByte = k := by
          rw [← ih]
          conv_rhs => rw [← List.takeWhile_append_dropWhile (p := fun b => ¬startsFirst first b)
            (l := rest.insertionSort startsFirst), List.filter_append, none_, List.nil_append]
        rw [none_, List.nil_append, List.filter_cons_of_pos (by simpa using here),
          List.filter_cons_of_pos (by simpa using here), whole]
      · rw [List.filter_cons_of_neg (by simpa using here), ← List.filter_append,
          List.takeWhile_append_dropWhile, ih, List.filter_cons_of_neg (by simpa using here)]

theorem pair_stable (parts : List Partition) (p q : Partition)
    (same : p.StartByte = q.StartByte) : [p, q].Sublist (sortParts parts) ↔ [p, q].Sublist parts := by
  have both : [p, q].filter (fun r => r.StartByte = q.StartByte) = [p, q] := by
    simp [same]
  constructor
  · intro within
    have part := within.filter fun r => decide (r.StartByte = q.StartByte)
    rw [both, sortParts_stable] at part
    exact part.trans List.filter_sublist
  · intro within
    have part := within.filter fun r => decide (r.StartByte = q.StartByte)
    rw [both, ← sortParts_stable] at part
    exact part.trans List.filter_sublist

theorem overlap_symm {p q : Partition} (overlap : Overlap p q) : Overlap q p := by
  obtain ⟨b, first, second, third, fourth⟩ := overlap
  exact ⟨b, third, fourth, first, second⟩

theorem no_overlap_perm {xs ys : List Partition} (perm : xs.Perm ys) :
    (xs.Pairwise fun p q => ¬Overlap p q) ↔ ys.Pairwise fun p q => ¬Overlap p q :=
  perm.pairwise_iff fun apart overlap => apart (overlap_symm overlap)

/-- Refused are the bad ones, and those with an empty partition behind the start
of another one. -/
theorem refused_iff (parts : List Partition) (total : Nat) :
    (∃ e, planDiskReads parts total = .error e) ↔ Bad parts total ∨ EmptyInside parts := by
  have accepted := planFrom_ok_iff total 0 (sortParts parts)
  have mem (p : Partition) : p ∈ sortParts parts ↔ p ∈ parts := (sortParts_perm parts).mem_iff
  have sorted := sortParts_sorted parts
  have split : (∃ e, planDiskReads parts total = .error e) ↔
      ¬∃ plan, planFrom total 0 (sortParts parts) = .ok plan := by
    unfold planDiskReads
    cases planFrom total 0 (sortParts parts) with
    | error e => exact iff_of_true ⟨e, rfl⟩ fun ⟨_, no⟩ => by cases no
    | ok plan => exact iff_of_false (fun ⟨_, no⟩ => by cases no) fun none_ => none_ ⟨plan, rfl⟩
  rw [split, accepted]
  constructor
  · intro refused
    by_contra neither
    rw [not_or] at neither
    obtain ⟨fine, outside⟩ := neither
    rw [Bad, not_or, not_not, ← no_overlap_perm (sortParts_perm parts)] at fine
    obtain ⟨each, apart⟩ := fine
    refine refused ⟨fun p member => ?_, ?_⟩
    · have here : ¬(p.EndByte < p.StartByte ∨ total < p.EndByte) :=
        fun bad => each ⟨p, (mem p).mp member, bad⟩
      omega
    · refine List.pairwise_iff_forall_sublist.mpr fun {p q} within => ?_
      by_contra after
      have order : p.StartByte ≤ q.StartByte := List.pairwise_iff_forall_sublist.mp sorted within
      have alone := List.pairwise_iff_forall_sublist.mp apart within
      have proper : ¬(q.EndByte < q.StartByte) := fun bad =>
        each ⟨q, (mem q).mp (within.subset (by simp)), Or.inl bad⟩
      -- the second one starts inside the first, so it must be empty
      have empty : q.StartByte = q.EndByte := by
        by_contra filled
        exact alone ⟨q.StartByte, order, by omega, le_rfl, by omega⟩
      refine outside ⟨p, q, empty, by omega, ?_⟩
      by_cases same : p.StartByte = q.StartByte
      · exact Or.inr ⟨same, (pair_stable parts p q same).mp within⟩
      · exact Or.inl ⟨(mem p).mp (within.subset (by simp)),
          (mem q).mp (within.subset (by simp)), by omega⟩
  · rintro (bad | ⟨p, e, empty, before, inside⟩) ⟨each, apart⟩
    · rcases bad with ⟨p, member, bad⟩ | overlapping
      · have here := each p ((mem p).mpr member)
        omega
      · refine overlapping ((no_overlap_perm (sortParts_perm parts)).mp ?_)
        refine apart.imp fun {p q} ordered overlap => ?_
        obtain ⟨b, -, first, second, -⟩ := overlap
        omega
    · rcases inside with ⟨here, there, starts⟩ | ⟨same, within⟩
      · have both : (sortParts parts).Pairwise fun p q =>
            p.EndByte ≤ q.StartByte ∨ q.EndByte ≤ p.StartByte := apart.imp fun ordered => Or.inl ordered
        have : Std.Symm fun p q : Partition =>
            p.EndByte ≤ q.StartByte ∨ q.EndByte ≤ p.StartByte := ⟨fun _ _ => Or.symm⟩
        have different : p ≠ e := by
          rintro rfl
          omega
        have pair := both.forall ((mem p).mpr here) ((mem e).mpr there) different
        omega
      · have pair := List.pairwise_iff_forall_sublist.mp apart ((pair_stable parts p e same).mpr within)
        omega

/-- The plan is right for every list but one that is refused only because an
empty partition is behind the start of another one. -/
theorem plansWell_iff (parts : List Partition) (total : Nat) :
    PlansWell parts total ↔ Bad parts total ∨ ¬EmptyInside parts := by
  have refused := refused_iff parts total
  constructor
  · intro well
    by_cases empty : EmptyInside parts
    · exact Or.inl (well.refuses.mp (refused.mpr (Or.inr empty)))
    · exact Or.inr empty
  · intro condition
    refine ⟨refused.trans ?_, fun plan planned => ?_⟩
    · refine ⟨fun either => ?_, Or.inl⟩
      rcases either with bad | empty
      · exact bad
      · exact condition.resolve_right fun none_ => none_ empty
    · obtain ⟨tiles, spaces, perm, gaps⟩ :=
        planFrom_good total 0 (sortParts parts) plan (Nat.zero_le _) planned
      exact ⟨tiles, spaces, perm.trans ((sortParts_perm parts).append_right spaces), gaps⟩

/-- A partition of bytes, without a drive letter. -/
def plain (start stop : Nat) : Partition := ⟨start, stop, false, false, "", 1, ""⟩

/-- Listed before the empty partition, the full one is refused as overlapping it;
listed after it, it is planned. -/
theorem empty_at_start_refused :
    ¬PlansWell [plain 512 1024, plain 512 512] 2048 ∧
      planDiskReads [plain 512 512, plain 512 1024] 2048 =
        .ok [space 0 512, plain 512 512, plain 512 1024, space 1024 2048] := by
  refine ⟨fun well => ?_, by decide +kernel⟩
  have refused : planDiskReads [plain 512 1024, plain 512 512] 2048 =
      .error (.overlaps 512 1024) := by decide +kernel
  rcases well.refuses.mp ⟨_, refused⟩ with ⟨p, member, bad⟩ | overlapping
  · rcases List.mem_cons.mp member with rfl | member
    · exact absurd bad (by decide)
    · rw [List.mem_singleton.mp member] at bad
      exact absurd bad (by decide)
  · refine overlapping (List.pairwise_cons.mpr ⟨fun q member => ?_, List.pairwise_singleton _ _⟩)
    rw [List.mem_singleton.mp member]
    rintro ⟨b, -, -, low, high⟩
    exact absurd (Nat.lt_of_le_of_lt low high) (by decide)

end ProxmoxBackup.DiskPlan
