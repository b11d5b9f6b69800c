import ProxmoxBackup.ChunkIndex
import ProxmoxBackup.RangeUnion

/-! LimitPrefetchToRanges of pbscommon/didx_reader.go, which turns the byte ranges
a restore will read into runs of chunks, prefetchAllowedAt and triggerPrefetch,
which look a chunk up in them, and mergeRanges of pxar_reader.go. Starts, ends
and the total are int64 there. -/

namespace ProxmoxBackup.PrefetchRanges

open BinarySearch ChunkIndex GoValues RangeUnion

/-- sort.Slice by the start. -/
def sortByStart (ranges : List Range) : List Range :=
  ranges.mergeSort fun a b => decide (a.1 ≤ b.1)

/-- The fields that bound the read-ahead. -/
structure Prefetch where
  off : Bool
  limit : Nat
  allowed : Option (List Range)
  deriving DecidableEq

section
variable (idx : didxIndex)

/-- The part of a range that lies in the archive, if any does. -/
def clip (r : Range) : Option (Nat × Nat) :=
  let start := if r.1 < 0 then 0 else r.1
  let stop := if r.2 > int64 idx.total then int64 idx.total else r.2
  if stop ≤ start then none else some (start.toNat, stop.toNat)

/-- The first and the last chunk of a range. -/
def chunkRun (r : Range) : Option Range :=
  (clip idx r).map fun (start, stop) =>
    ((idx.chunkIndexAt start : Int), (idx.chunkIndexAt (stop - 1) : Int))

/-- The runs: a run that begins at most one chunk past the last one joins it. -/
def chunkRuns (ranges : List Range) : List Range :=
  join 1 ((sortByStart ranges).filterMap (chunkRun idx))

def runsCount (runs : List Range) : Int := RangeUnion.total runs

def LimitPrefetchToRanges (ranges : List Range) : Prefetch × Int :=
  let runs := chunkRuns idx ranges
  (⟨runs.isEmpty, 0, some runs⟩, runsCount runs)

def prefetchAllowedAt (runs : List Range) (ci : Int) : Bool :=
  let i := Search (fun i => ci ≤ (runs.getD i (0, 0)).2) runs.length
  i < runs.length && (runs.getD i (0, 0)).1 ≤ ci

/-- What triggerPrefetch asks of a chunk before the cache. -/
def mayPrefetch (s : Prefetch) (ci : Nat) : Bool :=
  let total := idx.digests.length
  let total := if s.limit > 0 && s.limit < total then s.limit else total
  !s.off && ci < total &&
    match s.allowed with
    | none => true
    | some runs => prefetchAllowedAt runs ci

/-- A chunk and a range have a byte in common. -/
def overlaps (ci : Nat) (r : Range) : Bool :=
  match idx.chunkRange ci with
  | none => false
  | some (start, stop) => max (start : Int) r.1 < min (stop : Int) r.2

def wanted (ranges : List Range) (ci : Nat) : Bool := ranges.any (overlaps idx ci)

/-- What the read-ahead should be limited to. -/
structure Exact (ranges : List Range) : Prop where
  sorted : (chunkRuns idx ranges).Pairwise fun a b => a.2 < b.1
  proper : ∀ run ∈ chunkRuns idx ranges, run.1 ≤ run.2
  allowed : ∀ ci, mayPrefetch idx (LimitPrefetchToRanges idx ranges).1 ci = wanted idx ranges ci
  count : (LimitPrefetchToRanges idx ranges).2 =
    ((List.range idx.offsets.length).filter (wanted idx ranges)).length

end

/-- mergeRanges: ranges that overlap or touch are one. -/
def mergeRanges (ranges : List Range) : List Range := join 0 (sortByStart ranges)

theorem sortByStart_sorted (ranges : List Range) :
    (sortByStart ranges).Pairwise fun a b => a.1 ≤ b.1 := by
  have sorted : (sortByStart ranges).Pairwise fun a b => decide (a.1 ≤ b.1) = true := by
    apply List.pairwise_mergeSort
    · intro a b c first second
      simp only [decide_eq_true_eq] at first second ⊢
      omega
    · intro a b
      simp only [Bool.or_eq_true, decide_eq_true_eq]
      omega
  exact sorted.imp fun order => of_decide_eq_true order

theorem mem_sortByStart (ranges : List Range) (r : Range) : r ∈ sortByStart ranges ↔ r ∈ ranges :=
  List.mem_mergeSort

/-- What mergeRanges returns is sorted, with gaps between, and holds the same bytes. -/
theorem mergeRanges_spec (ranges : List Range) :
    (mergeRanges ranges).Pairwise (fun early late => early.2 < late.1) ∧
      ∀ x, Covers 0 (mergeRanges ranges) x ↔ Covers 0 ranges x := by
  have sorted := sortByStart_sorted ranges
  constructor
  · exact (join_apart _ sorted).imp fun order => by omega
  · intro x
    unfold mergeRanges
    rw [join_covers _ sorted]
    simp only [Covers, mem_sortByStart]

/-! Chunks and the positions they hold. -/

section
variable {idx : didxIndex}

theorem place_parts {ci start stop : Nat} (place : idx.chunkRange ci = some (start, stop)) :
    ci < idx.offsets.length ∧ stop = idx.offsets.getD ci 0 ∧
      start = if ci > 0 then idx.offsets.getD (ci - 1) 0 else 0 := by
  unfold didxIndex.chunkRange at place
  split at place
  · cases place
  · next found =>
      cases place
      obtain ⟨within, same⟩ := List.getElem?_eq_some_iff.mp found
      exact ⟨within, by rw [List.getD_eq_getElem _ 0 within, same], rfl⟩

/-- Every chunk but the first begins where an earlier one has ended, or later. -/
theorem starts_later (valid : idx.Valid) {i j stop start' stop' start : Nat} (before : i < j)
    (place : idx.chunkRange i = some (start, stop))
    (placeToo : idx.chunkRange j = some (start', stop')) : stop ≤ start' := by
  obtain ⟨_, rfl, _⟩ := place_parts place
  obtain ⟨within, _, rfl⟩ := place_parts placeToo
  rw [if_pos (by omega)]
  rcases Nat.eq_or_lt_of_le (show i ≤ j - 1 by omega) with same | less
  · rw [same]
  · exact Nat.le_of_lt (valid.offset_lt less (by omega))

theorem chunkIndexAt_mono (valid : idx.Valid) (a b : Nat) (order : a ≤ b) (inside : b < idx.total) :
    idx.chunkIndexAt a ≤ idx.chunkIndexAt b := by
  obtain ⟨start, stop, place, low, _⟩ := valid.chunkIndexAt_spec a (by omega)
  obtain ⟨start', stop', place', _, high, _⟩ := valid.chunkIndexAt_spec b inside
  by_contra before
  have apart := starts_later valid (by omega) place' place
  omega

/-- A position is in one chunk only. -/
theorem chunkIndexAt_unique (valid : idx.Valid) (ci pos start stop : Nat)
    (place : idx.chunkRange ci = some (start, stop)) (low : start ≤ pos) (high : pos < stop) :
    idx.chunkIndexAt pos = ci := by
  obtain ⟨within, ends, _⟩ := place_parts place
  have inside : pos < idx.total := by
    have bound := valid.offset_le_total within
    omega
  obtain ⟨start', stop', place', low', high', _⟩ := valid.chunkIndexAt_spec pos inside
  rcases Nat.lt_trichotomy (idx.chunkIndexAt pos) ci with before | same | after
  · have apart := starts_later valid before place' place
    omega
  · exact same
  · have apart := starts_later valid after place place'
    omega

theorem chunkRange_some {ci : Nat} (valid : idx.Valid) (within : ci < idx.offsets.length) :
    ∃ start stop, idx.chunkRange ci = some (start, stop) ∧ start < stop ∧ stop ≤ idx.total := by
  refine ⟨_, _, by rw [didxIndex.chunkRange, List.getElem?_eq_getElem within], ?_⟩
  have bound := valid.offset_le_total within
  rw [← List.getD_eq_getElem _ 0 within]
  refine ⟨?_, bound⟩
  split
  · exact valid.offset_lt (by omega) within
  · have first := (List.pairwise_cons.mp valid.ascending).1 _ (List.getElem_mem within)
    rwa [← List.getD_eq_getElem _ 0 within] at first

/-- A clipped range has a byte in a chunk when the chunk lies in its run. -/
theorem run_overlaps (valid : idx.Valid) (ci start stop : Nat) (some_ : start < stop)
    (inside : stop ≤ idx.total) :
    (∃ pos, start ≤ pos ∧ pos < stop ∧ pos < idx.total ∧ idx.chunkIndexAt pos = ci) ↔
      idx.chunkIndexAt start ≤ ci ∧ ci ≤ idx.chunkIndexAt (stop - 1) := by
  constructor
  · rintro ⟨pos, low, high, within, rfl⟩
    exact ⟨chunkIndexAt_mono valid start pos low within,
      chunkIndexAt_mono valid pos (stop - 1) (by omega) (by omega)⟩
  · rintro ⟨first, last⟩
    obtain ⟨_, stop₁, place₁, _, high₁, _⟩ := valid.chunkIndexAt_spec start (by omega)
    obtain ⟨start₂, stop₂, place₂, low₂, _, _, within₂⟩ :=
      valid.chunkIndexAt_spec (stop - 1) (by omega)
    obtain ⟨begin_, end_, place, proper, bound⟩ := chunkRange_some valid (show ci < idx.offsets.length by omega)
    rcases Nat.eq_or_lt_of_le first with same | later
    · exact ⟨start, Nat.le_refl _, some_, by omega, same⟩
    · -- a later chunk of the run begins inside the range
      have past := starts_later valid later place₁ place
      have before : begin_ ≤ stop - 1 := by
        rcases Nat.eq_or_lt_of_le last with same | less
        · rw [same, place₂] at place
          cases place
          exact low₂
        · have apart := starts_later valid less place place₂
          omega
      refine ⟨begin_, by omega, by omega, by omega, ?_⟩
      exact chunkIndexAt_unique valid ci _ _ _ place (Nat.le_refl _) proper

theorem overlaps_iff (valid : idx.Valid) (ci : Nat) (r : Range) :
    overlaps idx ci r = true ↔
      ∃ pos : Nat, r.1 ≤ pos ∧ (pos : Int) < r.2 ∧ pos < idx.total ∧ idx.chunkIndexAt pos = ci := by
  unfold overlaps
  constructor
  · intro common
    cases place : idx.chunkRange ci with
    | none =>
        rw [place] at common
        cases common
    | some span =>
        obtain ⟨start, stop⟩ := span
        rw [place] at common
        simp only [decide_eq_true_eq] at common
        obtain ⟨within, ends, _⟩ := place_parts place
        have bound := valid.offset_le_total within
        refine ⟨(max (start : Int) r.1).toNat, by omega, by omega, by omega, ?_⟩
        exact chunkIndexAt_unique valid ci _ start stop place (by omega) (by omega)
  · rintro ⟨pos, low, high, inside, rfl⟩
    obtain ⟨start, stop, place, first, last, _⟩ := valid.chunkIndexAt_spec pos inside
    rw [place]
    simp only [decide_eq_true_eq]
    omega

end

/-! The runs of a list of ranges, for an archive whose size an int64 holds. -/

section
variable {idx : didxIndex}

theorem clip_some (total : int64 idx.total = idx.total) (r : Range) (start stop : Nat) :
    clip idx r = some (start, stop) ↔
      start < stop ∧ (start : Int) = max 0 r.1 ∧ (stop : Int) = min r.2 idx.total := by
  have low : (if r.1 < 0 then 0 else r.1) = max 0 r.1 := by split <;> omega
  have high : (if r.2 > (idx.total : Int) then (idx.total : Int) else r.2) = min r.2 idx.total := by
    split <;> omega
  unfold clip
  rw [total]
  simp only [low, high]
  by_cases empty : min r.2 (idx.total : Int) ≤ max 0 r.1
  · rw [if_pos empty]
    constructor
    · intro none_
      cases none_
    · intro both
      omega
  · rw [if_neg empty, Option.some.injEq, Prod.mk.injEq]
    omega

theorem chunkRun_some (total : int64 idx.total = idx.total) (r run : Range)
    (found : chunkRun idx r = some run) : ∃ start stop : Nat, start < stop ∧ stop ≤ idx.total ∧
      (start : Int) = max 0 r.1 ∧ (stop : Int) = min r.2 idx.total ∧
      run = ((idx.chunkIndexAt start : Int), (idx.chunkIndexAt (stop - 1) : Int)) := by
  obtain ⟨⟨start, stop⟩, clipped, rfl⟩ := Option.map_eq_some_iff.mp found
  obtain ⟨order, low, high⟩ := (clip_some total r start stop).mp clipped
  exact ⟨start, stop, order, by omega, low, high, rfl⟩

theorem runs_sorted (valid : idx.Valid) (total : int64 idx.total = idx.total) (ranges : List Range) :
    ((sortByStart ranges).filterMap (chunkRun idx)).Pairwise fun a b => a.1 ≤ b.1 := by
  rw [List.pairwise_filterMap]
  apply (sortByStart_sorted ranges).imp
  intro a b order run found run' found'
  obtain ⟨start, stop, _, _, low, _, rfl⟩ := chunkRun_some total a run found
  obtain ⟨start', stop', _, _, low', _, rfl⟩ := chunkRun_some total b run' found'
  have mono := chunkIndexAt_mono valid start start' (by omega) (by omega)
  simp only
  omega

theorem runs_proper (valid : idx.Valid) (total : int64 idx.total = idx.total) (ranges : List Range) :
    ∀ run ∈ (sortByStart ranges).filterMap (chunkRun idx), run.1 ≤ run.2 := by
  intro run listed
  obtain ⟨r, _, found⟩ := List.mem_filterMap.mp listed
  obtain ⟨start, stop, _, _, _, _, rfl⟩ := chunkRun_some total r run found
  have mono := chunkIndexAt_mono valid start (stop - 1) (by omega) (by omega)
  simp only
  omega

/-- The runs hold the chunks that have a byte in some range. -/
theorem runs_cover (valid : idx.Valid) (total : int64 idx.total = idx.total) (ranges : List Range)
    (ci : Nat) : Covers 1 (chunkRuns idx ranges) ci ↔ wanted idx ranges ci = true := by
  unfold chunkRuns wanted
  rw [join_covers _ (runs_sorted valid total ranges), List.any_eq_true]
  constructor
  · rintro ⟨run, listed, low, high⟩
    obtain ⟨r, member, found⟩ := List.mem_filterMap.mp listed
    obtain ⟨start, stop, order, bound, first, last, rfl⟩ := chunkRun_some total r run found
    refine ⟨r, (mem_sortByStart ranges r).mp member, (overlaps_iff valid ci r).mpr ?_⟩
    simp only at low high
    obtain ⟨pos, after, before, inside, same⟩ :=
      (run_overlaps valid ci start stop order bound).mpr ⟨by omega, by omega⟩
    exact ⟨pos, by omega, by omega, inside, same⟩
  · rintro ⟨r, member, common⟩
    obtain ⟨pos, low, high, inside, same⟩ := (overlaps_iff valid ci r).mp common
    have clipped := (clip_some total r (max 0 r.1).toNat (min r.2 idx.total).toNat).mpr
      ⟨by omega, by omega, by omega⟩
    have found : chunkRun idx r = some ((idx.chunkIndexAt (max 0 r.1).toNat : Int),
        (idx.chunkIndexAt ((min r.2 idx.total).toNat - 1) : Int)) := by
      rw [chunkRun, clipped]
      rfl
    refine ⟨_, List.mem_filterMap.mpr ⟨r, (mem_sortByStart ranges r).mpr member, found⟩, ?_⟩
    · have inRun := (run_overlaps valid ci (max 0 r.1).toNat (min r.2 idx.total).toNat
        (by omega) (by omega)).mp ⟨pos, by omega, by omega, inside, same⟩
      simp only
      omega

theorem wanted_within (valid : idx.Valid) (ranges : List Range) (ci : Nat)
    (asked : wanted idx ranges ci = true) : ci < idx.offsets.length := by
  obtain ⟨r, _, common⟩ := List.any_eq_true.mp asked
  obtain ⟨pos, _, _, inside, rfl⟩ := (overlaps_iff valid ci r).mp common
  obtain ⟨_, _, _, _, _, _, within⟩ := valid.chunkIndexAt_spec pos inside
  exact within

end

/-- The search of sorted runs finds the run a chunk lies in. -/
theorem prefetchAllowedAt_iff (runs : List Range) (apart : runs.Pairwise fun a b => a.2 + 1 < b.1)
    (proper : ∀ run ∈ runs, run.1 ≤ run.2) (ci : Int) :
    prefetchAllowedAt runs ci = true ↔ Covers 1 runs ci := by
  have later : ∀ i j, i < j → j < runs.length →
      (runs.getD i (0, 0)).2 + 1 < (runs.getD j (0, 0)).1 := by
    intro i j order within
    rw [List.getD_eq_getElem _ _ (by omega), List.getD_eq_getElem _ _ within]
    exact List.pairwise_iff_getElem.mp apart i j (by omega) within order
  have ordered : ∀ j, j < runs.length → (runs.getD j (0, 0)).1 ≤ (runs.getD j (0, 0)).2 := by
    intro j within
    rw [List.getD_eq_getElem _ _ within]
    exact proper _ (List.getElem_mem within)
  have mono : ∀ a b, a ≤ b → b < runs.length → decide (ci ≤ (runs.getD a (0, 0)).2) = true →
      decide (ci ≤ (runs.getD b (0, 0)).2) = true := by
    intro a b order within holds
    rcases Nat.eq_or_lt_of_le order with rfl | less
    · exact holds
    · have holds := of_decide_eq_true holds
      have apart := later a b less within
      have own := ordered b within
      exact decide_eq_true (by omega)
  obtain ⟨_, below, above⟩ := search_least runs.length mono
  unfold prefetchAllowedAt
  simp only [Bool.and_eq_true, decide_eq_true_eq]
  constructor
  · rintro ⟨found, low⟩
    have high := of_decide_eq_true (above _ (Nat.le_refl _) found)
    rw [List.getD_eq_getElem _ _ found] at low high
    exact ⟨_, List.getElem_mem found, low, by omega⟩
  · rintro ⟨run, listed, low, high⟩
    obtain ⟨j, within, rfl⟩ := List.mem_iff_getElem.mp listed
    rw [← List.getD_eq_getElem _ (0, 0) within] at low high
    have upTo : Search (fun i => decide (ci ≤ (runs.getD i (0, 0)).2)) runs.length ≤ j := by
      by_contra past
      have fails := of_decide_eq_false (below j (by omega))
      omega
    refine ⟨by omega, ?_⟩
    rcases Nat.eq_or_lt_of_le upTo with same | before
    · rw [same]
      exact low
    · have apart := later _ j before within
      have own := ordered _ (show _ < runs.length by omega)
      have high := of_decide_eq_true (above _ (Nat.le_refl _) (by omega))
      omega

section
variable {idx : didxIndex}

theorem exact_of_fits (valid : idx.Valid) (total : int64 idx.total = idx.total)
    (ranges : List Range) : Exact idx ranges := by
  have apart : (chunkRuns idx ranges).Pairwise fun a b => a.2 + 1 < b.1 :=
    join_apart _ (runs_sorted valid total ranges)
  have proper : ∀ run ∈ chunkRuns idx ranges, run.1 ≤ run.2 :=
    join_proper _ (runs_proper valid total ranges)
  have covered := runs_cover valid total ranges
  constructor
  · exact apart.imp fun order => by omega
  · exact proper
  · intro ci
    rw [Bool.eq_iff_iff, ← covered]
    unfold mayPrefetch LimitPrefetchToRanges
    simp only [gt_iff_lt, Nat.lt_irrefl, decide_false, Bool.false_and, Bool.false_eq_true, if_false,
      Bool.and_eq_true, decide_eq_true_eq, prefetchAllowedAt_iff _ apart proper]
    constructor
    · exact fun both => both.2
    · intro held
      refine ⟨⟨?_, ?_⟩, held⟩
      · obtain ⟨run, listed, _⟩ := held
        simpa using List.ne_nil_of_mem listed
      · rw [valid.digests]
        exact wanted_within valid ranges ci ((covered ci).mp held)
  · have same : (numbers (chunkRuns idx ranges)).Perm
        (((List.range idx.offsets.length).filter (wanted idx ranges)).map fun (ci : Nat) => (ci : Int)) := by
      have once : (((List.range idx.offsets.length).filter (wanted idx ranges)).map
          fun (ci : Nat) => (ci : Int)).Nodup :=
        List.Nodup.map (fun _ _ same => Int.ofNat.inj same) (List.nodup_range.filter _)
      rw [List.perm_ext_iff_of_nodup (numbers_nodup _ apart proper) once]
      intro x
      rw [mem_numbers, List.mem_map]
      constructor
      · intro held
        have positive : 0 ≤ x := by
          have below := (join_covers _ (runs_sorted valid total ranges) x).mp held
          obtain ⟨run, listed, low, _⟩ := below
          obtain ⟨r, _, found⟩ := List.mem_filterMap.mp listed
          obtain ⟨start, stop, _, _, _, _, rfl⟩ := chunkRun_some total r run found
          simp only at low
          omega
        have asked := (covered x.toNat).mp (by rwa [Int.toNat_of_nonneg positive])
        refine ⟨x.toNat, List.mem_filter.mpr ⟨?_, asked⟩, Int.toNat_of_nonneg positive⟩
        exact List.mem_range.mpr (wanted_within valid ranges _ asked)
      · rintro ⟨ci, listed, rfl⟩
        exact (covered ci).mpr (List.mem_filter.mp listed).2
    have lengths := same.length_eq
    rw [List.length_map] at lengths
    rw [← lengths, numbers_length _ proper]
    rfl

/-- Past int64 the total is negative, and no range is left of any. -/
theorem clip_none (total : int64 idx.total < 0) (r : Range) : clip idx r = none := by
  unfold clip
  simp only
  rw [if_pos]
  split <;> split <;> omega

theorem runs_none (total : int64 idx.total < 0) (ranges : List Range) : chunkRuns idx ranges = [] := by
  have none_ : (sortByStart ranges).filterMap (chunkRun idx) = [] := by
    rw [List.filterMap_eq_nil_iff]
    intro r _
    rw [chunkRun, clip_none total]
    rfl
  rw [chunkRuns, none_]
  rfl

end

/-- The read-ahead is limited to the chunks of the ranges, and counts them, just
when the archive's size fits an int64 or no range holds a byte at all. -/
theorem prefetch_exact_iff (idx : didxIndex) (valid : idx.Valid) (ranges : List Range)
    (typed : ∀ r ∈ ranges, r.2 < 2 ^ 63) :
    Exact idx ranges ↔ idx.total < 2 ^ 63 ∨ ∀ r ∈ ranges, r.2 ≤ max 0 r.1 := by
  by_cases fits : idx.total < 2 ^ 63
  · have total : int64 idx.total = idx.total := int64_same _ (by omega) (by omega)
    exact ⟨fun _ => .inl fits, fun _ => exact_of_fits valid total ranges⟩
  · have negative : int64 idx.total < 0 := by
      have bound := valid.fits
      unfold int64
      omega
    have runs := runs_none negative ranges
    constructor
    · intro exact_
      refine .inr fun r member => ?_
      by_contra some_
      -- the first byte of the range lies in the archive, and its chunk is not allowed
      have start : ((max 0 r.1).toNat : Int) = max 0 r.1 := by omega
      have end_ := typed r member
      have inside : (max 0 r.1).toNat < idx.total := by omega
      have allowed := exact_.allowed (idx.chunkIndexAt (max 0 r.1).toNat)
      have asked : wanted idx ranges (idx.chunkIndexAt (max 0 r.1).toNat) = true := by
        refine List.any_eq_true.mpr ⟨r, member, (overlaps_iff valid _ r).mpr ?_⟩
        exact ⟨(max 0 r.1).toNat, by omega, by omega, inside, rfl⟩
      rw [asked, mayPrefetch, LimitPrefetchToRanges, runs] at allowed
      simp at allowed
    · intro either
      have empty : ∀ r ∈ ranges, r.2 ≤ max 0 r.1 := either.resolve_left fits
      have nothing : ∀ ci, wanted idx ranges ci = false := by
        intro ci
        rw [Bool.eq_false_iff]
        intro asked
        obtain ⟨r, member, common⟩ := List.any_eq_true.mp asked
        obtain ⟨pos, low, high, _⟩ := (overlaps_iff valid ci r).mp common
        have bound := empty r member
        omega
      constructor
      · rw [runs]
        exact List.Pairwise.nil
      · rw [runs]
        exact fun _ none_ => (List.not_mem_nil none_).elim
      · intro ci
        rw [nothing, mayPrefetch, LimitPrefetchToRanges, runs]
        rfl
      · have none_ : (List.range idx.offsets.length).filter (wanted idx ranges) = [] := by
          rw [List.filter_eq_nil_iff]
          intro ci _
          simp [nothing ci]
        rw [LimitPrefetchToRanges, runs, none_]
        rfl

def eightExbi : Nat := 2 ^ 63

/-- One chunk, as long as no int64 says. -/
def longIndex : didxIndex := ⟨[eightExbi], [[]], eightExbi⟩

theorem long_index_not_ahead : longIndex.Valid ∧ ¬ Exact longIndex [(0, 1)] := by
  have valid : longIndex.Valid := by
    constructor
    · decide
    · rfl
    · rfl
    · decide
  refine ⟨valid, fun exact_ => ?_⟩
  have allowed := exact_.allowed 0
  have asked : wanted longIndex [(0, 1)] 0 = true := by decide
  rw [asked, mayPrefetch, LimitPrefetchToRanges, runs_none (by decide)] at allowed
  cases allowed

/-- Three chunks of ten bytes, read from the end of the first to the start of the second. -/
theorem short_index_ahead : Exact ⟨[10, 20, 30], [[], [], []], 30⟩ [(9, 11), (5, 5), (40, 50)] := by
  apply (prefetch_exact_iff _ _ _ _).mpr
  · exact .inl (by decide)
  · constructor
    · decide
    · rfl
    · rfl
    · decide
  · decide

end ProxmoxBackup.PrefetchRanges
