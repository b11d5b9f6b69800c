import ProxmoxBackup.PayloadReuse
import Mathlib.Order.Monotone.Defs

/-! The padding budget of metadata change detection (pbscommon/payload_reuse.go):
what Reuse and Break do to the planner's statistics over any sequence of reuse
requests and newly written data. The budget is PaddingRatio of the reused bytes
plus PaddingAllowance, a product of floats that does not fall when the bytes grow. -/

namespace ProxmoxBackup.PaddingBudget

open DynamicChunks PayloadReuse TransitionSystem

variable {chunkDigest : Bytes → Digest}

/-- A file asked for, with the payload position and the chunks the session knows,
or payload data written in between. -/
inductive Request where
  | reuse (pf : PreviousFile) (payloadPos : Nat) (registered : Digest → Bool)
  | write (b : Bytes)

structure Plan where
  planner : Planner
  payload : PayloadStream

def Plan.start : Plan := ⟨Planner.new, PayloadStream.new⟩

/-- An error of a callback ends the archive. -/
def step (prev : PreviousSplitArchive chunkDigest) (budget : Nat → Nat) (s : Plan) :
    Request → Option Plan
  | .reuse pf payloadPos registered =>
      (PayloadReuse.reuse prev budget registered s.planner s.payload pf payloadPos).map
        fun (planner, payload, _) => ⟨planner, payload⟩
  | .write b => some ⟨s.planner.Break prev, s.payload.handleData b⟩

def requests (prev : PreviousSplitArchive chunkDigest) (budget : Nat → Nat) : System Plan Request where
  start s := s = Plan.start
  step before request after := step prev budget before request = some after

def Within (budget : Nat → Nat) (s : Plan) : Prop :=
  s.planner.Stats.Padding ≤ budget s.planner.Stats.Bytes

/-- Every byte of the appended chunks is reused, padding, or behind the last file. -/
def Balanced (prev : PreviousSplitArchive chunkDigest) (s : Plan) : Prop :=
  s.planner.Stats.ChunkBytes =
    s.planner.Stats.Bytes + s.planner.Stats.Padding + s.planner.trail prev

/-- Data is written only when the rest of the run's last chunk is in the budget. -/
def Fits (prev : PreviousSplitArchive chunkDigest) (budget : Nat → Nat) (s : Plan) : Request → Prop
  | .reuse _ _ _ => True
  | .write _ => s.planner.trail prev ≤ budget s.planner.Stats.Bytes - s.planner.Stats.Padding

/-- A run ends in the chunk that holds the end of its last file. -/
def Placed (prev : PreviousSplitArchive chunkDigest) (r : Planner) : Prop :=
  r.run = true → ∃ i : Nat, r.lastIdx = i ∧ i < prev.datas.length ∧
    prev.chunkStart i < r.lastEnd ∧ r.lastEnd ≤ prev.chunkStart (i + 1)

theorem Placed.trail {prev : PreviousSplitArchive chunkDigest} {r : Planner} (i : Nat)
    (run : r.run = true) (last : r.lastIdx = i) :
    r.trail prev = prev.chunkStart (i + 1) - r.lastEnd := by
  have placed : ¬ (r.run = false ∨ r.lastIdx < 0) := by
    rw [run, last]
    rintro (stopped | before)
    · cases stopped
    · omega
  rw [Planner.trail, if_neg placed, last, Int.toNat_natCast, prev.ends_getD]

theorem trail_idle (prev : PreviousSplitArchive chunkDigest) {r : Planner} (idle : r.run = false) :
    r.trail prev = 0 := if_pos (.inl idle)

theorem break_stats (prev : PreviousSplitArchive chunkDigest) (r : Planner) :
    (r.Break prev).Stats = { r.Stats with Padding := r.Stats.Padding + r.trail prev } := by
  unfold Planner.Break
  split
  · rfl
  · next idle => rw [trail_idle prev (by simpa using idle), Nat.add_zero]

/-- The loop of Reuse counts the chunks it appends, and nothing else changes. -/
theorem injectChunks_stats (prev : PreviousSplitArchive chunkDigest) (registered : Digest → Bool)
    (count k : Nat) (r r' : Planner) (p p' : PayloadStream) (injected injected' : Nat)
    (inside : k + count ≤ prev.datas.length)
    (done : injectChunks prev registered count k r p injected = some (r', p', injected')) :
    SameRun r r' ∧ r'.Stats.Bytes = r.Stats.Bytes ∧ r'.Stats.Padding = r.Stats.Padding ∧
      r'.Stats.ChunkBytes + prev.chunkStart k = r.Stats.ChunkBytes + prev.chunkStart (k + count) := by
  induction count generalizing k r p injected with
  | zero =>
      cases done
      exact ⟨⟨rfl, rfl, rfl, rfl, rfl⟩, rfl, rfl, rfl⟩
  | succ count ih =>
      simp only [injectChunks] at done
      split at done
      · cases done
      · next next appended =>
          obtain ⟨same, bytes, padding, total⟩ := ih (k + 1) _ next _ (by omega) done
          refine ⟨⟨same.run, same.prevStart, same.newStart, same.lastIdx, same.lastEnd⟩,
            bytes, padding, ?_⟩
          have order : prev.chunkStart k ≤ prev.chunkStart (k + 1) :=
            prev.chunkStart_mono (Nat.le_succ k) (by omega)
          have ends := prev.ends_getD k
          have shift : k + 1 + count = k + (count + 1) := by omega
          rw [shift] at total
          simp only [ends] at total
          omega

/-- The run an accepted file joins, or begins: it ends behind chunk `first - 1`,
and the file's start is `from_` the padding in front of it. -/
structure Prepared (prev : PreviousSplitArchive chunkDigest) (r ready : Planner) (s lead : Nat)
    (first : Nat) : Prop where
  run : ready.run = true
  lastIdx : ready.lastIdx + 1 = first
  inside : first ≤ prev.datas.length
  bytes : ready.Stats.Bytes = r.Stats.Bytes
  padding : ready.Stats.Padding = r.Stats.Padding + lead
  chunkBytes : ready.Stats.ChunkBytes = r.Stats.ChunkBytes
  balance : r.Stats.ChunkBytes + s =
    r.Stats.Bytes + r.Stats.Padding + lead + prev.chunkStart first
  behind : ∀ c, s < prev.chunkStart (c + 1) → first ≤ c + 1

theorem prepare_stats (prev : PreviousSplitArchive chunkDigest) (r : Planner) (p : PayloadStream)
    (ci s payloadPos : Nat) (placed : Placed prev r)
    (balanced : r.Stats.ChunkBytes = r.Stats.Bytes + r.Stats.Padding + r.trail prev)
    (held : ci < prev.datas.length) (starts : prev.chunkStart ci ≤ s) :
    ∃ first, Prepared prev r (r.prepare prev p ci s payloadPos).1 s (r.lead prev ci s) first := by
  unfold Planner.prepare Planner.lead
  cases going : r.continues ci s with
  | true =>
      simp only [if_true]
      unfold Planner.continues at going
      simp only [Bool.and_eq_true, decide_eq_true_eq] at going
      obtain ⟨⟨run, after⟩, near⟩ := going
      obtain ⟨i, last, within, low, high⟩ := placed run
      have tail : r.trail prev = prev.chunkStart (i + 1) - r.lastEnd := Placed.trail i run last
      refine ⟨i + 1, run, ?_, by omega, rfl, rfl, rfl, by omega, ?_⟩
      · show r.lastIdx + 1 = _
        rw [last]
        rfl
      · intro c past
        by_contra early
        have before := prev.chunkStart_mono (show c + 1 ≤ i by omega) (by omega)
        omega
  | false =>
      simp only [Bool.false_eq_true, if_false]
      have stats := break_stats prev r
      refine ⟨ci, rfl, ?_, Nat.le_of_lt held, ?_, ?_, ?_, by omega, ?_⟩
      · show (ci : Int) - 1 + 1 = ci
        omega
      · show (r.Break prev).Stats.Bytes = _
        rw [stats]
      · show (r.Break prev).Stats.Padding + (s - prev.chunkStart ci) = _
        rw [stats]
        simp only
        omega
      · show (r.Break prev).Stats.ChunkBytes = _
        rw [stats]
      · intro c past
        by_contra early
        have before := prev.chunkStart_mono (show c + 1 ≤ ci by omega) (by omega)
        omega

/-- What Reuse does to the planner, when no callback fails. -/
inductive Reused (prev : PreviousSplitArchive chunkDigest) (budget : Nat → Nat) (r : Planner)
    (pf : PreviousFile) : Planner → Prop where
  | refused {r' : Planner} : SameRun r r' → r'.Stats.Bytes = r.Stats.Bytes →
      r'.Stats.Padding = r.Stats.Padding → r'.Stats.ChunkBytes = r.Stats.ChunkBytes →
      Reused prev budget r pf r'
  | accepted {r' : Planner} (lead : Nat) :
      lead = 0 ∨ r.Stats.Padding + lead ≤ budget (r.Stats.Bytes + (16 + pf.Size)) →
      r'.Stats.Bytes = r.Stats.Bytes + (16 + pf.Size) →
      r'.Stats.Padding = r.Stats.Padding + lead → Placed prev r' → r'.run = true →
      r'.Stats.ChunkBytes = r'.Stats.Bytes + r'.Stats.Padding + r'.trail prev →
      Reused prev budget r pf r'

theorem reuse_cases (prev : PreviousSplitArchive chunkDigest) (budget : Nat → Nat)
    (registered : Digest → Bool) (r r' : Planner) (p p' : PayloadStream) (pf : PreviousFile)
    (payloadPos : Nat) (outcome : Option (Nat × Nat)) (placed : Placed prev r)
    (balanced : r.Stats.ChunkBytes = r.Stats.Bytes + r.Stats.Padding + r.trail prev)
    (done : PayloadReuse.reuse prev budget registered r p pf payloadPos = some (r', p', outcome)) :
    Reused prev budget r pf r' := by
  simp only [PayloadReuse.reuse] at done
  split at done
  · cases done
    exact .refused ⟨rfl, rfl, rfl, rfl, rfl⟩ rfl rfl rfl
  · next within =>
      rw [prev.payloadSize_eq] at within
      split at done
      · cases done
        exact .refused ⟨rfl, rfl, rfl, rfl, rfl⟩ rfl rfl rfl
      · next passed =>
          obtain ⟨ciHeld, ciStart, _⟩ := prev.chunkAt_spec pf.Offset (by omega)
          obtain ⟨cjHeld, cjStart, cjStop⟩ :=
            prev.chunkAt_spec (pf.Offset + 16 + pf.Size - 1) (by omega)
          obtain ⟨first, ready⟩ := prepare_stats prev r.candidate p _ pf.Offset payloadPos placed
            balanced ciHeld ciStart
          have lastIdx := ready.lastIdx
          rw [lastIdx, Int.toNat_natCast] at done
          split at done
          · cases done
          · next r'' p'' injected loop =>
              cases done
              have reach := ready.behind (prev.chunkAt (pf.Offset + 16 + pf.Size - 1)) (by omega)
              obtain ⟨same, bytes, padding, total⟩ := injectChunks_stats prev registered _ first _
                r'' _ p' 0 injected (by omega) loop
              have extent : first + (prev.chunkAt (pf.Offset + 16 + pf.Size - 1) + 1 - first) =
                  prev.chunkAt (pf.Offset + 16 + pf.Size - 1) + 1 := by omega
              rw [extent, ready.chunkBytes] at total
              have size : pf.Offset + 16 + pf.Size - pf.Offset = 16 + pf.Size := by omega
              have lastNow : (r''.reached (prev.chunkAt (pf.Offset + 16 + pf.Size - 1)) pf.Offset
                  (pf.Offset + 16 + pf.Size)).lastIdx =
                    (prev.chunkAt (pf.Offset + 16 + pf.Size - 1) : Int) := by
                simp only [Planner.reached, same.lastIdx]
                split <;> omega
              have run : (r''.reached (prev.chunkAt (pf.Offset + 16 + pf.Size - 1)) pf.Offset
                  (pf.Offset + 16 + pf.Size)).run = true := same.run.trans ready.run
              refine .accepted (r.candidate.lead prev (prev.chunkAt pf.Offset) pf.Offset)
                ?_ ?_ ?_ ?_ run ?_
              · rw [size] at passed
                have stats : r.candidate.Stats.Padding = r.Stats.Padding ∧
                    r.candidate.Stats.Bytes = r.Stats.Bytes := ⟨rfl, rfl⟩
                rw [stats.1, stats.2] at passed
                omega
              · show r''.Stats.Bytes + _ = _
                rw [bytes, ready.bytes, size]
                rfl
              · show r''.Stats.Padding = _
                rw [padding, ready.padding]
                rfl
              · intro _
                exact ⟨_, lastNow, cjHeld, by show _ < pf.Offset + 16 + pf.Size; omega,
                  by show pf.Offset + 16 + pf.Size ≤ _; omega⟩
              · rw [Placed.trail _ run lastNow]
                have balance := ready.balance
                show r''.Stats.ChunkBytes = r''.Stats.Bytes + _ + r''.Stats.Padding +
                  (_ - (pf.Offset + 16 + pf.Size))
                rw [bytes, padding, ready.bytes, ready.padding, size]
                omega

/-! Whole sequences. -/

theorem step_reuse (prev : PreviousSplitArchive chunkDigest) (budget : Nat → Nat) (s : Plan)
    (pf : PreviousFile) (payloadPos : Nat) (registered : Digest → Bool) (r : Planner)
    (p : PayloadStream) (outcome : Option (Nat × Nat))
    (done : PayloadReuse.reuse prev budget registered s.planner s.payload pf payloadPos =
      some (r, p, outcome)) :
    step prev budget s (.reuse pf payloadPos registered) = some ⟨r, p⟩ := by
  simp only [step, done, Option.map_some]

structure Kept (prev : PreviousSplitArchive chunkDigest) (s : Plan) : Prop where
  placed : Placed prev s.planner
  balanced : Balanced prev s

theorem Placed.same {prev : PreviousSplitArchive chunkDigest} {r r' : Planner}
    (placed : Placed prev r) (same : SameRun r r') : Placed prev r' := by
  intro run
  obtain ⟨i, last, within, low, high⟩ := placed (same.run.symm.trans run)
  exact ⟨i, same.lastIdx.trans last, within, by rwa [same.lastEnd], by rwa [same.lastEnd]⟩

theorem trail_same (prev : PreviousSplitArchive chunkDigest) {r r' : Planner}
    (same : SameRun r r') : r'.trail prev = r.trail prev := by
  unfold Planner.trail
  rw [same.run, same.lastIdx, same.lastEnd]

/-- What a step comes to: refused, accepted, or the end of a run. -/
theorem step_cases (prev : PreviousSplitArchive chunkDigest) (budget : Nat → Nat) (s after : Plan)
    (request : Request) (kept : Kept prev s) (taken : step prev budget s request = some after) :
    (∃ pf, Reused prev budget s.planner pf after.planner ∧ ∃ pos registered,
        request = .reuse pf pos registered) ∨
      ∃ b, request = .write b ∧ after.planner = s.planner.Break prev := by
  cases request with
  | reuse pf payloadPos registered =>
      obtain ⟨⟨r', p', outcome⟩, done, rfl⟩ := Option.map_eq_some_iff.mp taken
      exact .inl ⟨pf, reuse_cases prev budget registered s.planner r' s.payload p' pf payloadPos
        outcome kept.placed kept.balanced done, payloadPos, registered, rfl⟩
  | write b =>
      cases taken
      exact .inr ⟨b, rfl, rfl⟩

theorem kept_step (prev : PreviousSplitArchive chunkDigest) (budget : Nat → Nat) (s after : Plan)
    (request : Request) (kept : Kept prev s) (taken : step prev budget s request = some after) :
    Kept prev after := by
  rcases step_cases prev budget s after request kept taken with ⟨pf, reused, _⟩ | ⟨b, _, broken⟩
  · cases reused with
    | refused same bytes padding chunkBytes =>
        refine ⟨kept.placed.same same, ?_⟩
        have balanced := kept.balanced
        unfold Balanced at balanced ⊢
        rw [chunkBytes, bytes, padding, trail_same prev same]
        exact balanced
    | accepted lead _ _ _ placed _ balanced => exact ⟨placed, balanced⟩
  · have idle := Planner.break_run prev s.planner
    have balanced := kept.balanced
    refine ⟨fun run => ?_, ?_⟩
    · rw [broken, idle] at run
      cases run
    · unfold Balanced at balanced ⊢
      rw [broken, trail_idle prev idle, break_stats]
      simp only
      omega

theorem kept_start (prev : PreviousSplitArchive chunkDigest) : Kept prev Plan.start where
  placed run := by cases run
  balanced := rfl

/-- A step stays within the budget just when it breaks no run whose rest does not fit. -/
theorem within_step (prev : PreviousSplitArchive chunkDigest) (budget : Nat → Nat)
    (grows : Monotone budget) (s after : Plan) (request : Request) (kept : Kept prev s)
    (within : Within budget s) (taken : step prev budget s request = some after) :
    Within budget after ↔ Fits prev budget s request := by
  unfold Within at within ⊢
  rcases step_cases prev budget s after request kept taken with
    ⟨pf, reused, _, _, rfl⟩ | ⟨b, rfl, broken⟩
  · refine ⟨fun _ => trivial, fun _ => ?_⟩
    cases reused with
    | refused _ bytes padding _ =>
        rw [bytes, padding]
        exact within
    | accepted lead fits bytes padding _ _ _ =>
        have more := grows (Nat.le_add_right s.planner.Stats.Bytes (16 + pf.Size))
        rw [bytes, padding]
        omega
  · have bound : (s.planner.Stats.Padding + s.planner.trail prev ≤ budget s.planner.Stats.Bytes) ↔
        s.planner.trail prev ≤ budget s.planner.Stats.Bytes - s.planner.Stats.Padding := by omega
    rw [broken, break_stats]
    exact bound

theorem fits_of_within (prev : PreviousSplitArchive chunkDigest) (budget : Nat → Nat)
    (grows : Monotone budget) (actions : List Request) (before s : Plan) (kept : Kept prev before)
    (within : Within budget before) (run : Run (requests prev budget) before actions s)
    (always : ∀ first rest mid, actions = first ++ rest →
      Run (requests prev budget) before first mid → Within budget mid) :
    Run ((requests prev budget).restrict (Fits prev budget)) before actions s := by
  induction actions generalizing before with
  | nil =>
      cases run
      exact Run.stop _
  | cons action rest ih =>
      cases run with
      | @next _ middle _ _ _ taken tail =>
          have now := always [action] rest middle rfl (Run.next taken (Run.stop _))
          have fits := (within_step prev budget grows before middle action kept within taken).mp now
          refine Run.next ⟨taken, fits⟩ ?_
          apply ih middle (kept_step prev budget _ _ _ kept taken) now tail
          intro first more mid parts ran
          exact always (action :: first) more mid (by rw [parts]; rfl) (Run.next taken ran)

theorem within_of_fits (prev : PreviousSplitArchive chunkDigest) (budget : Nat → Nat)
    (grows : Monotone budget) (first rest : List Request) (before mid s : Plan)
    (kept : Kept prev before) (within : Within budget before)
    (restricted : Run ((requests prev budget).restrict (Fits prev budget)) before (first ++ rest) s)
    (ran : Run (requests prev budget) before first mid) : Within budget mid := by
  induction first generalizing before with
  | nil =>
      cases ran
      exact within
  | cons action first ih =>
      cases ran with
      | @next _ middle _ _ _ taken tail =>
          cases restricted with
          | @next _ middle' _ _ _ allowed later =>
              -- the two runs take the same step
              have same : middle = middle' := by
                have first : step prev budget before action = some middle := taken
                have second : step prev budget before action = some middle' := allowed.1
                rw [first] at second
                exact Option.some.inj second
              subst same
              have now :=
                (within_step prev budget grows before middle action kept within taken).mpr allowed.2
              exact ih middle (kept_step prev budget _ _ _ kept taken) now later tail

/-- Over any sequence of requests every appended byte is accounted for, and the
padding is in the budget at every moment just when no data was written with more
left of the run's last chunk than the budget has. -/
theorem padding_within_iff (prev : PreviousSplitArchive chunkDigest) (budget : Nat → Nat)
    (grows : Monotone budget) (actions : List Request) (s : Plan)
    (run : Run (requests prev budget) Plan.start actions s) :
    Balanced prev s ∧
      ((∀ first rest mid, actions = first ++ rest → Run (requests prev budget) Plan.start first mid →
          Within budget mid) ↔
        Run ((requests prev budget).restrict (Fits prev budget)) Plan.start actions s) := by
  have kept : Kept prev s :=
    run_keeps (Kept prev) (fun _ _ _ kept taken => kept_step prev budget _ _ _ kept taken) run
      (kept_start prev)
  refine ⟨kept.balanced, ?_, ?_⟩
  · exact fits_of_within prev budget grows actions Plan.start s (kept_start prev) (Nat.zero_le _) run
  · intro restricted first rest mid parts ran
    subst parts
    exact within_of_fits prev budget grows first rest Plan.start mid s (kept_start prev)
      (Nat.zero_le _) restricted ran

/-! The planner as NewPayloadReuse makes it: a tenth of the bytes and 4 MiB. -/

def officialBudget (bytes : Nat) : Nat := bytes / 10 + 4 * 1024 * 1024

theorem officialBudget_grows : Monotone officialBudget := by
  intro fewer more order
  unfold officialBudget
  omega

/-- Chunks the server knows can be appended behind a boundary. -/
theorem injectChunks_known (prev : PreviousSplitArchive chunkDigest) (count k : Nat) (r : Planner)
    (p : PayloadStream) (injected : Nat) (empty : p.chunk.currentChunk = []) :
    ∃ result, injectChunks prev (fun _ => true) count k r p injected = some result := by
  induction count generalizing k r p injected with
  | zero => exact ⟨_, rfl⟩
  | succ count ih =>
      have pending : ¬ p.chunk.currentChunk.length ≠ 0 := by simp [empty]
      simp only [injectChunks, PayloadStream.injectKnownChunk, if_neg pending]
      apply ih
      exact empty

def bigSize : Nat := 5 * 1024 * 1024

def noDigest (_ : Bytes) : Digest := zeroDigest

/-- One chunk of 5 MiB with a small file at its start. -/
def bigChunk : PreviousSplitArchive noDigest :=
  ⟨fun _ => none, [⟨zeroDigest, bigSize, List.replicate bigSize 0, rfl, List.length_replicate.symm⟩]⟩

def smallFile : PreviousFile := ⟨0, 0, 0, 0, 0, 100, 0⟩

theorem bigChunk_stream : bigChunk.stream.length = bigSize := by
  have stream : bigChunk.stream = List.replicate bigSize 0 ++ [] := rfl
  rw [stream, List.append_nil, List.length_replicate]

theorem bigChunk_ends : bigChunk.chunkStart 1 = bigSize := by
  have whole := bigChunk.chunkStart_eq 1 (Nat.le_refl _)
  have taken : (bigChunk.datas.take 1).flatten = bigChunk.stream := rfl
  rw [taken, bigChunk_stream] at whole
  exact whole

theorem small_file_accepted : ∃ s, step bigChunk officialBudget Plan.start
    (.reuse smallFile 0 fun _ => true) = some s ∧ s.planner.run = true ∧
      s.planner.Stats.Bytes = 116 ∧ s.planner.Stats.Padding = 0 ∧
      s.planner.trail bigChunk = bigSize - 116 := by
  have size := bigChunk.payloadSize_eq
  rw [bigChunk_stream] at size
  have only : bigChunk.datas.length = 1 := rfl
  have found : ∀ off, off < bigSize → bigChunk.chunkAt off = 0 := by
    intro off inside
    obtain ⟨held, _⟩ := bigChunk.chunkAt_spec off (by rwa [bigChunk_stream])
    omega
  have within : ¬ smallFile.Offset + 16 + smallFile.Size > bigChunk.PayloadSize := by
    rw [size]
    decide
  have start := found smallFile.Offset (by decide)
  have stop := found (smallFile.Offset + 16 + smallFile.Size - 1) (by decide)
  have free : Planner.new.candidate.lead bigChunk 0 smallFile.Offset = 0 := rfl
  obtain ⟨⟨r, p, injected⟩, loop⟩ := injectChunks_known bigChunk 1 0
    (Planner.new.candidate.prepare bigChunk PayloadStream.new 0 smallFile.Offset 0).1
    (Planner.new.candidate.prepare bigChunk PayloadStream.new 0 smallFile.Offset 0).2 0 rfl
  obtain ⟨same, bytes, padding, _⟩ := injectChunks_stats bigChunk _ 1 0 _ r _ p 0 injected
    (Nat.le_refl _) loop
  refine ⟨⟨r.reached 0 smallFile.Offset (smallFile.Offset + 16 + smallFile.Size), p⟩, ?_, ?_, ?_,
    ?_, ?_⟩
  · have first : ((Planner.new.candidate.prepare bigChunk PayloadStream.new 0 smallFile.Offset
        0).1.lastIdx + 1).toNat = 0 := rfl
    have reused : PayloadReuse.reuse bigChunk officialBudget (fun _ => true) Planner.new
        PayloadStream.new smallFile 0 =
          some (r.reached 0 smallFile.Offset (smallFile.Offset + 16 + smallFile.Size), p,
            some (r.runNewStart + (smallFile.Offset - r.runPrevStart), injected)) := by
      simp only [PayloadReuse.reuse]
      rw [if_neg within, start, stop, if_neg fun both => absurd both.1 (free ▸ Nat.lt_irrefl 0)]
      simp only [first, Nat.zero_add, Nat.sub_zero]
      rw [loop]
    exact step_reuse bigChunk officialBudget Plan.start smallFile 0 _ _ _ _ reused
  · exact same.run
  · show r.Stats.Bytes + _ = 116
    rw [bytes]
    rfl
  · show r.Stats.Padding = 0
    rw [padding]
    rfl
  · have lastIdx : (r.reached 0 smallFile.Offset (smallFile.Offset + 16 + smallFile.Size)).lastIdx =
        ((0 : Nat) : Int) := by
      have before : r.lastIdx = -1 := same.lastIdx
      simp only [Planner.reached, before]
      rfl
    have run : (r.reached 0 smallFile.Offset (smallFile.Offset + 16 + smallFile.Size)).run = true :=
      same.run
    rw [Placed.trail 0 run lastIdx, bigChunk_ends]
    rfl

/-- The file is reused for no padding, and the rest of its chunk is 5 MiB. -/
theorem small_file_over_budget : ∃ s, Run (requests bigChunk officialBudget) Plan.start
    [.reuse smallFile 0 fun _ => true, .write [0]] s ∧ ¬ Within officialBudget s := by
  obtain ⟨s, accepted, _, bytes, padding, tail⟩ := small_file_accepted
  refine ⟨_, Run.next accepted (Run.next rfl (Run.stop _)), ?_⟩
  unfold Within
  rw [break_stats]
  simp only [bytes, padding, tail]
  decide

theorem small_file_balanced : ∃ s, Run (requests bigChunk officialBudget) Plan.start
    [.reuse smallFile 0 fun _ => true, .write [0]] s ∧ Balanced bigChunk s := by
  obtain ⟨s, accepted, _⟩ := small_file_accepted
  have run : Run (requests bigChunk officialBudget) Plan.start
      [.reuse smallFile 0 fun _ => true, .write [0]] _ :=
    Run.next accepted (Run.next rfl (Run.stop _))
  exact ⟨_, run, (padding_within_iff bigChunk officialBudget officialBudget_grows _ _ run).1⟩

end ProxmoxBackup.PaddingBudget
