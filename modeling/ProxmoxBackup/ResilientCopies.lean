import ProxmoxBackup.CopySegments

/-! What a caller of readResilient is given, for every source within the contract of
io.ReaderAt: each byte at its place, zeros where a range was reported or the source has ended.
-/
namespace ProxmoxBackup.ResilientCopies

open DiskReads (Bytes ReaderAt Source Reported)
open CopySegments

/-! What has been written from a place on, and which of it was reported. -/

/-- What may stand at a place, told whether it was reported. -/
abbrev Law := Prop → Nat → UInt8 → Prop

structure Written (law : Law) (first : Nat) (out : Bytes) (bad : List (Nat × Nat)) : Prop where
  bytes : ∀ j b, out[j]? = some b → law (Reported bad (first + j)) (first + j) b
  inside : ∀ r ∈ bad, first ≤ r.1 ∧ r.1 + r.2 ≤ first + out.length

theorem reported_append {a b : List (Nat × Nat)} {i : Nat} :
    Reported (a ++ b) i ↔ Reported a i ∨ Reported b i := by
  unfold Reported
  constructor
  · rintro ⟨r, among, here⟩
    rcases List.mem_append.mp among with first | second
    · exact .inl ⟨r, first, here⟩
    · exact .inr ⟨r, second, here⟩
  · rintro (⟨r, among, here⟩ | ⟨r, among, here⟩)
    · exact ⟨r, List.mem_append_left _ among, here⟩
    · exact ⟨r, List.mem_append_right _ among, here⟩

theorem not_reported_nil (i : Nat) : ¬ Reported [] i := fun ⟨_, none_, _⟩ => by cases none_

theorem Written.nil (law : Law) (first : Nat) : Written law first [] [] where
  bytes := fun _ _ none_ => by cases none_
  inside := fun _ none_ => by cases none_

theorem Written.append {law : Law} {first : Nat} {out more : Bytes} {bad further : List (Nat × Nat)}
    (front : Written law first out bad) (back : Written law (first + out.length) more further) :
    Written law first (out ++ more) (bad ++ further) where
  bytes j b here := by
    rcases Nat.lt_or_ge j out.length with inside | past
    · rw [List.getElem?_append_left inside] at here
      have same : Reported (bad ++ further) (first + j) = Reported bad (first + j) := by
        refine propext (reported_append.trans (or_iff_left ?_))
        rintro ⟨r, among, low, _⟩
        have begins := (back.inside r among).1
        omega
      rw [same]
      exact front.bytes j b here
    · rw [List.getElem?_append_right past] at here
      have place : first + out.length + (j - out.length) = first + j := by omega
      have same : Reported (bad ++ further) (first + j) = Reported further (first + j) := by
        refine propext (reported_append.trans (or_iff_right ?_))
        rintro ⟨r, among, _, high⟩
        have ends := (front.inside r among).2
        omega
      have holds := back.bytes (j - out.length) b here
      rw [place] at holds
      rw [same]
      exact holds
  inside r among := by
    rw [List.length_append]
    rcases List.mem_append.mp among with old | new
    · have bounds := front.inside r old
      omega
    · have bounds := back.inside r new
      omega

theorem Written.plain {law : Law} {first : Nat} {data : Bytes}
    (holds : ∀ j b, data[j]? = some b → law False (first + j) b) : Written law first data [] where
  bytes j b here := by
    rw [eq_false (not_reported_nil (first + j))]
    exact holds j b here
  inside := fun _ none_ => by cases none_

theorem Written.lost {law : Law} {first n : Nat} (holds : ∀ i, law True i 0) :
    Written law first (List.replicate n 0) [(first, n)] where
  bytes j b here := by
    rw [List.getElem?_replicate] at here
    split at here
    · next inside =>
        cases here
        have reported : Reported [(first, n)] (first + j) :=
          ⟨(first, n), List.mem_singleton_self _, Nat.le_add_right _ _, Nat.add_lt_add_left inside _⟩
        rw [eq_true reported]
        exact holds _
    · cases here
  inside r among := by
    rw [List.mem_singleton.mp among, List.length_replicate]
    exact ⟨Nat.le_refl _, Nat.le_refl _⟩

theorem Written.weaken {strong weak : Law} {first : Nat} {out : Bytes} {bad : List (Nat × Nat)}
    (written : Written strong first out bad)
    (holds : ∀ told i b, first ≤ i → i < first + out.length → strong told i b → weak told i b) :
    Written weak first out bad where
  bytes j b here := by
    have inside := (List.getElem?_eq_some_iff.mp here).1
    exact holds _ _ b (Nat.le_add_right _ _) (by omega) (written.bytes j b here)
  inside := written.inside

/-! A read of a part of a source. -/

/-- What a caller's state says of what it was given. -/
structure Carries {σ : Type} (back : Callbacks σ) (P : σ → Bytes → List (Nat × Nat) → Prop) : Prop where
  emit : ∀ {s s' out bad data}, P s out bad → back.emit data s = some s' → P s' (out ++ data) bad
  zeros : ∀ {s s' out bad n}, P s out bad → back.emitZeros n s = some s' →
    P s' (out ++ List.replicate n 0) bad
  bad : ∀ {s out bad off n}, P s out bad → P (back.onBad off n s) out (bad ++ [(off, n)])

/-- The source's byte, zero where it was reported or the source is at its end. -/
def sourceLaw (bytes : Bytes) : Law :=
  fun told i b => (told → b = 0) ∧ (¬ told → b = bytes.getD i 0)

theorem emitted_ok {σ : Type} {given : Option σ} {s : σ} (ran : emitted given = .ok s) :
    given = some s := by
  cases given with
  | none => cases ran
  | some state =>
      cases ran
      rfl

section

variable {σ : Type} {src : Source} {back : Callbacks σ} {srcOffset length block unit : Nat}
  {r : ReaderAt} {P : σ → Bytes → List (Nat × Nat) → Prop}

/-- A copy in its loops. -/
def Along (r : ReaderAt) (P : σ → Bytes → List (Nat × Nat) → Prop) (srcOffset length : Nat)
    (p : Place σ) : Prop :=
  p.pos ≤ length ∧ ∃ out bad, P p.state out bad ∧ out.length = p.pos ∧
    Written (sourceLaw r.bytes) srcOffset out bad

variable (carries : Carries back P)

include carries

theorem take_along {k off len : Nat} {p p' : Place σ} (along : Along r P srcOffset length p)
    (place : off = srcOffset + p.pos) (room : p.pos + len ≤ length)
    (ran : take back (r.ReadAt k off len).1 p = .ok p') :
    Along r P srcOffset length p' ∧ p'.pos = p.pos + (r.ReadAt k off len).1.length := by
  have most := r.keeps.most k off len
  rw [← r.length] at most
  have same := r.bytes_at k off len
  obtain ⟨within, out, bad, holds, size, written⟩ := along
  unfold take at ran
  generalize (r.ReadAt k off len).1 = data at *
  split at ran
  · obtain ⟨state, emit, ran⟩ := GoValues.bind_ok ran
    cases ran
    refine ⟨⟨by dsimp only; omega, out ++ data, bad, carries.emit holds (emitted_ok emit), ?_, ?_⟩, rfl⟩
    · rw [List.length_append, size]
    · rw [← List.append_nil bad]
      refine written.append (Written.plain fun j b here => ⟨False.elim, fun _ => ?_⟩)
      have inside := (List.getElem?_eq_some_iff.mp here).1
      rw [same j inside, place] at here
      rw [List.getD_eq_getElem?_getD, size, here]
      rfl
  · next none_ =>
      cases ran
      have zero : data.length = 0 := Nat.eq_zero_of_not_pos none_
      exact ⟨⟨within, out, bad, holds, size, written⟩, by rw [zero]; rfl⟩

/-- Behind the source's end only zeros come. -/
theorem padToEnd_along {p p' : Place σ} (along : Along r P srcOffset length p)
    (ended : r.bytes.length ≤ srcOffset + p.pos) (ran : padToEnd back length p = .ok p') :
    Along r P srcOffset length p' ∧ p'.pos = length := by
  obtain ⟨within, out, bad, holds, size, written⟩ := along
  unfold padToEnd at ran
  split at ran
  · obtain ⟨state, zeros, ran⟩ := GoValues.bind_ok ran
    cases ran
    refine ⟨⟨Nat.le_refl _, _, bad, carries.zeros holds (emitted_ok zeros), ?_, ?_⟩, rfl⟩
    · rw [List.length_append, List.length_replicate, size]
      dsimp only
      omega
    · rw [← List.append_nil bad]
      refine written.append (Written.plain fun j b here => ⟨False.elim, fun _ => ?_⟩)
      rw [List.getElem?_replicate] at here
      split at here
      · cases here
        rw [List.getD_eq_default _ _ (by omega)]
      · cases here
  · next whole =>
      cases ran
      exact ⟨⟨within, out, bad, holds, size, written⟩, by omega⟩

theorem giveUp_along {rem : Nat} {p p' : Place σ} (along : Along r P srcOffset length p)
    (room : p.pos + rem ≤ length) (ran : giveUp back srcOffset rem p = .ok p') :
    Along r P srcOffset length p' ∧ p'.pos = p.pos + rem := by
  obtain ⟨within, out, bad, holds, size, written⟩ := along
  unfold giveUp at ran
  split at ran
  · obtain ⟨state, zeros, ran⟩ := GoValues.bind_ok ran
    cases ran
    refine ⟨⟨room, _, _, carries.bad (carries.zeros holds (emitted_ok zeros)), ?_, ?_⟩, rfl⟩
    · rw [List.length_append, List.length_replicate, size]
    · rw [← size]
      exact written.append (Written.lost fun i => ⟨fun _ => rfl, fun told => absurd trivial told⟩)
  · next none_ =>
      cases ran
      exact ⟨⟨within, out, bad, holds, size, written⟩, by omega⟩

variable (reads : ∀ k, ∃ k', src k = r.ReadAt k')

include reads

omit carries in
/-- A read that says io.EOF leaves the place at the source's end, or behind it. -/
theorem eof_ends {k off len : Nat} (eof : (src k off len).2 = some .eof) :
    r.bytes.length ≤ off + (src k off len).1.length := by
  obtain ⟨k', same⟩ := reads k
  rw [same] at eof ⊢
  rw [r.length]
  exact r.keeps.ended k' off len eof

theorem read_along {len : Nat} {p p' : Place σ} (along : Along r P srcOffset length p)
    (room : p.pos + len ≤ length)
    (ran : take back (src p.calls (srcOffset + p.pos) len).1 p = .ok p') :
    Along r P srcOffset length p' ∧
      p'.pos = p.pos + (src p.calls (srcOffset + p.pos) len).1.length ∧
      (src p.calls (srcOffset + p.pos) len).1.length ≤ len := by
  obtain ⟨k', same⟩ := reads p.calls
  rw [same] at ran ⊢
  obtain ⟨along', pos⟩ := take_along carries along rfl room ran
  refine ⟨along', pos, ?_⟩
  rw [r.length]
  exact r.keeps.most k' _ _

/-- By induction on the turns. -/
theorem units_along {winEnd fuel : Nat} {p p' : Place σ} {ended : Bool} (range : winEnd ≤ length)
    (along : Along r P srcOffset length p)
    (ran : units src back srcOffset length unit winEnd fuel p = .ok (p', ended)) :
    Along r P srcOffset length p' ∧ (ended = true → p'.pos = length) := by
  induction fuel generalizing p with
  | zero => cases ran
  | succ fuel ih =>
      rw [units] at ran
      split at ran
      · next more =>
          obtain ⟨q, taken, ran⟩ := GoValues.bind_ok ran
          obtain ⟨along', pos, short⟩ := read_along carries reads along (by omega) taken
          split at ran
          · exact ih along' ran
          · next eof =>
              obtain ⟨done, padded, ran⟩ := GoValues.bind_ok ran
              cases ran
              have last := eof_ends reads eof
              obtain ⟨along'', whole⟩ := padToEnd_along carries along' (by omega) padded
              exact ⟨along'', fun _ => whole⟩
          · cases ran
          · obtain ⟨next, gave, ran⟩ := GoValues.bind_ok ran
            exact ih (giveUp_along carries along' (by omega) gave).1 ran
      · cases ran
        exact ⟨along, fun wrong => by cases wrong⟩

theorem readResilient_along {fuel : Nat} {p p' : Place σ} (along : Along r P srcOffset length p)
    (ran : readResilient src back srcOffset length block unit fuel p = .ok p') :
    Along r P srcOffset length p' ∧ p'.pos = length := by
  induction fuel generalizing p with
  | zero => cases ran
  | succ fuel ih =>
      rw [readResilient] at ran
      split at ran
      · next more =>
          obtain ⟨q, taken, ran⟩ := GoValues.bind_ok ran
          obtain ⟨along', pos, short⟩ := read_along carries reads along (by omega) taken
          split at ran
          · exact ih along' ran
          · next eof =>
              have last := eof_ends reads eof
              exact padToEnd_along carries along' (by omega) ran
          · cases ran
          · obtain ⟨⟨next, ended⟩, rest, ran⟩ := GoValues.bind_ok ran
            obtain ⟨along'', whole⟩ := units_along carries reads (by omega) along' rest
            dsimp only at ran
            split at ran
            · next atEnd =>
                cases ran
                exact ⟨along'', whole atEnd⟩
            · exact ih along'' ran
      · next whole =>
          cases ran
          have within := along.1
          exact ⟨along, by omega⟩

end

/-! A read ends: the fuel is enough. -/

theorem emitted_ends {σ : Type} (given : Option σ) : emitted given ≠ .error .running := by
  cases given with
  | none => exact fun wrong => by cases wrong
  | some state => exact fun wrong => by cases wrong

section

variable {σ : Type} {src : Source} {back : Callbacks σ} {srcOffset length block unit : Nat}
  {r : ReaderAt}

theorem take_ends (data : Bytes) (p : Place σ) : take back data p ≠ .error .running := by
  intro ran
  unfold take at ran
  split at ran
  · rcases GoValues.bind_failed ran with stuck | ⟨_, _, ran⟩
    · exact emitted_ends _ stuck
    · cases ran
  · cases ran

theorem take_moves {data : Bytes} {p p' : Place σ} (ran : take back data p = .ok p') :
    p'.pos = p.pos + data.length := by
  unfold take at ran
  split at ran
  · obtain ⟨_, _, ran⟩ := GoValues.bind_ok ran
    cases ran
    rfl
  · next none_ =>
      cases ran
      rw [Nat.eq_zero_of_not_pos none_]
      rfl

theorem padToEnd_ends (p : Place σ) : padToEnd back length p ≠ .error .running := by
  intro ran
  unfold padToEnd at ran
  split at ran
  · rcases GoValues.bind_failed ran with stuck | ⟨_, _, ran⟩
    · exact emitted_ends _ stuck
    · cases ran
  · cases ran

theorem giveUp_ends (rem : Nat) (p : Place σ) : giveUp back srcOffset rem p ≠ .error .running := by
  intro ran
  unfold giveUp at ran
  split at ran
  · rcases GoValues.bind_failed ran with stuck | ⟨_, _, ran⟩
    · exact emitted_ends _ stuck
    · cases ran
  · cases ran

theorem giveUp_moves {rem : Nat} {p p' : Place σ} (ran : giveUp back srcOffset rem p = .ok p') :
    p'.pos = p.pos + rem := by
  unfold giveUp at ran
  split at ran
  · obtain ⟨_, _, ran⟩ := GoValues.bind_ok ran
    cases ran
    rfl
  · next none_ =>
      cases ran
      rw [Nat.eq_zero_of_not_pos none_]
      rfl

variable (reads : ∀ k, ∃ k', src k = r.ReadAt k')

include reads

theorem answer_most (k off len : Nat) : (src k off len).1.length ≤ len := by
  obtain ⟨k', same⟩ := reads k
  rw [same, r.length]
  exact r.keeps.most k' off len

theorem answer_full {k off len : Nat} (plain : (src k off len).2 = none) :
    (src k off len).1.length = len := by
  obtain ⟨k', same⟩ := reads k
  rw [same] at plain ⊢
  rw [r.length]
  exact r.keeps.full k' off len plain

/-- A turn goes on behind its unit, or is the last. -/
theorem units_go {winEnd fuel : Nat} {p : Place σ} (some_ : 0 < unit) (enough : winEnd - p.pos < fuel) :
    units src back srcOffset length unit winEnd fuel p ≠ .error .running ∧
      ∀ p', units src back srcOffset length unit winEnd fuel p = .ok (p', false) → winEnd ≤ p'.pos := by
  induction fuel generalizing p with
  | zero => omega
  | succ fuel ih =>
      rw [units]
      split
      · next more =>
          have short := answer_most reads p.calls (srcOffset + p.pos) (min unit (winEnd - p.pos))
          have full := @answer_full src r reads p.calls (srcOffset + p.pos) (min unit (winEnd - p.pos))
          constructor
          · intro ran
            rcases GoValues.bind_failed ran with stuck | ⟨q, taken, ran⟩
            · exact take_ends _ _ stuck
            · have pos := take_moves taken
              split at ran
              · next plain =>
                  have whole := full plain
                  exact (ih (by omega)).1 ran
              · rcases GoValues.bind_failed ran with stuck | ⟨_, _, ran⟩
                · exact padToEnd_ends _ stuck
                · cases ran
              · cases ran
              · rcases GoValues.bind_failed ran with stuck | ⟨next, gave, ran⟩
                · exact giveUp_ends _ _ stuck
                · have zeroed := giveUp_moves gave
                  exact (ih (by omega)).1 ran
          · intro p' ran
            obtain ⟨q, taken, ran⟩ := GoValues.bind_ok ran
            have pos := take_moves taken
            split at ran
            · next plain =>
                have whole := full plain
                exact (ih (by omega)).2 p' ran
            · obtain ⟨_, _, ran⟩ := GoValues.bind_ok ran
              cases ran
            · cases ran
            · obtain ⟨next, gave, ran⟩ := GoValues.bind_ok ran
              have zeroed := giveUp_moves gave
              exact (ih (by omega)).2 p' ran
      · next done =>
          refine ⟨(fun wrong => by cases wrong), fun p' ran => ?_⟩
          cases ran
          exact Nat.le_of_not_lt done

theorem readResilient_ends {fuel : Nat} {p : Place σ} (blocks : 0 < block) (some_ : 0 < unit)
    (enough : length - p.pos < fuel) :
    readResilient src back srcOffset length block unit fuel p ≠ .error .running := by
  induction fuel generalizing p with
  | zero => omega
  | succ fuel ih =>
      intro ran
      rw [readResilient] at ran
      split at ran
      · next more =>
          have short := answer_most reads p.calls (srcOffset + p.pos) (min block (length - p.pos))
          have full := @answer_full src r reads p.calls (srcOffset + p.pos) (min block (length - p.pos))
          rcases GoValues.bind_failed ran with stuck | ⟨q, taken, ran⟩
          · exact take_ends _ _ stuck
          · have pos := take_moves taken
            split at ran
            · next plain =>
                have whole := full plain
                exact ih (by omega) ran
            · exact padToEnd_ends _ ran
            · cases ran
            · rcases GoValues.bind_failed ran with stuck | ⟨⟨next, ended⟩, rest, ran⟩
              · exact (units_go reads some_ (by omega)).1 stuck
              · dsimp only at ran
                split at ran
                · cases ran
                · next goes =>
                    cases ended with
                    | true => exact goes rfl
                    | false =>
                        have reached := (units_go reads some_ (by omega)).2 next rest
                        exact ih (by omega) ran
      · cases ran

end

end ProxmoxBackup.ResilientCopies
