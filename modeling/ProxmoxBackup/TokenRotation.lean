import ProxmoxBackup.TransitionSystem
import Mathlib.Tactic.Common

/-! The API token and its rotation (gui/api/token_rotate.go): the token the server requires,
the one slot for the token it replaced, and the token file, over any calls at any times. -/
namespace ProxmoxBackup.TokenRotation

open TransitionSystem

abbrev Bytes := List UInt8

/-- The server and the token file. A call of Rotate under way has the new token and the one it
goes back to; `stopped` is every token that stopped being the current one, with its time, and
`filed` is every token the file has held. -/
structure State where
  now : Int
  token : Bytes
  prevToken : Bytes
  prevValidUntil : Int
  file : Bytes
  rotating : Option (Bytes × Bytes)
  stopped : List (Bytes × Int)
  filed : List Bytes

inductive Action where
  | pass (time : Nat)
  | setToken (token : Bytes)
  | rotate (next : Bytes)
  | wrote
  | failed

def SetToken (grace : Int) (s : State) (token : Bytes) : State :=
  if s.token ≠ [] ∧ s.token ≠ token then
    { s with token, prevToken := s.token, prevValidUntil := s.now + grace
             stopped := s.stopped ++ [(s.token, s.now)] }
  else { s with token }

def tokenAccepted (s : State) (got : Bytes) : Bool :=
  if got = [] then false
  else if s.token = [] then false
  else
    let current : Bool := got = s.token
    let previous : Bool := s.prevToken ≠ [] ∧ got = s.prevToken
    current || (previous && s.now < s.prevValidUntil)

/-- Rotate sets a new token, which is not empty, and then writes the file or goes back. -/
def step (grace : Int) (s : State) : Action → Option State
  | .pass time => some { s with now := s.now + time }
  | .setToken token => if s.rotating.isSome then none else some (SetToken grace s token)
  | .rotate next =>
      if s.rotating.isSome ∨ next = [] then none
      else some { SetToken grace s next with rotating := some (next, s.token) }
  | .wrote => do
      let (next, _) ← s.rotating
      return { s with file := next, filed := s.filed ++ [next], rotating := none }
  | .failed => do
      let (_, prev) ← s.rotating
      return { SetToken grace s prev with rotating := none }

/-- A server that starts with the token that is in the file. -/
def Start (s : State) : Prop :=
  s.file = s.token ∧ s.filed = [s.token] ∧ s.prevToken = [] ∧ s.rotating = none ∧ s.stopped = []

def system (grace : Int) : System State Action where
  start := Start
  step before action after := step grace before action = some after

/-- What is promised of the token in the file, of the replaced ones and of all others. -/
structure Promised (grace : Int) (s : State) : Prop where
  file : s.file ≠ [] → tokenAccepted s s.file = true
  replaced : ∀ token time, (token, time) ∈ s.stopped → s.now < time + grace →
    tokenAccepted s token = true
  expired : ∀ token, token ≠ s.token → (∀ time, (token, time) ∈ s.stopped → time + grace ≤ s.now) →
    tokenAccepted s token = false
  put : s.rotating = none → ∀ token, tokenAccepted s token = true → token ∈ s.filed

/-- The slot can take the token that this one replaces: nothing in it is still accepted, and
what is replaced is accepted until the file has the new token. -/
def Free (grace : Int) (s : State) (token : Bytes) : Prop :=
  token = s.token ∨ ((s.prevToken = [] ∨ token = s.prevToken ∨ s.prevValidUntil ≤ s.now) ∧
    (token = s.file ∨ 0 < grace))

/-- A step that loses no replaced token: the slot is free for it, the file is not left with a
token whose time is over, and the file can be written. -/
def Spares (grace : Int) (s : State) : Action → Prop
  | .pass time => s.file = [] ∨ s.file = s.token ∨ s.now + time < s.prevValidUntil
  | .setToken token => token ≠ [] ∧ token ∈ s.filed ∧ Free grace s token
  | .rotate next => Free grace s next
  | .wrote => True
  | .failed => False

def sparing (grace : Int) : System State Action where
  start := Start
  step before action after := step grace before action = some after ∧ Spares grace before action

/-! The invariant. -/

structure Inv (grace : Int) (s : State) : Prop where
  current : s.rotating = none → s.token = [] ∨ s.token ∈ s.filed
  slot : s.prevToken = [] ∨
    (s.prevToken ∈ s.filed ∧ (s.prevToken, s.prevValidUntil - grace) ∈ s.stopped)
  file : s.file = s.token ∨ (s.file = s.prevToken ∧ s.now < s.prevValidUntil) ∨ s.file = []
  kept : ∀ token time, (token, time) ∈ s.stopped → s.now < time + grace →
    token = s.token ∨ (token = s.prevToken ∧ time + grace ≤ s.prevValidUntil)
  some_ : ∀ token time, (token, time) ∈ s.stopped → token ≠ [] ∧ s.token ≠ []
  past : ∀ token time, (token, time) ∈ s.stopped → time ≤ s.now
  next : ∀ next prev, s.rotating = some (next, prev) → s.token = next ∧ next ≠ []

variable {grace : Int} {s : State}

theorem accepted_iff {got : Bytes} : tokenAccepted s got = true ↔ got ≠ [] ∧ s.token ≠ [] ∧
    (got = s.token ∨ (got = s.prevToken ∧ s.now < s.prevValidUntil)) := by
  have previous : got = s.prevToken ∧ s.prevToken ≠ [] ↔ got = s.prevToken ∧ got ≠ [] := by
    constructor
    · rintro ⟨same, held⟩
      exact ⟨same, same ▸ held⟩
    · rintro ⟨same, held⟩
      exact ⟨same, same ▸ held⟩
  rw [tokenAccepted]
  split
  · rename_i empty
    simp [empty]
  · rename_i held
    split
    · rename_i unset
      simp [unset]
    · rename_i set
      rw [Bool.or_eq_true, Bool.and_eq_true, decide_eq_true_eq, decide_eq_true_eq,
        decide_eq_true_eq, And.comm (a := s.prevToken ≠ []), previous]
      simp only [ne_eq, held, set, not_false_eq_true, and_true, true_and]

theorem Inv.promised (inv : Inv grace s) : Promised grace s := by
  constructor
  case file =>
    intro held
    apply accepted_iff.mpr
    obtain current | ⟨previous, early⟩ | empty := inv.file
    · exact ⟨held, current ▸ held, .inl current⟩
    · obtain unused | ⟨-, stopped⟩ := inv.slot
      · exact absurd (previous.trans unused) held
      · exact ⟨held, (inv.some_ _ _ stopped).2, .inr ⟨previous, early⟩⟩
    · exact absurd empty held
  case replaced =>
    intro token time stopped early
    obtain ⟨held, set⟩ := inv.some_ token time stopped
    obtain current | ⟨previous, valid⟩ := inv.kept token time stopped early
    · exact accepted_iff.mpr ⟨held, set, .inl current⟩
    · exact accepted_iff.mpr ⟨held, set, .inr ⟨previous, Int.lt_of_lt_of_le early valid⟩⟩
  case expired =>
    intro token other over_
    rw [Bool.eq_false_iff, Ne, accepted_iff]
    rintro ⟨held, -, current | ⟨previous, early⟩⟩
    · exact other current
    · obtain unused | ⟨-, stopped⟩ := inv.slot
      · exact held (previous.trans unused)
      · have late := over_ _ (previous ▸ stopped)
        omega
  case put =>
    intro idle token accepted
    obtain ⟨held, set, current | ⟨previous, -⟩⟩ := accepted_iff.mp accepted
    · obtain unset | filed := inv.current idle
      · exact absurd unset set
      · exact current ▸ filed
    · obtain unused | ⟨filed, -⟩ := inv.slot
      · exact absurd (previous.trans unused) held
      · exact previous ▸ filed

theorem Inv.start (start : Start s) : Inv grace s := by
  obtain ⟨file, filed, slot, idle, none_⟩ := start
  refine ⟨fun _ => .inr (filed ▸ List.mem_singleton_self _), .inl slot, .inl file, ?_, ?_, ?_, ?_⟩
  · rw [none_]
    exact nofun
  · rw [none_]
    exact nofun
  · rw [none_]
    exact nofun
  · rw [idle]
    exact nofun

/-- What SetToken keeps where the slot is free: all but that the token is in the file. -/
theorem Inv.setToken (inv : Inv grace s) (idle : s.rotating = none) {token : Bytes}
    (given : token ≠ []) (free : Free grace s token) (after : Option (Bytes × Bytes))
    (current : after = none → token ∈ s.filed)
    (next : ∀ next prev, after = some (next, prev) → token = next ∧ next ≠ []) :
    Inv grace { SetToken grace s token with rotating := after } := by
  rw [SetToken]
  split
  · rename_i replaced
    obtain ⟨set, other⟩ := replaced
    obtain same | ⟨free, window⟩ := free
    · exact absurd same.symm other
    have filed : s.token ∈ s.filed := by
      obtain unset | filed := inv.current idle
      · exact absurd unset set
      · exact filed
    refine ⟨fun idle => .inr (current idle), .inr ⟨filed, ?_⟩, ?_, ?_, ?_, ?_, next⟩
    · simp only [Int.add_sub_cancel, List.mem_append, List.mem_singleton, or_true]
    · -- The file has the replaced token, or it has the new one already.
      obtain same | ⟨previous, early⟩ | empty := inv.file
      · obtain back | window := window
        · exact .inl back.symm
        · refine .inr (.inl ⟨same, ?_⟩)
          simp only
          omega
      · obtain unused | back | over_ := free
        · exact .inr (.inr (previous.trans unused))
        · exact .inl (previous.trans back.symm)
        · omega
      · exact .inr (.inr empty)
    · intro old time stopped early
      have soon : s.now < time + grace := early
      obtain earlier | last := List.mem_append.mp stopped
      · obtain rfl | ⟨previous, valid⟩ := inv.kept old time earlier soon
        · exact .inr ⟨rfl, Int.add_le_add_right (inv.past _ time earlier) grace⟩
        · obtain unused | back | over_ := free
          · exact absurd (previous.trans unused) (inv.some_ old time earlier).1
          · exact .inl (previous.trans back.symm)
          · omega
      · obtain ⟨rfl, rfl⟩ := Prod.mk.inj (List.mem_singleton.mp last)
        exact .inr ⟨rfl, Int.le_refl _⟩
    · intro old time stopped
      obtain earlier | last := List.mem_append.mp stopped
      · exact ⟨(inv.some_ old time earlier).1, given⟩
      · obtain ⟨rfl, rfl⟩ := Prod.mk.inj (List.mem_singleton.mp last)
        exact ⟨set, given⟩
    · intro old time stopped
      obtain earlier | last := List.mem_append.mp stopped
      · exact inv.past old time earlier
      · obtain ⟨rfl, rfl⟩ := Prod.mk.inj (List.mem_singleton.mp last)
        exact Int.le_refl _
  · rename_i kept
    have same (set : s.token ≠ []) : s.token = token := by
      by_contra other
      exact kept ⟨set, other⟩
    refine ⟨fun idle => .inr (current idle), inv.slot, ?_, ?_, ?_, inv.past, next⟩
    · by_cases set : s.token = []
      · obtain unset | rest := inv.file
        · exact .inr (.inr (unset.trans set))
        · exact .inr rest
      · exact same set ▸ inv.file
    · intro old time stopped early
      exact same (inv.some_ old time stopped).2 ▸ inv.kept old time stopped early
    · intro old time stopped
      exact ⟨(inv.some_ old time stopped).1, given⟩

/-- One step that spares the replaced tokens keeps the invariant. -/
theorem step_inv (inv : Inv grace s) {action : Action} {after : State}
    (stepped : step grace s action = some after) (spares : Spares grace s action) :
    Inv grace after := by
  cases action with
  | pass time =>
      obtain rfl := Option.some.inj stepped
      have slow : s.now ≤ s.now + time := Int.le_add_of_nonneg_right (Int.natCast_nonneg _)
      refine { inv with file := ?_, kept := ?_, past := ?_ }
      · obtain empty | current | soon := spares
        · exact .inr (.inr empty)
        · exact .inl current
        · obtain current | ⟨previous, -⟩ | empty := inv.file
          · exact .inl current
          · exact .inr (.inl ⟨previous, soon⟩)
          · exact .inr (.inr empty)
      · intro token old stopped early
        exact inv.kept token old stopped (Int.lt_of_le_of_lt slow early)
      · intro token old stopped
        exact Int.le_trans (inv.past token old stopped) slow
  | setToken token =>
      obtain ⟨given, filed, free⟩ := spares
      rw [step] at stepped
      split at stepped
      · cases stepped
      · rename_i busy
        obtain rfl := Option.some.inj stepped
        have idle : s.rotating = none := Option.not_isSome_iff_eq_none.mp busy
        have rotating : (SetToken grace s token).rotating = none := by
          rw [SetToken]
          split <;> exact idle
        have set := inv.setToken idle given free none (fun _ => filed) nofun
        rw [← rotating] at set
        exact set
  | rotate next =>
      rw [step] at stepped
      split at stepped
      · cases stepped
      · rename_i possible
        obtain ⟨busy, given⟩ := not_or.mp possible
        obtain rfl := Option.some.inj stepped
        exact inv.setToken (Option.not_isSome_iff_eq_none.mp busy) given spares _ nofun
          fun _ _ same => ⟨(Prod.mk.inj (Option.some.inj same)).1,
            (Prod.mk.inj (Option.some.inj same)).1 ▸ given⟩
  | wrote =>
      obtain ⟨⟨next, prev⟩, rotating, rest⟩ := Option.bind_eq_some_iff.mp stepped
      obtain rfl := Option.some.inj rest
      obtain ⟨token, -⟩ := inv.next next prev rotating
      refine { inv with current := ?_, slot := ?_, file := .inl token.symm, next := nofun }
      · intro _
        exact .inr (token ▸ List.mem_append_right _ (List.mem_singleton_self _))
      · obtain unused | ⟨filed, stopped⟩ := inv.slot
        · exact .inl unused
        · exact .inr ⟨List.mem_append_left _ filed, stopped⟩
  | failed => exact spares.elim

theorem sparing_invariant (grace : Int) : Invariant (sparing grace) (Inv grace) where
  start _ start := .start start
  step _ _ _ inv stepped := step_inv inv stepped.1 stepped.2

/-- Where every step spares the replaced tokens, all that is promised holds at every moment. -/
theorem tokens_as_promised {grace : Int} {s : State} (reached : Reachable (sparing grace) s) :
    Promised grace s :=
  ((sparing_invariant grace).reachable reached).promised

theorem sparing_next {before middle after : State} {action : Action} {rest : List Action}
    (stepped : step grace before action = some middle) (spares : Spares grace before action)
    (run : Run (sparing grace) middle rest after) :
    Run (sparing grace) before (action :: rest) after :=
  .next ⟨stepped, spares⟩ run

/-- A server whose token, in the file as well, is one byte. -/
def server : State where
  now := 0
  token := [1]
  prevToken := []
  prevValidUntil := 0
  file := [1]
  rotating := none
  stopped := []
  filed := [[1]]

def after (grace : Int) (actions : List Action) : State :=
  (actions.foldlM (step grace) server).getD server

def rotations : List Action :=
  [.rotate [2], .wrote, .pass 10, .rotate [3], .pass 5, .wrote]

theorem rotated_twice : Promised 10 (after 10 rotations) ∧
    tokenAccepted (after 10 rotations) [2] = true ∧
    tokenAccepted (after 10 rotations) [1] = false := by
  have run : Run (sparing 10) server rotations (after 10 rotations) := by
    refine sparing_next rfl (.inr ⟨.inl rfl, .inr (by decide)⟩) (sparing_next rfl ?_ ?_)
    · trivial
    refine sparing_next rfl (.inr (.inl rfl)) ?_
    refine sparing_next rfl (.inr ⟨.inr (.inr (by decide)), .inr (by decide)⟩) ?_
    refine sparing_next rfl (.inr (.inr (by decide))) (sparing_next rfl ?_ ?_)
    · trivial
    exact Run.stop _
  refine ⟨tokens_as_promised ⟨server, rotations, ⟨rfl, rfl, rfl, rfl, rfl⟩, run⟩, ?_, ?_⟩
  · decide
  · decide

/-- The token of a rotation that failed is accepted, though it never was in the file. -/
theorem failed_rotation_accepted :
    let s := after 10 [.rotate [2], .failed]
    Reachable (system 10) s ∧ s.rotating = none ∧ tokenAccepted s [2] = true ∧ [2] ∉ s.filed ∧
      ¬ Promised 10 s := by
  refine ⟨⟨server, [.rotate [2], .failed], ⟨rfl, rfl, rfl, rfl, rfl⟩,
    run_of_foldlM (step 10) (fun _ _ _ => id) rfl⟩, rfl, by decide, by decide, ?_⟩
  intro promised
  exact absurd (promised.put rfl [2] (by decide)) (by decide)

end ProxmoxBackup.TokenRotation
