import ProxmoxBackup.TransitionSystem
import Mathlib.Tactic.Common

/-! The connections to network shares (gui/share_logins.go): runs that hold a share, their
release functions and the tries of a login, in any order of their steps. -/
namespace ProxmoxBackup.ShareConnections

open TransitionSystem

abbrev Bytes := List UInt8

structure ShareLogin where
  Username : Bytes
  Password : Bytes
  deriving DecidableEq

/-- The program: whether it connects with saved logins at all, and strings.ToLower,
strings.ToUpper and strings.TrimSpace. -/
structure Program where
  useShareLogins : Bool
  lower : Bytes → Bytes
  upper : Bytes → Bytes
  trim : Bytes → Bytes

namespace Program

variable (p : Program)

def shareKey (server : Bytes) : Bytes := p.lower (p.trim server)

/-- \\ -/
def twoBack : Bytes := [92, 92]

/-- The server and the root of a path's share; the long form starts with \\?\UNC\. -/
def splitShare (path : Bytes) : Option (Bytes × Bytes) :=
  let q := path.map fun b => if b = 47 then 92 else b
  let named (q : Bytes) : Option (Bytes × Bytes) :=
    let server := (q.drop 2).takeWhile (· ≠ 92)
    match (q.drop 2).dropWhile (· ≠ 92) with
    | [] => none
    | _ :: rest =>
        let share := rest.takeWhile (· ≠ 92)
        if server = [] ∨ share = [] then none else some (server, twoBack ++ server ++ 92 :: share)
  if [92, 92, 63, 92, 85, 78, 67, 92].isPrefixOf (p.upper q) then named (twoBack ++ q.drop 8)
  else if [92, 92, 63, 92].isPrefixOf q ∨ [92, 92, 46, 92].isPrefixOf q then none
  else if twoBack.isPrefixOf q then named q
  else none

end Program

/-- shareUse and shareUsedAs, and what is connected, with which login. -/
structure Shares where
  use : Bytes → Nat
  usedAs : Bytes → Option ShareLogin
  connections : Bytes → Option ShareLogin

namespace Shares

def give (s : Shares) (key : Bytes) (login : Option ShareLogin) : Shares :=
  { s with connections := Function.update s.connections key login }

/-- With shareConnect's answer; nothing when the login fails. -/
def acquireShare (s : Shares) (key : Bytes) (login : ShareLogin) (connects : Bool) :
    Option Shares :=
  if s.use key = 0 then
    if connects then
      some { use := Function.update s.use key 1
             usedAs := Function.update s.usedAs key (some login)
             connections := Function.update s.connections key (some login) }
    else none
  else some { s with use := Function.update s.use key (s.use key + 1) }

def releaseShare (s : Shares) (key : Bytes) : Shares :=
  if s.use key = 0 then s
  else if s.use key - 1 = 0 then
    { use := Function.update s.use key 0
      usedAs := Function.update s.usedAs key none
      connections := Function.update s.connections key none }
  else { s with use := Function.update s.use key (s.use key - 1) }

end Shares

/-- A call of connectShares and the calls of its release function that are under way, each
with the roots it has still to let go; `holds` is what the run has acquired and not let go. -/
structure Run where
  logins : Bytes → Option ShareLogin
  paths : List Bytes
  seen : List Bytes
  held : List Bytes
  failed : List Bytes
  releasing : List (List Bytes)
  holds : List (Bytes × ShareLogin)

/-- A try of a login that opens its folder, and whether it has made the connection. -/
structure Try where
  key : Bytes
  login : ShareLogin
  made : Bool

structure State where
  shares : Shares
  runs : List Run
  trying : List Try

inductive Action where
  | connect (logins : Bytes → Option ShareLogin) (paths : List Bytes)
  | visit (i : Nat) (connects : Bool)
  | release (i : Nat)
  | letGo (i j : Nat)
  | released (i j : Nat)
  | tryLogin (login : ShareLogin) (path : Bytes) (connects : Bool)
  | tried (j : Nat)

section

variable (p : Program)

/-- shareUseMu is held by a try while it opens the folder. -/
def State.locked (s : State) : Bool := p.useShareLogins && !s.trying.isEmpty

def begin_ (logins : Bytes → Option ShareLogin) (paths : List Bytes) : Run where
  logins
  paths := if p.useShareLogins then paths else []
  seen := []
  held := []
  failed := []
  releasing := []
  holds := []

/-- The share that the next path of a run is on and that is not seen yet, with its login. -/
def Run.wants (run : Run) (path : Bytes) : Option (Bytes × ShareLogin) := do
  let (server, root) ← p.splitShare path
  if run.seen.contains (p.lower root) then none
  else
    let login ← run.logins (p.shareKey server)
    return (root, login)

/-- What a path adds to the shares that are seen. -/
def Run.see (run : Run) (path : Bytes) : Run :=
  match p.splitShare path with
  | none => run
  | some (_, root) => { run with seen := p.lower root :: run.seen }

/-- The loop of connectShares, for its next path. -/
def visit (s : State) (run : Run) (connects : Bool) : Option (Shares × Run) :=
  match run.paths with
  | [] => none
  | path :: rest =>
      let passed := { run.see p path with paths := rest }
      match run.wants p path with
      | none => some (s.shares, passed)
      | some (root, login) =>
          if s.locked p then none
          else match s.shares.acquireShare (p.lower root) login connects with
            | none => some (s.shares, { passed with failed := p.lower root :: run.failed })
            | some shares => some (shares, { passed with
                held := run.held ++ [root], holds := run.holds ++ [(p.lower root, login)] })

/-- One root of a call of release. -/
def letGo (s : State) (run : Run) (j : Nat) : Option (Shares × Run) :=
  match run.releasing[j]? with
  | some (root :: rest) =>
      if s.locked p then none
      else some (s.shares.releaseShare (p.lower root), { run with
        releasing := run.releasing.set j rest
        holds := run.holds.filter fun h => h.1 ≠ p.lower root })
  | _ => none

/-- tryLogin, up to the opening of the folder. -/
def tryShareLogin (s : State) (login : ShareLogin) (path : Bytes) (connects : Bool) :
    Option State := do
  let (_, root) ← p.splitShare path
  let key := p.lower root
  if ¬ p.useShareLogins then return { s with trying := s.trying ++ [⟨key, login, false⟩] }
  else if s.locked p then none
  else if s.shares.use key > 0 then
    -- Another login cannot be tried until the run has finished.
    if (s.shares.usedAs key).getD ⟨[], []⟩ ≠ login then return s
    else return { s with trying := [⟨key, login, false⟩] }
  else if connects then
    return { s with shares := s.shares.give key (some login), trying := [⟨key, login, true⟩] }
  else return s

def step (s : State) : Action → Option State
  | .connect logins paths => some { s with runs := s.runs ++ [begin_ p logins paths] }
  | .visit i connects => do
      let run ← s.runs[i]?
      let (shares, run) ← visit p s run connects
      return { s with shares, runs := s.runs.set i run }
  | .release i => do
      let run ← s.runs[i]?
      if run.paths ≠ [] then none
      else return { s with runs := s.runs.set i { run with
        releasing := run.releasing ++ [run.held] } }
  | .letGo i j => do
      let run ← s.runs[i]?
      let (shares, run) ← letGo p s run j
      return { s with shares, runs := s.runs.set i run }
  | .released i j => do
      let run ← s.runs[i]?
      if run.releasing[j]? ≠ some [] then none
      else return { s with runs := s.runs.set i { run with
        held := [], releasing := run.releasing.eraseIdx j } }
  | .tryLogin login path connects => tryShareLogin p s login path connects
  | .tried j => do
      let t ← s.trying[j]?
      let shares := if t.made then s.shares.give t.key none else s.shares
      return { s with shares, trying := s.trying.eraseIdx j }

end

def start : State where
  shares := ⟨fun _ => 0, fun _ => none, fun _ => none⟩
  runs := []
  trying := []

/-- A step with the login a share is connected with, that calls no release of a run a second
time while one is under way. -/
def Own (p : Program) (s : State) : Action → Prop
  | .visit i _ => ∀ run path rest root login, s.runs[i]? = some run → run.paths = path :: rest →
      run.wants p path = some (root, login) → 0 < s.shares.use (p.lower root) →
      s.shares.usedAs (p.lower root) = some login
  | .release i => ∀ run, s.runs[i]? = some run → run.releasing = []
  | .tryLogin _ _ _ => p.useShareLogins = true
  | _ => True

def system (p : Program) : System State Action where
  start s := s = start
  step before action after := step p before action = some after

def ownSystem (p : Program) : System State Action where
  start s := s = start
  step before action after := step p before action = some after ∧ Own p before action

/-- The connections are those of the runs and tries, each made with its own login. -/
structure Counted (s : State) : Prop where
  connected : ∀ key, s.shares.connections key ≠ none ↔
    (∃ run ∈ s.runs, ∃ login, (key, login) ∈ run.holds) ∨ ∃ t ∈ s.trying, t.key = key
  runs : ∀ run ∈ s.runs, ∀ h ∈ run.holds, s.shares.connections h.1 = some h.2
  tries : ∀ t ∈ s.trying, s.shares.connections t.key = some t.login

/-! The invariant. -/

def Run.names (run : Run) : List Bytes := run.holds.map Prod.fst

/-- The roots that the run has still to let go. -/
def Run.waiting (run : Run) : List Bytes :=
  match run.releasing with
  | [] => run.held
  | rest :: _ => rest

structure Run.Ok (p : Program) (run : Run) : Prop where
  names : run.names = run.waiting.map p.lower
  nodup : run.names.Nodup
  seen : ∀ key ∈ run.names, key ∈ run.seen
  one : run.releasing.length ≤ 1
  done : run.paths ≠ [] → run.releasing = []

def holders (runs : List Run) (key : Bytes) : Nat :=
  runs.countP fun run => run.names.contains key

structure Inv (p : Program) (s : State) : Prop where
  runs : ∀ run ∈ s.runs, run.Ok p
  counts : ∀ key, s.shares.use key = holders s.runs key
  used : ∀ key, 0 < s.shares.use key → s.shares.connections key = s.shares.usedAs key
  logins : ∀ run ∈ s.runs, ∀ h ∈ run.holds, s.shares.usedAs h.1 = some h.2
  idle : ∀ key, s.shares.use key = 0 → (∀ t ∈ s.trying, t.key ≠ key) →
    s.shares.connections key = none
  tries : ∀ t ∈ s.trying, s.shares.connections t.key = some t.login ∧
    (t.made = true ↔ s.shares.use t.key = 0)
  one : s.trying.length ≤ 1
  locks : s.trying ≠ [] → p.useShareLogins = true

variable {p : Program} {s : State}

theorem mem_names {run : Run} {key : Bytes} :
    key ∈ run.names ↔ ∃ login, (key, login) ∈ run.holds := by
  rw [Run.names, List.mem_map]
  constructor
  · rintro ⟨⟨_, login⟩, member, rfl⟩
    exact ⟨login, member⟩
  · rintro ⟨login, member⟩
    exact ⟨(key, login), member, rfl⟩

theorem holders_pos {runs : List Run} {key : Bytes} :
    0 < holders runs key ↔ ∃ run ∈ runs, ∃ login, (key, login) ∈ run.holds := by
  rw [holders, List.countP_pos_iff]
  simp only [List.contains_iff_mem, mem_names]

theorem Inv.counted (inv : Inv p s) : Counted s := by
  have held (run : Run) (member : run ∈ s.runs) (h : Bytes × ShareLogin) (holds : h ∈ run.holds) :
      s.shares.connections h.1 = some h.2 := by
    have counted : 0 < s.shares.use h.1 := by
      rw [inv.counts]
      exact holders_pos.mpr ⟨run, member, h.2, holds⟩
    rw [inv.used h.1 counted]
    exact inv.logins run member h holds
  refine ⟨fun key => ⟨fun connected => ?_, ?_⟩, held, fun t trying => (inv.tries t trying).1⟩
  · by_cases unused : s.shares.use key = 0
    · by_contra nobody
      refine connected (inv.idle key unused fun t trying same => ?_)
      exact nobody (.inr ⟨t, trying, same⟩)
    · rw [inv.counts] at unused
      exact .inl (holders_pos.mp (Nat.pos_of_ne_zero unused))
  · rintro (⟨run, member, login, holds⟩ | ⟨t, trying, rfl⟩)
    · rw [held run member (key, login) holds]
      exact nofun
    · rw [(inv.tries t trying).1]
      exact nofun

theorem holders_set {runs : List Run} {i : Nat} {run : Run} (found : runs[i]? = some run)
    (changed : Run) (key : Bytes) :
    holders (runs.set i changed) key + (if run.names.contains key then 1 else 0) =
      holders runs key + (if changed.names.contains key then 1 else 0) := by
  obtain ⟨inside, here⟩ := List.getElem?_eq_some_iff.mp found
  have counted : (if run.names.contains key then 1 else 0) ≤ holders runs key := by
    split
    · rename_i holds
      have named := mem_names.mp (List.contains_iff_mem.mp holds)
      exact holders_pos.mpr ⟨run, List.mem_of_getElem? found, named⟩
    · exact Nat.zero_le _
  rw [holders, List.countP_set inside, here, ← holders]
  omega

theorem Inv.start (p : Program) : Inv p start := by
  constructor
  case runs => exact nofun
  case counts => exact fun _ => rfl
  case used => exact nofun
  case logins => exact nofun
  case idle => exact fun _ _ _ => rfl
  case tries => exact nofun
  case one => exact Nat.zero_le _
  case locks => exact fun trying => absurd rfl trying

/-- A run that holds what it held before. -/
theorem Inv.run (inv : Inv p s) {i : Nat} {run changed : Run} (found : s.runs[i]? = some run)
    (ok : changed.Ok p) (same : changed.holds = run.holds) :
    Inv p { s with runs := s.runs.set i changed } := by
  have member := List.mem_of_getElem? found
  have names : changed.names = run.names := by rw [Run.names, same, Run.names]
  refine { inv with runs := ?_, counts := ?_, logins := ?_ }
  · intro other listed
    obtain earlier | rfl := List.mem_or_eq_of_mem_set listed
    · exact inv.runs other earlier
    · exact ok
  · intro key
    have count := holders_set found changed key
    rw [names] at count
    rw [inv.counts]
    exact (Nat.add_right_cancel count).symm
  · intro other listed h holds
    obtain earlier | rfl := List.mem_or_eq_of_mem_set listed
    · exact inv.logins other earlier h holds
    · rw [same] at holds
      exact inv.logins run member h holds

theorem Inv.unlocked (inv : Inv p s) (locked : ¬ s.locked p = true) : s.trying = [] := by
  by_contra trying
  apply locked
  rw [State.locked, inv.locks trying]
  simp [trying]

/-- With the login of the connection there is, an acquire counts one more. -/
theorem acquireShare_own {shares after : Shares} {key : Bytes} {login : ShareLogin}
    {connects : Bool} (ready : 0 < shares.use key → shares.connections key = shares.usedAs key)
    (own : 0 < shares.use key → shares.usedAs key = some login)
    (got : shares.acquireShare key login connects = some after) :
    after = { use := Function.update shares.use key (shares.use key + 1)
              usedAs := Function.update shares.usedAs key (some login)
              connections := Function.update shares.connections key (some login) } := by
  rw [Shares.acquireShare] at got
  split at got
  · rename_i unused
    split at got
    · obtain rfl := Option.some.inj got
      rw [unused]
    · cases got
  · rename_i used
    have counted := Nat.pos_of_ne_zero used
    obtain rfl := Option.some.inj got
    rw [← own counted, Function.update_eq_self, ← ready counted, Function.update_eq_self]

theorem Inv.acquire (inv : Inv p s) {i : Nat} {run changed : Run} (found : s.runs[i]? = some run)
    (free : s.trying = []) {key : Bytes} {login : ShareLogin} {connects : Bool} {after : Shares}
    (fresh : key ∉ run.names) (own : 0 < s.shares.use key → s.shares.usedAs key = some login)
    (got : s.shares.acquireShare key login connects = some after) (ok : changed.Ok p)
    (holds : changed.holds = run.holds ++ [(key, login)]) :
    Inv p { s with shares := after, runs := s.runs.set i changed } := by
  have member := List.mem_of_getElem? found
  obtain rfl := acquireShare_own (inv.used key) own got
  have names (other : Bytes) : other ∈ changed.names ↔ other ∈ run.names ∨ other = key := by
    rw [Run.names, holds, List.map_append, List.mem_append, List.map_singleton,
      List.mem_singleton, Run.names]
  -- Whoever holds the share already does so with this login.
  have logins (other : Run) (listed : other ∈ s.runs) (h : Bytes × ShareLogin)
      (held : h ∈ other.holds) :
      Function.update s.shares.usedAs key (some login) h.1 = some h.2 := by
    by_cases same : h.1 = key
    · have counted : 0 < s.shares.use key := by
        rw [inv.counts]
        exact holders_pos.mpr ⟨other, listed, h.2, same ▸ held⟩
      rw [same, Function.update_self, ← own counted, ← same]
      exact inv.logins other listed h held
    · rw [Function.update_of_ne same]
      exact inv.logins other listed h held
  constructor
  case runs =>
    intro other listed
    obtain earlier | rfl := List.mem_or_eq_of_mem_set listed
    · exact inv.runs other earlier
    · exact ok
  case counts =>
    intro other
    have count := holders_set found changed other
    simp only [List.contains_iff_mem, names] at count
    by_cases same : other = key
    · subst same
      rw [if_neg fresh, if_pos (.inr rfl)] at count
      simp only [Function.update_self, inv.counts]
      exact count.symm
    · simp only [same, or_false] at count
      simp only [Function.update_of_ne same, inv.counts]
      exact (Nat.add_right_cancel count).symm
  case used =>
    intro other counted
    by_cases same : other = key
    · subst same
      simp only [Function.update_self]
    · simp only [Function.update_of_ne same] at counted ⊢
      exact inv.used other counted
  case logins =>
    intro other listed h held
    obtain earlier | rfl := List.mem_or_eq_of_mem_set listed
    · exact logins other earlier h held
    · rw [holds, List.mem_append, List.mem_singleton] at held
      obtain before | rfl := held
      · exact logins run member h before
      · exact Function.update_self ..
  case idle =>
    intro other unused nobody
    by_cases same : other = key
    · subst same
      simp only [Function.update_self] at unused
      exact absurd unused (Nat.succ_ne_zero _)
    · simp only [Function.update_of_ne same] at unused ⊢
      exact inv.idle other unused nobody
  case tries =>
    intro t trying
    rw [free] at trying
    cases trying
  case one => exact inv.one
  case locks => exact inv.locks

theorem Inv.let_go (inv : Inv p s) {i : Nat} {run changed : Run} (found : s.runs[i]? = some run)
    (free : s.trying = []) {key : Bytes} {login : ShareLogin}
    (holds : run.holds = (key, login) :: changed.holds) (ok : changed.Ok p)
    (once : key ∉ changed.names) :
    Inv p { s with shares := s.shares.releaseShare key, runs := s.runs.set i changed } := by
  have member := List.mem_of_getElem? found
  have names (other : Bytes) : other ∈ run.names ↔ other = key ∨ other ∈ changed.names := by
    rw [Run.names, holds, List.map_cons, List.mem_cons, Run.names]
  have count (other : Bytes) :
      holders (s.runs.set i changed) other =
        if other = key then s.shares.use key - 1 else s.shares.use other := by
    have count := holders_set found changed other
    simp only [List.contains_iff_mem, names] at count
    by_cases same : other = key
    · subst same
      rw [if_pos (.inl rfl), if_neg once] at count
      rw [if_pos rfl, inv.counts]
      omega
    · simp only [same, false_or] at count
      rw [if_neg same, inv.counts]
      exact Nat.add_right_cancel count
  have counted : 0 < s.shares.use key := by
    rw [inv.counts]
    exact holders_pos.mpr ⟨run, member, login, holds ▸ List.mem_cons_self⟩
  have listed_before {other : Run} {h : Bytes × ShareLogin} (listed : other ∈ s.runs.set i changed)
      (held : h ∈ other.holds) : s.shares.usedAs h.1 = some h.2 := by
    obtain earlier | rfl := List.mem_or_eq_of_mem_set listed
    · exact inv.logins other earlier h held
    · exact inv.logins run member h (holds ▸ List.mem_cons_of_mem _ held)
  have use : (s.shares.releaseShare key).use =
      Function.update s.shares.use key (s.shares.use key - 1) := by
    rw [Shares.releaseShare, if_neg (Nat.ne_of_gt counted)]
    split
    · rename_i last
      rw [last]
    · rfl
  have others {other : Bytes} (different : other ≠ key) :
      (s.shares.releaseShare key).usedAs other = s.shares.usedAs other ∧
        (s.shares.releaseShare key).connections other = s.shares.connections other := by
    rw [Shares.releaseShare, if_neg (Nat.ne_of_gt counted)]
    split
    · exact ⟨Function.update_of_ne different .., Function.update_of_ne different ..⟩
    · exact ⟨rfl, rfl⟩
  have shared (more : s.shares.use key - 1 ≠ 0) :
      (s.shares.releaseShare key).usedAs = s.shares.usedAs ∧
        (s.shares.releaseShare key).connections = s.shares.connections := by
    rw [Shares.releaseShare, if_neg (Nat.ne_of_gt counted), if_neg more]
    exact ⟨rfl, rfl⟩
  constructor
  case runs =>
    intro other listed
    obtain earlier | rfl := List.mem_or_eq_of_mem_set listed
    · exact inv.runs other earlier
    · exact ok
  case counts =>
    intro other
    simp only [use, count, Function.update_apply]
  case used =>
    intro other more
    simp only [use, Function.update_apply] at more
    by_cases same : other = key
    · subst same
      rw [if_pos rfl] at more
      simp only [shared (Nat.ne_of_gt more)]
      exact inv.used other counted
    · rw [if_neg same] at more
      simp only [others same]
      exact inv.used other more
  case logins =>
    intro other listed h held
    by_cases same : h.1 = key
    · have more : 0 < holders (s.runs.set i changed) h.1 :=
        holders_pos.mpr ⟨other, listed, h.2, held⟩
      rw [count, if_pos same] at more
      simp only [shared (Nat.ne_of_gt more)]
      exact listed_before listed held
    · simp only [others same]
      exact listed_before listed held
  case idle =>
    intro other unused nobody
    simp only [use, Function.update_apply] at unused
    by_cases same : other = key
    · subst same
      rw [if_pos rfl] at unused
      simp only [Shares.releaseShare, if_neg (Nat.ne_of_gt counted), if_pos unused, Function.update_self]
    · rw [if_neg same] at unused
      simp only [others same]
      exact inv.idle other unused nobody
  case tries =>
    intro t trying
    rw [free] at trying
    cases trying
  case one => exact inv.one
  case locks => exact inv.locks

theorem wants_some {run : Run} {path root : Bytes} {login : ShareLogin}
    (wants : run.wants p path = some (root, login)) :
    p.lower root ∉ run.seen ∧ (run.see p path).seen = p.lower root :: run.seen := by
  obtain ⟨⟨server, found⟩, split, rest⟩ := Option.bind_eq_some_iff.mp wants
  simp only at rest
  split at rest
  · cases rest
  · rename_i fresh
    obtain ⟨_, -, same⟩ := Option.bind_eq_some_iff.mp rest
    obtain ⟨rfl, rfl⟩ := Prod.mk.inj (Option.some.inj same)
    exact ⟨fun seen => fresh (List.contains_iff_mem.mpr seen), by rw [Run.see, split]⟩

theorem see_same (run : Run) (path : Bytes) :
    (run.see p path).holds = run.holds ∧ (run.see p path).held = run.held ∧
      (run.see p path).releasing = run.releasing ∧ ∀ key ∈ run.seen, key ∈ (run.see p path).seen := by
  rw [Run.see]
  split
  · exact ⟨rfl, rfl, rfl, fun _ seen => seen⟩
  · exact ⟨rfl, rfl, rfl, fun _ seen => List.mem_cons_of_mem _ seen⟩

/-- A path that is passed by. -/
theorem Run.Ok.passed {run : Run} (ok : run.Ok p) {path : Bytes} {rest : List Bytes}
    (paths : run.paths = path :: rest) : { run.see p path with paths := rest }.Ok p := by
  obtain ⟨holds, held, releasing, seen⟩ := see_same (p := p) run path
  have going : run.releasing = [] := ok.done (paths ▸ List.cons_ne_nil _ _)
  have names : ({ run.see p path with paths := rest } : Run).names = run.names := by
    rw [Run.names, holds, Run.names]
  constructor
  case names =>
    rw [names, ok.names, Run.waiting, Run.waiting]
    simp only [held, releasing]
  case nodup => exact names ▸ ok.nodup
  case seen =>
    intro key held
    exact seen key (ok.seen key (names ▸ held))
  case one => exact releasing ▸ ok.one
  case done => exact fun _ => releasing.trans going

theorem Run.Ok.acquired {run : Run} (ok : run.Ok p) {path root : Bytes} {rest : List Bytes}
    {login : ShareLogin} (paths : run.paths = path :: rest)
    (wants : run.wants p path = some (root, login)) :
    p.lower root ∉ run.names ∧
      { run.see p path with
        paths := rest, held := run.held ++ [root]
        holds := run.holds ++ [(p.lower root, login)] }.Ok p := by
  obtain ⟨fresh, see⟩ := wants_some wants
  obtain ⟨-, -, releasing, -⟩ := see_same (p := p) run path
  have going : run.releasing = [] := ok.done (paths ▸ List.cons_ne_nil _ _)
  have missing : p.lower root ∉ run.names := fun held => fresh (ok.seen _ held)
  have before : run.names = run.held.map p.lower := by
    rw [ok.names, Run.waiting, going]
  have names : ({ run.see p path with
      paths := rest, held := run.held ++ [root]
      holds := run.holds ++ [(p.lower root, login)] } : Run).names =
      run.names ++ [p.lower root] := List.map_append
  refine ⟨missing, ?_⟩
  constructor
  case names =>
    rw [names, before, Run.waiting]
    simp only [releasing, going, List.map_append, List.map_singleton]
  case nodup =>
    rw [names]
    refine List.nodup_append.mpr ⟨ok.nodup, List.pairwise_singleton _ _, ?_⟩
    intro a held b last
    obtain rfl := List.mem_singleton.mp last
    rintro rfl
    exact missing held
  case seen =>
    intro key held
    rw [names, List.mem_append, List.mem_singleton] at held
    simp only [see, List.mem_cons]
    obtain earlier | last := held
    · exact .inr (ok.seen key earlier)
    · exact .inl last
  case one => exact releasing ▸ ok.one
  case done => exact fun _ => releasing.trans going

theorem visit_inv (inv : Inv p s) {i : Nat} {run changed : Run} {connects : Bool} {after : Shares}
    (found : s.runs[i]? = some run) (own : Own p s (.visit i connects))
    (visited : visit p s run connects = some (after, changed)) :
    Inv p { s with shares := after, runs := s.runs.set i changed } := by
  have ok := inv.runs run (List.mem_of_getElem? found)
  have holds (path : Bytes) := (see_same (p := p) run path).1
  rw [visit] at visited
  split at visited
  · cases visited
  · rename_i path rest paths
    split at visited
    · obtain ⟨rfl, rfl⟩ := Prod.mk.inj (Option.some.inj visited)
      exact inv.run found (ok.passed paths) (holds path)
    · rename_i root login wants
      split at visited
      · cases visited
      · rename_i unlocked
        split at visited
        · obtain ⟨rfl, rfl⟩ := Prod.mk.inj (Option.some.inj visited)
          obtain ⟨names, nodup, seen, one, done⟩ := ok.passed paths
          exact inv.run found ⟨names, nodup, seen, one, done⟩ (holds path)
        · rename_i got
          obtain ⟨rfl, rfl⟩ := Prod.mk.inj (Option.some.inj visited)
          obtain ⟨fresh, acquired⟩ := ok.acquired paths wants
          exact inv.acquire found (inv.unlocked unlocked) fresh
            (own run path rest root login found paths wants) got acquired rfl

/-- The only call of release that is under way. -/
theorem releasing_one {run : Run} (ok : run.Ok p) {j : Nat} {roots : List Bytes}
    (call : run.releasing[j]? = some roots) : run.releasing = [roots] ∧ j = 0 := by
  have inside := (List.getElem?_eq_some_iff.mp call).1
  have one := ok.one
  obtain rfl : j = 0 := by omega
  obtain ⟨only, single⟩ := List.length_eq_one_iff.mp (show run.releasing.length = 1 by omega)
  rw [single] at call
  obtain rfl := Option.some.inj call
  exact ⟨single, rfl⟩

theorem letGo_inv (inv : Inv p s) {i j : Nat} {run changed : Run} {after : Shares}
    (found : s.runs[i]? = some run) (ran : letGo p s run j = some (after, changed)) :
    Inv p { s with shares := after, runs := s.runs.set i changed } := by
  have ok := inv.runs run (List.mem_of_getElem? found)
  rw [letGo] at ran
  split at ran
  · rename_i root rest call
    split at ran
    · cases ran
    · rename_i unlocked
      obtain ⟨rfl, rfl⟩ := Prod.mk.inj (Option.some.inj ran)
      obtain ⟨single, rfl⟩ := releasing_one ok call
      have names : run.names = p.lower root :: rest.map p.lower := by
        rw [ok.names, Run.waiting, single, List.map_cons]
      -- The first share the run holds is the one that is let go.
      match held : run.holds with
      | [] =>
          rw [Run.names, held] at names
          cases names
      | (key, login) :: tail =>
          have nodup := ok.nodup
          rw [Run.names, held, List.map_cons] at names nodup
          obtain ⟨rfl, tails⟩ := List.cons.inj names
          obtain ⟨once, distinct⟩ := List.nodup_cons.mp nodup
          have filtered : ((p.lower root, login) :: tail).filter (fun h => h.1 ≠ p.lower root) =
              tail := by
            rw [List.filter_cons_of_neg (by simp)]
            apply List.filter_eq_self.mpr
            intro h member
            apply decide_eq_true
            intro same
            have listed : h.1 ∈ tail.map Prod.fst := List.mem_map_of_mem member
            exact once (same ▸ listed)
          rw [filtered, single]
          refine inv.let_go found (inv.unlocked unlocked) held ?_ once
          constructor
          case names => exact tails
          case nodup => exact distinct
          case seen =>
            intro other later
            refine ok.seen other ?_
            rw [Run.names, held]
            exact List.mem_cons_of_mem _ later
          case one => exact Nat.le_refl 1
          case done =>
            intro going
            have := ok.done going
            rw [single] at this
            cases this
  · cases ran

theorem try_inv (inv : Inv p s) {login : ShareLogin} {path : Bytes} {connects : Bool}
    {after : State} (uses : p.useShareLogins = true)
    (tried : tryShareLogin p s login path connects = some after) : Inv p after := by
  obtain ⟨⟨server, root⟩, -, ran⟩ := Option.bind_eq_some_iff.mp tried
  simp only [uses, not_true, if_false] at ran
  split at ran
  · cases ran
  · rename_i unlocked
    have free := inv.unlocked unlocked
    split at ran
    · rename_i used
      split at ran
      · obtain rfl := Option.some.inj ran
        exact inv
      · rename_i same
        obtain rfl := Option.some.inj ran
        -- The connection of the run that holds the share is the one that is used.
        have counted := used
        rw [inv.counts] at counted
        obtain ⟨run, member, saved, holds⟩ := holders_pos.mp counted
        have recorded := inv.logins run member _ holds
        rw [not_not, recorded] at same
        obtain rfl : saved = login := same
        refine { inv with idle := ?_, tries := ?_, one := Nat.le_refl 1, locks := fun _ => uses }
        · intro key unused _
          exact inv.idle key unused (free ▸ nofun)
        · intro t trying
          obtain rfl := List.mem_singleton.mp trying
          refine ⟨(inv.used _ used).trans recorded, ?_⟩
          simp only [Bool.false_eq_true, false_iff]
          exact Nat.ne_of_gt used
    · rename_i unused
      have none_ : s.shares.use (p.lower root) = 0 := Nat.eq_zero_of_not_pos unused
      split at ran
      · obtain rfl := Option.some.inj ran
        refine { inv with used := ?_, idle := ?_, tries := ?_, one := Nat.le_refl 1,
                          locks := fun _ => uses }
        · intro key counted
          have other : key ≠ p.lower root := by
            rintro rfl
            exact unused counted
          exact (Function.update_of_ne other ..).trans (inv.used key counted)
        · intro key unused nobody
          have other : key ≠ p.lower root := fun same => nobody _ (List.mem_singleton_self _) same.symm
          exact (Function.update_of_ne other ..).trans (inv.idle key unused (free ▸ nofun))
        · intro t trying
          obtain rfl := List.mem_singleton.mp trying
          exact ⟨Function.update_self .., iff_of_true rfl none_⟩
      · obtain rfl := Option.some.inj ran
        exact inv

theorem tried_inv (inv : Inv p s) {j : Nat} {t : Try} (found : s.trying[j]? = some t) :
    Inv p { s with
      shares := if t.made then s.shares.give t.key none else s.shares
      trying := s.trying.eraseIdx j } := by
  have inside := (List.getElem?_eq_some_iff.mp found).1
  have one := inv.one
  obtain rfl : j = 0 := by omega
  obtain ⟨only, single⟩ := List.length_eq_one_iff.mp (show s.trying.length = 1 by omega)
  rw [single] at found
  obtain rfl := Option.some.inj found
  obtain ⟨connection, made⟩ := inv.tries only (single ▸ List.mem_singleton_self _)
  have lone (key : Bytes) (other : key ≠ only.key) : ∀ t ∈ s.trying, t.key ≠ key := by
    intro t trying
    rw [single] at trying
    obtain rfl := List.mem_singleton.mp trying
    exact other.symm
  rw [single]
  by_cases own : only.made = true
  · have unused := made.mp own
    rw [if_pos own]
    refine { inv with used := ?_, idle := ?_, tries := nofun, one := Nat.zero_le 1, locks := nofun }
    · intro key counted
      have other : key ≠ only.key := by
        rintro rfl
        exact absurd unused (Nat.ne_of_gt counted)
      exact (Function.update_of_ne other ..).trans (inv.used key counted)
    · intro key unused _
      by_cases same : key = only.key
      · subst same
        exact Function.update_self ..
      · exact (Function.update_of_ne same ..).trans (inv.idle key unused (lone key same))
  · rw [if_neg own]
    refine { inv with idle := ?_, tries := nofun, one := Nat.zero_le 1, locks := nofun }
    intro key unused _
    refine inv.idle key unused (lone key ?_)
    rintro rfl
    exact own (made.mpr unused)

/-- One step of the system keeps the invariant. -/
theorem step_inv (inv : Inv p s) {action : Action} {after : State}
    (stepped : step p s action = some after) (own : Own p s action) : Inv p after := by
  cases action with
  | connect logins paths =>
      obtain rfl := Option.some.inj stepped
      refine { inv with runs := ?_, counts := ?_, logins := ?_ }
      · intro run listed
        obtain earlier | new := List.mem_append.mp listed
        · exact inv.runs run earlier
        · obtain rfl := List.mem_singleton.mp new
          exact ⟨rfl, .nil, nofun, Nat.zero_le 1, fun _ => rfl⟩
      · intro key
        have none_ : holders [begin_ p logins paths] key = 0 := rfl
        rw [holders, List.countP_append, ← holders, ← holders, none_, Nat.add_zero]
        exact inv.counts key
      · intro run listed h holds
        obtain earlier | new := List.mem_append.mp listed
        · exact inv.logins run earlier h holds
        · obtain rfl := List.mem_singleton.mp new
          cases holds
  | visit i connects =>
      obtain ⟨run, found, rest⟩ := Option.bind_eq_some_iff.mp stepped
      obtain ⟨⟨shares, changed⟩, visited, same⟩ := Option.bind_eq_some_iff.mp rest
      obtain rfl := Option.some.inj same
      exact visit_inv inv found own visited
  | release i =>
      obtain ⟨run, found, rest⟩ := Option.bind_eq_some_iff.mp stepped
      have ok := inv.runs run (List.mem_of_getElem? found)
      have idle := own run found
      split at rest
      · cases rest
      · rename_i finished
        obtain rfl := Option.some.inj rest
        refine inv.run found ?_ rfl
        constructor
        case names =>
          have names := ok.names
          rw [Run.waiting, idle] at names
          rw [Run.waiting, idle]
          exact names
        case nodup => exact ok.nodup
        case seen => exact ok.seen
        case one => simp only [idle, List.nil_append, List.length_singleton, Nat.le_refl]
        case done => exact fun going => absurd going finished
  | letGo i j =>
      obtain ⟨run, found, rest⟩ := Option.bind_eq_some_iff.mp stepped
      obtain ⟨⟨shares, changed⟩, ran, same⟩ := Option.bind_eq_some_iff.mp rest
      obtain rfl := Option.some.inj same
      exact letGo_inv inv found ran
  | released i j =>
      obtain ⟨run, found, rest⟩ := Option.bind_eq_some_iff.mp stepped
      have ok := inv.runs run (List.mem_of_getElem? found)
      split at rest
      · cases rest
      · rename_i call
        obtain rfl := Option.some.inj rest
        obtain ⟨single, rfl⟩ := releasing_one ok (not_not.mp call)
        have names := ok.names
        rw [Run.waiting, single] at names
        refine inv.run found ?_ rfl
        rw [single]
        exact ⟨names, ok.nodup, ok.seen, Nat.zero_le 1, fun _ => rfl⟩
  | tryLogin login path connects => exact try_inv inv own stepped
  | tried j =>
      obtain ⟨t, found, rest⟩ := Option.bind_eq_some_iff.mp stepped
      obtain rfl := Option.some.inj rest
      exact tried_inv inv found

theorem own_invariant (p : Program) : Invariant (ownSystem p) (Inv p) where
  start := by
    rintro _ rfl
    exact .start p
  step _ _ _ inv stepped := step_inv inv stepped.1 stepped.2

/-- Where each step takes a share that is held with the login of its connection, the
connections are those of the runs and tries in every state. -/
theorem shares_counted {p : Program} {s : State} (reached : Reachable (ownSystem p) s) :
    Counted s :=
  ((own_invariant p).reachable reached).counted

theorem Own.of_visit {i : Nat} {connects : Bool} {run : Run} {path root : Bytes}
    {rest : List Bytes} {login : ShareLogin} (found : s.runs[i]? = some run)
    (paths : run.paths = path :: rest) (wants : run.wants p path = some (root, login))
    (same : 0 < s.shares.use (p.lower root) → s.shares.usedAs (p.lower root) = some login) :
    Own p s (.visit i connects) := by
  intro other path' rest' root' login' found' paths' wants'
  obtain rfl := Option.some.inj (found.symm.trans found')
  obtain ⟨rfl, rfl⟩ := List.cons.inj (paths.symm.trans paths')
  obtain ⟨rfl, rfl⟩ := Prod.mk.inj (Option.some.inj (wants.symm.trans wants'))
  exact same

theorem own_next {before middle after : State} {action : Action} {rest : List Action}
    (stepped : step p before action = some middle) (own : Own p before action)
    (run : TransitionSystem.Run (ownSystem p) middle rest after) :
    TransitionSystem.Run (ownSystem p) before (action :: rest) after :=
  .next ⟨stepped, own⟩ run

/-- The service, for text of ASCII letters. -/
def service : Program where
  useShareLogins := true
  lower := List.map fun b => if 65 ≤ b ∧ b ≤ 90 then b + 32 else b
  upper := List.map fun b => if 97 ≤ b ∧ b ≤ 122 then b - 32 else b
  trim b := ((b.dropWhile (· = 32)).reverse.dropWhile (· = 32)).reverse

/-- \\nas\s\x -/
def folder : Bytes := [92, 92, 110, 97, 115, 92, 115, 92, 120]

def saved (user : UInt8) : Bytes → Option ShareLogin := fun key =>
  if key = [110, 97, 115] then some ⟨[user], [112]⟩ else none

/-- A run that reads the folder, and a second one, with these two users. -/
def twoRuns (first second : UInt8) : List Action :=
  [.connect (saved first) [folder], .visit 0 true, .connect (saved second) [folder], .visit 1 true]

def after (actions : List Action) : State := (actions.foldlM (step service) start).getD start

theorem both_hold_the_share : (after (twoRuns 117 117)).shares.use (folder.take 7) = 2 ∧
    Counted (after (twoRuns 117 117)) := by
  refine ⟨by decide, shares_counted (p := service) ⟨start, twoRuns 117 117, rfl, ?_⟩⟩
  refine own_next rfl ?_ ?_
  · trivial
  refine own_next rfl (Own.of_visit rfl rfl rfl fun used => absurd used (by decide)) ?_
  refine own_next rfl ?_ ?_
  · trivial
  refine own_next rfl (Own.of_visit rfl rfl rfl fun _ => rfl) ?_
  exact TransitionSystem.Run.stop _

/-- The second user is told that the share is connected, over the connection of the first. -/
theorem second_user_reads_as_the_first : Reachable (system service) (after (twoRuns 117 118)) ∧
    ¬ Counted (after (twoRuns 117 118)) := by
  refine ⟨⟨start, twoRuns 117 118, rfl, run_of_foldlM (step service) (fun _ _ _ => id) rfl⟩, ?_⟩
  intro counted
  have held := counted.runs ((after (twoRuns 117 118)).runs.get ⟨1, by decide⟩)
    (List.get_mem _ _) (folder.take 7, ⟨[118], [112]⟩) (by decide)
  exact absurd held (by decide)

end ProxmoxBackup.ShareConnections
