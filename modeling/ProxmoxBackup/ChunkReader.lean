import Mathlib.Logic.Function.Basic
import ProxmoxBackup.ChunkIndex
import ProxmoxBackup.TransitionSystem

/-! DIDXReaderAt: any number of ReadAt calls and prefetch workers over one cache. A
thread's steps are those of ensureChunk: a look into the cache, the section under
inflightMu (the second look takes it and the look at inflight gives it back), the wait
on a channel, fetchOnce. triggerPrefetch is a worker started at any time for any chunk,
and looks that move a chunk to the front of the cache. -/

namespace ProxmoxBackup.ChunkReader

open ArchiveNames (Text)
open ChunkIndex GoValues TransitionSystem

/-! chunkCache, the chunk used last first. -/

abbrev Cache := List (Nat × Bytes)

def Cache.get (cache : Cache) (ci : Nat) : Option (Bytes × Cache) :=
  match cache.find? fun e => e.1 = ci with
  | none => none
  | some e => some (e.2, e :: cache.filter fun e => e.1 ≠ ci)

def Cache.put (cap : Nat) (cache : Cache) (ci : Nat) (data : Bytes) : Cache :=
  if (cache.find? fun e => e.1 = ci).isSome then (ci, data) :: cache.filter fun e => e.1 ≠ ci
  else ((ci, data) :: cache).take cap

theorem Cache.get_some {cache rest : Cache} {ci : Nat} {data : Bytes}
    (found : cache.get ci = some (data, rest)) :
    (ci, data) ∈ cache ∧ ∀ e ∈ rest, e ∈ cache := by
  unfold Cache.get at found
  split at found
  · cases found
  · next e known =>
      cases found
      have named : e.1 = ci := by simpa using List.find?_some known
      have listed := List.mem_of_find?_eq_some known
      refine ⟨named ▸ listed, fun other member => ?_⟩
      rcases List.mem_cons.mp member with rfl | member
      · exact listed
      · exact (List.mem_filter.mp member).1

theorem Cache.get_none {cache : Cache} {ci : Nat} (missing : cache.get ci = none) :
    ∀ e ∈ cache, e.1 ≠ ci := by
  intro e listed
  unfold Cache.get at missing
  split at missing
  · next absent => simpa using List.find?_eq_none.mp absent e listed
  · cases missing

theorem Cache.mem_put {cap : Nat} {cache : Cache} {ci : Nat} {data : Bytes} :
    ∀ e ∈ cache.put cap ci data, e = (ci, data) ∨ e ∈ cache := by
  intro e member
  unfold Cache.put at member
  split at member
  · rcases List.mem_cons.mp member with same | member
    · exact Or.inl same
    · exact Or.inr (List.mem_filter.mp member).1
  · exact List.mem_cons.mp (List.mem_of_mem_take member)

/-! The reader. -/

/-- Who asks for a chunk: a prefetch worker, or ReadAt with the bytes it has so far. -/
inductive Task where
  | worker
  | read (off len : Nat) (p : Bytes)
  deriving DecidableEq

/-- Where a thread is in ensureChunk. fetchOnce runs for the owner of a channel, or for
a waiter that did not find the chunk. -/
inductive Pc where
  | look
  | relook
  | check
  | waiting (ch : Nat)
  | woken
  | starting (own : Option Nat)
  | fetching (own : Option Nat)
  | storing (own : Option Nat) (chunk : Bytes)
  | leaving (ch : Nat) (result : Except ReadError Bytes)
  | closing (ch : Nat) (result : Except ReadError Bytes)
  deriving DecidableEq

inductive Thread where
  | idle
  | busy (task : Task) (ci : Nat) (pc : Pc)
  | returned (off : Int) (len : Nat) (p : Bytes) (err : Option ReadError)
  | panicked
  deriving DecidableEq

/-- closed are the channels that are; holder has inflightMu. -/
structure State where
  cache : Cache
  inflight : Nat → Option Nat
  closed : Nat → Bool
  channels : Nat
  holder : Option Nat
  thread : Nat → Thread

inductive Action where
  | readAt (t : Nat) (off : Int) (len : Nat) (cancelled : Bool)
  | prefetch (t ci : Nat)
  | glance (ci : Nat)
  | cancel (t : Nat)
  | turn (t : Nat)
  | reply (t : Nat) (got : Option Bytes)

/-- The index read over, the size of the cache, and the digest of a chunk. -/
structure Setting where
  idx : didxIndex
  cap : Nat
  ChunkMatchesDigest : Bytes → Text → Bool

section

variable (g : Setting)

/-- The top of ReadAt's loop. -/
def proceed (off len : Nat) (p : Bytes) : Thread :=
  match g.idx.needed off len p.length with
  | none => .returned off len p (didxIndex.atEnd len p.length)
  | some ci => .busy (.read off len p) ci .look

/-- What chunkAt's caller does with its result. -/
def resume (task : Task) (ci : Nat) (result : Except ReadError Bytes) : Thread :=
  match task with
  | .worker => .idle
  | .read off len p =>
      match result with
      | .error err => .returned off len p (some err)
      | .ok chunk =>
          match g.idx.copied off len p.length ci chunk with
          | none => .panicked
          | some bytes => proceed g off len (p ++ bytes)

/-- Behind fetchOnce. -/
def fetched (own : Option Nat) (task : Task) (ci : Nat) (result : Except ReadError Bytes) : Thread :=
  match own with
  | some ch => .busy task ci (.leaving ch result)
  | none => resume g task ci result

/-- A ReadAt call as far as its loop. -/
def enter (off : Int) (len : Nat) (cancelled : Bool) : Thread :=
  if cancelled then .returned off len [] (some .cancelled)
  else if off < 0 then .returned off len [] (some (.negativeOffset off))
  else if off ≥ int64 g.idx.total then .returned off len [] (some .eof)
  else proceed g off.toNat len []

def State.move (s : State) (t : Nat) (thread : Thread) : State :=
  { s with thread := Function.update s.thread t thread }

/-- A thread's next step, where it does not wait. -/
def turn (s : State) (t : Nat) (task : Task) (ci : Nat) : Pc → Option State
  | .look =>
      match s.cache.get ci with
      | some (data, cache) => some ({ s with cache }.move t (resume g task ci (.ok data)))
      | none => some (s.move t (.busy task ci .relook))
  | .relook =>
      if s.holder.isSome then none
      else match s.cache.get ci with
        | some (data, cache) => some ({ s with cache }.move t (resume g task ci (.ok data)))
        | none => some ({ s with holder := some t }.move t (.busy task ci .check))
  | .check =>
      match s.inflight ci with
      | some ch => some ({ s with holder := none }.move t (.busy task ci (.waiting ch)))
      | none =>
          some ({ s with
            holder := none
            inflight := Function.update s.inflight ci (some s.channels)
            channels := s.channels + 1 }.move t (.busy task ci (.starting (some s.channels))))
  | .waiting ch => if s.closed ch then some (s.move t (.busy task ci .woken)) else none
  | .woken =>
      match s.cache.get ci with
      | some (data, cache) => some ({ s with cache }.move t (resume g task ci (.ok data)))
      | none => some (s.move t (.busy task ci (.starting none)))
  | .starting own => some (s.move t (.busy task ci (.fetching own)))
  | .fetching _ => none
  | .storing own chunk =>
      some ({ s with cache := s.cache.put g.cap ci chunk }.move t (fetched g own task ci (.ok chunk)))
  | .leaving ch result =>
      if s.holder.isSome then none
      else some ({ s with inflight := Function.update s.inflight ci none }.move t
        (.busy task ci (.closing ch result)))
  | .closing ch result =>
      some ({ s with closed := Function.update s.closed ch true }.move t (resume g task ci result))

/-- What GetChunkData's return leads to. -/
def reply (own : Option Nat) (task : Task) (ci : Nat) (got : Option Bytes) : Thread :=
  match g.idx.fetchOnce g.ChunkMatchesDigest got ci with
  | .ok chunk => .busy task ci (.storing own chunk)
  | .error err => fetched g own task ci (.error err)
  | .panicked => .panicked

def step (s : State) : Action → Option State
  | .readAt t off len cancelled =>
      match s.thread t with
      | .idle => some (s.move t (enter g off len cancelled))
      | _ => none
  | .prefetch t ci =>
      match s.thread t with
      | .idle => if ci < g.idx.digests.length then some (s.move t (.busy .worker ci .look)) else none
      | _ => none
  | .glance ci =>
      match s.cache.get ci with
      | some (_, cache) => some { s with cache }
      | none => some s
  | .cancel t =>
      match s.thread t with
      | .busy (.read off len p) _ .look => some (s.move t (.returned off len p (some .cancelled)))
      | _ => none
  | .turn t =>
      match s.thread t with
      | .busy task ci pc => turn g s t task ci pc
      | _ => none
  | .reply t got =>
      match s.thread t with
      | .busy task ci (.fetching own) => some (s.move t (reply g own task ci got))
      | _ => none

def fresh : State := ⟨[], fun _ => none, fun _ => false, 0, none, fun _ => .idle⟩

def reader : System State Action where
  start s := s = fresh
  step s action next := step g s action = some next

end

/-! What a step can do. -/

inductive Does (g : Setting) (s : State) : Action → State → Prop where
  | readAt (t : Nat) (off : Int) (len : Nat) (cancelled : Bool) (at_ : s.thread t = .idle) :
      Does g s (.readAt t off len cancelled) (s.move t (enter g off len cancelled))
  | prefetch (t ci : Nat) (at_ : s.thread t = .idle) (listed : ci < g.idx.digests.length) :
      Does g s (.prefetch t ci) (s.move t (.busy .worker ci .look))
  | glance (ci : Nat) (data : Bytes) (cache : Cache) (found : s.cache.get ci = some (data, cache)) :
      Does g s (.glance ci) { s with cache }
  | blank (ci : Nat) : Does g s (.glance ci) s
  | cancel (t off len : Nat) (p : Bytes) (ci : Nat)
      (at_ : s.thread t = .busy (.read off len p) ci .look) :
      Does g s (.cancel t) (s.move t (.returned off len p (some .cancelled)))
  | hit (t : Nat) (task : Task) (ci : Nat) (pc : Pc) (data : Bytes) (cache : Cache)
      (at_ : s.thread t = .busy task ci pc) (where_ : pc = .look ∨ pc = .relook ∨ pc = .woken)
      (found : s.cache.get ci = some (data, cache)) :
      Does g s (.turn t) ({ s with cache }.move t (resume g task ci (.ok data)))
  | miss (t : Nat) (task : Task) (ci : Nat) (at_ : s.thread t = .busy task ci .look) :
      Does g s (.turn t) (s.move t (.busy task ci .relook))
  | locked (t : Nat) (task : Task) (ci : Nat) (at_ : s.thread t = .busy task ci .relook)
      (free : s.holder = none) (missing : s.cache.get ci = none) :
      Does g s (.turn t) ({ s with holder := some t }.move t (.busy task ci .check))
  | joined (t : Nat) (task : Task) (ci ch : Nat) (at_ : s.thread t = .busy task ci .check)
      (running : s.inflight ci = some ch) :
      Does g s (.turn t) ({ s with holder := none }.move t (.busy task ci (.waiting ch)))
  | opened (t : Nat) (task : Task) (ci : Nat) (at_ : s.thread t = .busy task ci .check)
      (none_ : s.inflight ci = none) :
      Does g s (.turn t) ({ s with
        holder := none
        inflight := Function.update s.inflight ci (some s.channels)
        channels := s.channels + 1 }.move t (.busy task ci (.starting (some s.channels))))
  | waited (t : Nat) (task : Task) (ci ch : Nat) (at_ : s.thread t = .busy task ci (.waiting ch)) :
      Does g s (.turn t) (s.move t (.busy task ci .woken))
  | alone (t : Nat) (task : Task) (ci : Nat) (at_ : s.thread t = .busy task ci .woken)
      (missing : s.cache.get ci = none) :
      Does g s (.turn t) (s.move t (.busy task ci (.starting none)))
  | started (t : Nat) (task : Task) (ci : Nat) (own : Option Nat)
      (at_ : s.thread t = .busy task ci (.starting own)) :
      Does g s (.turn t) (s.move t (.busy task ci (.fetching own)))
  | stored (t : Nat) (task : Task) (ci : Nat) (own : Option Nat) (chunk : Bytes)
      (at_ : s.thread t = .busy task ci (.storing own chunk)) :
      Does g s (.turn t)
        ({ s with cache := s.cache.put g.cap ci chunk }.move t (fetched g own task ci (.ok chunk)))
  | left (t : Nat) (task : Task) (ci ch : Nat) (result : Except ReadError Bytes)
      (at_ : s.thread t = .busy task ci (.leaving ch result)) (free : s.holder = none) :
      Does g s (.turn t) ({ s with inflight := Function.update s.inflight ci none }.move t
        (.busy task ci (.closing ch result)))
  | closed (t : Nat) (task : Task) (ci ch : Nat) (result : Except ReadError Bytes)
      (at_ : s.thread t = .busy task ci (.closing ch result)) :
      Does g s (.turn t)
        ({ s with closed := Function.update s.closed ch true }.move t (resume g task ci result))
  | replied (t : Nat) (got : Option Bytes) (task : Task) (ci : Nat) (own : Option Nat)
      (at_ : s.thread t = .busy task ci (.fetching own)) :
      Does g s (.reply t got) (s.move t (reply g own task ci got))

theorem turn_does {g : Setting} {s next : State} {t : Nat} {task : Task} {ci : Nat} {pc : Pc}
    (at_ : s.thread t = .busy task ci pc) (taken : turn g s t task ci pc = some next) :
    Does g s (.turn t) next := by
  cases pc with
  | look =>
      simp only [turn] at taken
      split at taken
      · next data cache found =>
          cases taken
          exact .hit t task ci .look data cache at_ (Or.inl rfl) found
      · cases taken
        exact .miss t task ci at_
  | relook =>
      simp only [turn] at taken
      split at taken
      · cases taken
      · next free =>
          have free : s.holder = none := by simpa using free
          split at taken
          · next data cache found =>
              cases taken
              exact .hit t task ci .relook data cache at_ (Or.inr (Or.inl rfl)) found
          · next missing =>
              cases taken
              exact .locked t task ci at_ free missing
  | check =>
      simp only [turn] at taken
      split at taken
      · next ch running =>
          cases taken
          exact .joined t task ci ch at_ running
      · next none_ =>
          cases taken
          exact .opened t task ci at_ none_
  | waiting ch =>
      simp only [turn] at taken
      split at taken
      · cases taken
        exact .waited t task ci ch at_
      · cases taken
  | woken =>
      simp only [turn] at taken
      split at taken
      · next data cache found =>
          cases taken
          exact .hit t task ci .woken data cache at_ (Or.inr (Or.inr rfl)) found
      · next missing =>
          cases taken
          exact .alone t task ci at_ missing
  | starting own =>
      cases taken
      exact .started t task ci own at_
  | fetching own => cases taken
  | storing own chunk =>
      cases taken
      exact .stored t task ci own chunk at_
  | leaving ch result =>
      simp only [turn] at taken
      split at taken
      · cases taken
      · next free =>
          cases taken
          exact .left t task ci ch result at_ (by simpa using free)
  | closing ch result =>
      cases taken
      exact .closed t task ci ch result at_

theorem step_does {g : Setting} {s next : State} {action : Action}
    (taken : step g s action = some next) : Does g s action next := by
  cases action with
  | readAt t off len cancelled =>
      simp only [step] at taken
      split at taken
      · next at_ =>
          cases taken
          exact .readAt t off len cancelled at_
      · cases taken
  | prefetch t ci =>
      simp only [step] at taken
      split at taken
      · next at_ =>
          split at taken
          · next listed =>
              cases taken
              exact .prefetch t ci at_ listed
          · cases taken
      · cases taken
  | glance ci =>
      simp only [step] at taken
      split at taken
      · next data cache found =>
          cases taken
          exact .glance ci data cache found
      · cases taken
        exact .blank ci
  | cancel t =>
      simp only [step] at taken
      split at taken
      · next off len p ci at_ =>
          cases taken
          exact .cancel t off len p ci at_
      · cases taken
  | turn t =>
      simp only [step] at taken
      split at taken
      · next task ci pc at_ => exact turn_does at_ taken
      · cases taken
  | reply t got =>
      simp only [step] at taken
      split at taken
      · next task ci own at_ =>
          cases taken
          exact .replied t got task ci own at_
      · cases taken

end ProxmoxBackup.ChunkReader
