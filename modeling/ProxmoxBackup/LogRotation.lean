import ProxmoxBackup.TransitionSystem
import Mathlib.Data.List.Basic

/-! The rotating log of gui/log_rotation.go: Write moves a full file to a name with the
second, and a goroutine for each compresses it, removes it and cleans up. A Write holds
the lock and shares one file operation with the goroutines, the rename, so it is one step;
a goroutine goes from one file operation to the next. -/

namespace ProxmoxBackup.LogRotation

open TransitionSystem

/-- What one WriteString left in a file; the number tells lines of one text apart. -/
structure Line where
  number : Nat
  text : List UInt8
  whole : Bool
  deriving DecidableEq

abbrev Content := List Line

def size (content : Content) : Nat := (content.flatMap (·.text)).length

/-- The lines whose Write returned no error. -/
def lines (content : Content) : List Line := content.filter (·.whole)

/-- The name of a rotated file. The seconds have one length, so names stand in the order
of their seconds, each .gz behind its original. -/
structure Name where
  stamp : Nat
  gz : Bool
  deriving DecidableEq

/-- Where compressAndCleanup is. -/
inductive Phase where
  | started
  | opened (src : Content)
  | created (src : Content)
  | copied
  | failed
  | cleaning
  | sweeping (listed left : List Name)
  | ended
  deriving DecidableEq

/-- The .gz does not stand for the original yet. -/
def Phase.half : Phase → Bool
  | .created _ | .copied | .failed => true
  | .started | .opened _ | .cleaning | .sweeping _ _ | .ended => false

/-- The rotated files of one second and the goroutines at work on them; `moved` is what
the last rename brought. -/
structure Slot where
  stamp : Nat
  raw : Option Content
  gz : Option Content
  tasks : List Phase
  moved : Content
  deriving DecidableEq

structure Config where
  maxSize : Nat
  maxFiles : Nat
  windows : Bool

/-- `current` is the file at the log's path and `opened` whether the logger has it open;
`written` is the lines whose Write returned no error, `swept` those that were in a file
cleanup removed with at least maxFiles newer ones. -/
structure State where
  opened : Bool
  currentSize : Nat
  current : Option Content
  slots : List Slot
  count : Nat
  written : List Line
  swept : List Line
  deriving DecidableEq

/-- What a Write meets: the second, whether each file operation of a rotation succeeds,
and the bytes that a failing WriteString leaves. -/
structure Fate where
  stamp : Nat
  renamed : Bool
  created : Bool
  reopened : Bool
  statted : Bool
  taken : Option Nat

/-! Write and rotate. -/

def reopenOrDie (fate : Fate) (s : State) : State :=
  if fate.reopened then
    { s with
      opened := true
      current := some (s.current.getD [])
      currentSize := if fate.statted then size (s.current.getD []) else s.currentSize }
  else { s with opened := false }

/-- A rename to the name of a second, over the file that may have it. -/
def moveTo (stamp : Nat) (content : Content) (tasks : List Phase) : List Slot → List Slot
  | [] => [⟨stamp, some content, none, tasks, content⟩]
  | e :: rest =>
      if stamp < e.stamp then ⟨stamp, some content, none, tasks, content⟩ :: e :: rest
      else if stamp = e.stamp then
        { e with raw := some content, tasks := e.tasks ++ tasks, moved := content } :: rest
      else e :: moveTo stamp content tasks rest

/-- The goroutine of a rotation; on Windows it starts only once the new file is open. -/
def launched (c : Config) (fate : Fate) : List Phase :=
  if c.windows && !fate.created then [] else [.started]

def rotate (c : Config) (fate : Fate) (s : State) : State :=
  match s.current with
  | some content =>
      if fate.renamed then
        let s := { s with
          current := none, slots := moveTo fate.stamp content (launched c fate) s.slots }
        if fate.created then { s with opened := true, current := some [], currentSize := 0 }
        else reopenOrDie fate s
      else reopenOrDie fate s
  | none => reopenOrDie fate s

/-- The end of Write: a nil file fails it, and so does WriteString. -/
def append (fate : Fate) (message : List UInt8) (s : State) : State :=
  if s.opened then
    match fate.taken with
    | none => { s with
        current := s.current.map (· ++ [⟨s.count, message, true⟩])
        currentSize := s.currentSize + message.length
        count := s.count + 1
        written := s.written ++ [⟨s.count, message, true⟩] }
    | some n => { s with
        current := s.current.map (· ++ [⟨s.count, message.take n, false⟩])
        count := s.count + 1 }
  else { s with count := s.count + 1 }

def write (c : Config) (fate : Fate) (message : List UInt8) (s : State) : State :=
  append fate message (if c.maxSize ≤ s.currentSize then rotate c fate s else s)

/-! compressLogFile and cleanupOldLogs. -/

def Slot.go (e : Slot) (i : Nat) (phase : Phase) : Slot := { e with tasks := e.tasks.set i phase }

def Slot.half (e : Slot) : Bool := e.tasks.any (·.half)

/-- The file operations of compressLogFile. -/
inductive Move where
  | opens
  | creates
  | copies (content : Content)
  | dropsGz
  | dropsRaw

/-- The next file operation of a second's i-th goroutine. A whole copy holds what was
read, unless another goroutine of the second may have written to the same .gz. -/
def Slot.compress (e : Slot) (i : Nat) (move : Move) (ok : Bool) : Option Slot :=
  match move, e.tasks[i]? with
  | .opens, some .started =>
      match e.raw with
      | some src => some (e.go i (if ok then .opened src else .cleaning))
      | none => some (e.go i .cleaning)
  | .creates, some (.opened src) =>
      some (if ok then { e.go i (.created src) with gz := some [] } else e.go i .cleaning)
  | .copies content, some (.created src) =>
      if ok && e.tasks.length = 1 && content ≠ src then none
      else some { e.go i (if ok then .copied else .failed) with gz := e.gz.map fun _ => content }
  | .dropsGz, some .failed => some { e.go i .cleaning with gz := if ok then none else e.gz }
  | .dropsRaw, some .copied => some { e.go i .cleaning with raw := if ok then none else e.raw }
  | _, _ => none

def Slot.files (e : Slot) : List Name :=
  (if e.raw.isSome then [⟨e.stamp, false⟩] else []) ++
    (if e.gz.isSome then [⟨e.stamp, true⟩] else [])

/-- The names with the log's prefix, sorted. -/
def rotatedLogs (slots : List Slot) : List Name := slots.flatMap (·.files)

def filesToRemove (c : Config) (listed : List Name) : List Name :=
  if listed.length ≤ c.maxFiles then [] else listed.take (listed.length - c.maxFiles)

/-- cleanupOldLogs up to its loop; `ok` is whether the folder can be read. -/
def Slot.list (c : Config) (listed : List Name) (e : Slot) (i : Nat) (ok : Bool) : Option Slot :=
  match e.tasks[i]? with
  | some .cleaning =>
      some (e.go i (if ok then .sweeping listed (filesToRemove c listed) else .ended))
  | _ => none

/-- The files listed with a name that are newer. -/
def newer (n : Name) (listed : List Name) : List Name := listed.filter (n.stamp < ·.stamp)

def Slot.file (n : Name) (e : Slot) : Option Content :=
  if n.stamp = e.stamp then if n.gz then e.gz else e.raw else none

def Slot.remove (n : Name) (e : Slot) : Slot :=
  if n.stamp = e.stamp then if n.gz then { e with gz := none } else { e with raw := none } else e

/-- The loop of cleanupOldLogs: the i-th goroutine's next name. -/
def Slot.next (e : Slot) (i : Nat) : Option (List Name × Name × List Name) :=
  match e.tasks[i]? with
  | some (.sweeping listed (n :: left)) => some (listed, n, left)
  | _ => none

def slotAt (slots : List Slot) (stamp : Nat) : Option Slot := slots.find? (·.stamp = stamp)

/-- The slots with one of them changed. -/
def replace (e : Slot) (slots : List Slot) : List Slot :=
  slots.map fun x => if x.stamp = e.stamp then e else x

/-- The lines of a file that cleanup removes while at least maxFiles newer ones existed. -/
def sweptBy (c : Config) (listed : List Name) (n : Name) (slots : List Slot) : List Line :=
  if c.maxFiles ≤ (newer n listed).length then
    lines (slots.flatMap fun e => (e.file n).getD []) else []

inductive Action where
  | write (message : List UInt8) (fate : Fate)
  | compress (stamp i : Nat) (move : Move) (ok : Bool)
  | list (stamp i : Nat) (ok : Bool)
  | sweep (stamp i : Nat) (ok : Bool)

def step (c : Config) (s : State) : Action → Option State
  | .write message fate => some (write c fate message s)
  | .compress stamp i move ok => do
      let e ← slotAt s.slots stamp
      let e ← e.compress i move ok
      some { s with slots := replace e s.slots }
  | .list stamp i ok => do
      let e ← slotAt s.slots stamp
      let e ← e.list c (rotatedLogs s.slots) i ok
      some { s with slots := replace e s.slots }
  | .sweep stamp i ok => do
      let e ← slotAt s.slots stamp
      let (listed, n, left) ← e.next i
      let slots := replace (e.go i (.sweeping listed left)) s.slots
      some (if ok then { s with
          slots := slots.map (·.remove n), swept := s.swept ++ sweptBy c listed n slots }
        else { s with slots := slots })

/-- A new logger: what the folder held before has no line of it. -/
structure Started (s : State) : Prop where
  opened : s.opened = true
  current : ∃ content, s.current = some content ∧ lines content = []
  sorted : s.slots.Pairwise (·.stamp < ·.stamp)
  slots : ∀ e ∈ s.slots, e.tasks = [] ∧ (e.raw = none ∨ e.gz = none) ∧ lines e.moved = [] ∧
    (∀ content, e.raw = some content → content = e.moved) ∧
      ∀ content, e.gz = some content → content = e.moved
  nothing : s.written = [] ∧ s.swept = []

def logger (c : Config) : System State Action where
  start := Started
  step s action after := step c s action = some after

/-! What the log is promised. -/

/-- What is read of a second's files; a .gz that is being made is none of them yet. -/
def Slot.visible (e : Slot) : Content :=
  e.raw.getD [] ++ if e.half then [] else e.gz.getD []

/-- The rotated files and the current one. -/
def log (s : State) : Content := s.slots.flatMap (·.visible) ++ s.current.getD []

/-- Each line is found once, in order, but for those of old files. -/
structure Kept (s : State) : Prop where
  distinct : s.written.Pairwise (·.number < ·.number)
  order : (lines (log s)).Sublist s.written
  found : ∀ line ∈ s.written, line ∉ s.swept → line ∈ lines (log s)

/-- Each rotation has a later second than those before; what compressLogFile removes is
gone; and cleanup lists no file beside its own .gz. -/
def inOrder (c : Config) (s : State) : Action → Bool
  | .write _ fate => s.currentSize < c.maxSize || !fate.renamed ||
      s.slots.all (·.stamp < fate.stamp)
  | .compress stamp _ .dropsGz ok => ok || (slotAt s.slots stamp).all (·.gz.isNone)
  | .compress stamp _ .dropsRaw ok => ok || (slotAt s.slots stamp).all (·.raw.isNone)
  | .compress _ _ _ _ | .sweep _ _ _ => true
  | .list _ _ _ => s.slots.all fun e => e.raw.isNone || e.gz.isNone

end ProxmoxBackup.LogRotation
