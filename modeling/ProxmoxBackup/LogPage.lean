import ProxmoxBackup.RingBuffer
import ProxmoxBackup.ByteOrder

/-! A page of a log, ReadLog of gui/log_viewer.go: a ring keeps the lines before the line
asked for, and what comes after it is collected behind them. -/
namespace ProxmoxBackup.LogPage

open GoValues RingBuffer ByteOrder

abbrev Bytes := List UInt8

/-- Go's strings functions; the stamp is cut out of a line by logLineTime. -/
structure Strings where
  toLower : Bytes → Bytes
  trimSpace : Bytes → Bytes

structure LogQuery where
  filter : Bytes
  hideChunks : Bool
  lines : Int
  around : Bytes

structure LogView where
  lines : List Bytes
  matching : Nat
  first : Int
  focus : Int

inductive ReadError where
  | closed

def defaultLogLines : Nat := 2000
def maxLogLines : Nat := 200000
def maxLogLineLen : Nat := 4000

/-- strings.Index -/
def index (part : Bytes) : Bytes → Option Nat
  | [] => if part = [] then some 0 else none
  | c :: rest => if part.isPrefixOf (c :: rest) then some 0 else (index part rest).map (· + 1)

def contains (s part : Bytes) : Bool := (index part s).isSome

/-- "] [" -/
def bracket : Bytes := [93, 32, 91]

def logLineTime (line : Bytes) : Bytes :=
  match index bracket line with
  | none => []
  | some i =>
      if line.length < i + 3 + 19 then []
      else
        let ts := (line.drop (i + 3)).take 19
        if ts[4]? ≠ some 45 ∨ ts[10]? ≠ some 32 ∨ ts[13]? ≠ some 58 then [] else ts

def ascii (s : String) : Bytes := s.toList.map fun c => c.toNat.toUInt8

def newChunk : Bytes := ascii "] New chunk["
def reuseChunk : Bytes := ascii "] Reuse chunk["

/-- A space and "…" -/
def ellipsis : Bytes := [32, 0xE2, 0x80, 0xA6]

/-- The lines that pass the filter. -/
def passes (text : Strings) (q : LogQuery) (line : Bytes) : Bool :=
  let filter := text.toLower (text.trimSpace q.filter)
  !(q.hideChunks && (contains line newChunk || contains line reuseChunk)) &&
    !(filter ≠ [] && !contains (text.toLower line) filter)

def shorten (line : Bytes) : Bytes :=
  if line.length > maxLogLineLen then line.take maxLogLineLen ++ ellipsis else line

/-- A line at or after the time asked for. -/
def reached (around line : Bytes) : Bool :=
  let ts := logLineTime line
  ts ≠ [] && bytesLe around ts

def pageSize (q : LogQuery) : Nat :=
  let n := if q.lines ≤ 0 then (defaultLogLines : Int) else q.lines
  if n > maxLogLines then maxLogLines else n.toNat

structure Scan where
  ring : RingBuffer.Ring Bytes
  matching : Nat
  focusAt : Option Nat
  after : List Bytes

def Scan.start : Scan := ⟨.empty, 0, none, []⟩

/-- The number of the line asked for, once it has come. -/
def focusAfter (around line : Bytes) (s : Scan) : Option Nat :=
  if around ≠ [] ∧ s.focusAt = none ∧ reached around line = true then some s.matching else s.focusAt

/-- One line that passes the filter. -/
def visit (around : Bytes) (n : Nat) (line : Bytes) (s : Scan) : Outcome ReadError Scan :=
  let half := n / 2
  let focusAt := focusAfter around line s
  let matching := s.matching + 1
  match focusAt with
  | some focus =>
      if matching - 1 > focus + (n - half) then .ok { s with matching, focusAt }
      else .ok { s with matching, focusAt, after := s.after ++ [line] }
  | none => do
      let limit := if around ≠ [] then half else n
      let ring ← s.ring.push limit line
      return { s with ring, matching, focusAt }

def scan (text : Strings) (q : LogQuery) (around : Bytes) (n : Nat) :
    List Bytes → Scan → Outcome ReadError Scan
  | [], s => .ok s
  | line :: rest, s =>
      if passes text q line then do
        let s ← visit around n (shorten line) s
        scan text q around n rest s
      else scan text q around n rest s

/-- The log is given by its lines. -/
def ReadLog (text : Strings) (q : LogQuery) (log : List Bytes) : Outcome ReadError LogView := do
  let n := pageSize q
  let around := text.trimSpace q.around
  let s ← scan text q around n log .start
  let lines := s.ring.lines
  match s.focusAt with
  | some focusAt =>
      return { lines := lines ++ s.after, matching := s.matching, focus := lines.length
               first := focusAt - lines.length }
  | none => return { lines, matching := s.matching, focus := -1, first := s.matching - lines.length }

/-! What a page should be. -/

def matchingLines (text : Strings) (q : LogQuery) (log : List Bytes) : List Bytes :=
  (log.filter (passes text q)).map shorten

/-- The number of the first line at or after the time asked for. -/
def focusLine (around : Bytes) (lines : List Bytes) : Option Nat :=
  if around = [] then none else lines.findIdx? (reached around)

/-- A page of at most `n` of the matching lines. -/
structure TrueWindow (n : Nat) (matching : List Bytes) (focus : Option Nat) (view : LogView) :
    Prop where
  run : ∃ first : Nat, view.first = first ∧
    view.lines = (matching.drop first).take view.lines.length
  most : view.lines.length ≤ n
  last : focus = none → view.lines = lastOf n matching
  focused : ∀ f, focus = some f → 0 ≤ view.focus ∧ view.focus < view.lines.length ∧
    view.first + view.focus = f

/-- When a page is one: without a time, up to the largest page; with a time no line has
reached, if half a page holds all lines; else if the lines kept before that line and after it
are no more than a page, and none comes before it on a page of one line. -/
def Fits (n : Nat) (q : LogQuery) (around : Bytes) (matching : List Bytes) : Prop :=
  let page := pageSize q
  match focusLine around matching with
  | none =>
      if around = [] then n ≤ maxLogLines ∨ matching.length ≤ maxLogLines
      else matching.length ≤ page / 2
  | some f =>
      (page / 2 = 0 → f = 0) ∧
        min (page / 2) f + min (page - page / 2 + 1) (matching.length - f) ≤ n

instance (n : Nat) (q : LogQuery) (around : Bytes) (matching : List Bytes) :
    Decidable (Fits n q around matching) :=
  match found : focusLine around matching with
  | none => decidable_of_iff (if around = [] then n ≤ maxLogLines ∨ matching.length ≤ maxLogLines
      else matching.length ≤ pageSize q / 2) (by rw [Fits, found])
  | some f => decidable_of_iff ((pageSize q / 2 = 0 → f = 0) ∧ min (pageSize q / 2) f +
      min (pageSize q - pageSize q / 2 + 1) (matching.length - f) ≤ n) (by rw [Fits, found])

/-! The scan. -/

variable {text : Strings} {q : LogQuery}

/-- The scan over the lines that pass. -/
def visits (around : Bytes) (n : Nat) : List Bytes → Scan → Outcome ReadError Scan
  | [], s => .ok s
  | line :: rest, s => do
      let s ← visit around n line s
      visits around n rest s

theorem scan_matching (around : Bytes) (n : Nat) (log : List Bytes) (s : Scan) :
    scan text q around n log s = visits around n (matchingLines text q log) s := by
  induction log generalizing s with
  | nil => rfl
  | cons line rest ih =>
      rw [scan]
      by_cases pass : passes text q line = true
      · rw [if_pos pass]
        have first : matchingLines text q (line :: rest) =
            shorten line :: matchingLines text q rest := by
          simp [matchingLines, pass]
        rw [first, visits]
        cases visit around n (shorten line) s with
        | ok next => exact ih next
        | error => rfl
        | panicked => rfl
      · rw [if_neg pass]
        have first : matchingLines text q (line :: rest) = matchingLines text q rest := by
          simp [matchingLines, pass]
        rw [first]
        exact ih s

theorem visits_append (around : Bytes) (n : Nat) (before after : List Bytes) (s : Scan) :
    visits around n (before ++ after) s = visits around n before s >>= visits around n after := by
  induction before generalizing s with
  | nil => rfl
  | cons line rest ih =>
      rw [List.cons_append, visits, visits]
      cases visit around n line s with
      | ok next => exact ih next
      | error => rfl
      | panicked => rfl

/-- How many lines the ring may hold. -/
def limitOf (around : Bytes) (n : Nat) : Nat := if around ≠ [] then n / 2 else n

theorem focusAfter_early {around line : Bytes} {s : Scan} (open_ : s.focusAt = none)
    (early : around ≠ [] → reached around line = false) : focusAfter around line s = none := by
  refine (if_neg ?_).trans open_
  rintro ⟨asked, -, late⟩
  rw [early asked] at late
  cases late

theorem focusAfter_kept {around line : Bytes} {s : Scan} {focus : Nat} (set_ : s.focusAt = some focus) :
    focusAfter around line s = some focus := by
  refine (if_neg ?_).trans set_
  rintro ⟨-, open_, -⟩
  rw [set_] at open_
  cases open_

/-- Before the line asked for every line goes into the ring. -/
theorem visits_before {around : Bytes} {n : Nat} (lines : List Bytes)
    (early : around ≠ [] → ∀ line ∈ lines, reached around line = false) (seen : List Bytes)
    (ring : RingBuffer.Ring Bytes) (keeps : ring.Keeps (limitOf around n) seen) :
    ∃ next, visits around n lines ⟨ring, seen.length, none, []⟩ =
        .ok ⟨next, (seen ++ lines).length, none, []⟩ ∧
      next.Keeps (limitOf around n) (seen ++ lines) := by
  induction lines generalizing seen ring with
  | nil => exact ⟨ring, by simp [visits], by simpa using keeps⟩
  | cons line rest ih =>
      have unfocused := focusAfter_early (s := ⟨ring, seen.length, none, []⟩) rfl
        fun asked => early asked line (List.mem_cons_self ..)
      obtain ⟨pushed, ran, keeps⟩ : ∃ next, (ring.push (limitOf around n) line :
          Outcome ReadError (RingBuffer.Ring Bytes)) = .ok next ∧ _ := push_keeps keeps line
      have visited : visit around n line ⟨ring, seen.length, none, []⟩ =
          .ok ⟨pushed, (seen ++ [line]).length, none, []⟩ := by
        rw [limitOf] at ran
        simp only [visit, unfocused, ran, List.length_append, List.length_singleton]
        rfl
      obtain ⟨next, ended, keeps⟩ := ih (fun asked later listed =>
        early asked later (List.mem_cons_of_mem _ listed)) (seen ++ [line]) pushed keeps
      rw [visits, visited]
      rw [List.append_assoc, List.singleton_append] at ended keeps
      exact ⟨next, ended, keeps⟩

/-- A ring without room panics at the first line that goes into it. -/
theorem visit_no_room {around : Bytes} {n : Nat} (none_ : limitOf around n = 0) {line : Bytes}
    (early : around ≠ [] → reached around line = false) :
    visit around n line .start = .panicked := by
  have unfocused : focusAfter around line .start = none := focusAfter_early rfl early
  rw [limitOf] at none_
  simp only [visit, unfocused, none_]
  rfl

/-- From the line asked for on half a page is collected, and that line's number stays. -/
theorem visits_after (around : Bytes) (n focus : Nat) (ring : RingBuffer.Ring Bytes) (lines seen : List Bytes)
    (some_ : seen ≠ []) :
    visits around n lines
        ⟨ring, focus + seen.length, some focus, seen.take (n - n / 2 + 1)⟩ =
      .ok ⟨ring, focus + (seen ++ lines).length, some focus, (seen ++ lines).take (n - n / 2 + 1)⟩ := by
  induction lines generalizing seen with
  | nil => simp [visits]
  | cons line rest ih =>
      have positive := List.length_pos_iff.mpr some_
      have visited : visit around n line
          ⟨ring, focus + seen.length, some focus, seen.take (n - n / 2 + 1)⟩ =
            .ok ⟨ring, focus + (seen ++ [line]).length, some focus,
              (seen ++ [line]).take (n - n / 2 + 1)⟩ := by
        have kept : focusAfter around line
            ⟨ring, focus + seen.length, some focus, seen.take (n - n / 2 + 1)⟩ = some focus :=
          focusAfter_kept rfl
        simp only [visit, kept, List.length_append, List.length_singleton, Nat.add_assoc]
        by_cases past : focus + (seen.length + 1) - 1 > focus + (n - n / 2)
        · rw [if_pos past, List.take_append_of_le_length (by omega)]
        · rw [if_neg past, List.take_of_length_le (by omega), List.take_of_length_le]
          rw [List.length_append, List.length_singleton]
          omega
      rw [visits, visited]
      have ended := ih (seen ++ [line]) (by simp)
      rw [List.append_assoc, List.singleton_append] at ended
      exact ended

/-- The line asked for is the first one behind the ring. -/
theorem visit_focus {around : Bytes} {n m : Nat} {ring : RingBuffer.Ring Bytes} {line : Bytes}
    (asked : around ≠ []) (late : reached around line = true) :
    visit around n line ⟨ring, m, none, []⟩ = .ok ⟨ring, m + 1, some m, [line].take (n - n / 2 + 1)⟩ := by
  have found : focusAfter around line ⟨ring, m, none, []⟩ = some m := if_pos ⟨asked, rfl, late⟩
  have within : ¬ m + 1 - 1 > m + (n - n / 2) := by omega
  simp only [visit, found, if_neg within, List.take_succ_cons, List.take_nil]
  rfl

/-! The pages. -/

theorem pageSize_positive (q : LogQuery) : 0 < pageSize q := by
  unfold pageSize
  simp only [defaultLogLines, maxLogLines]
  split <;> split <;> omega

theorem pageSize_asked {n : Nat} (asked : q.lines = n) (positive : 0 < n) :
    pageSize q = min n maxLogLines := by
  have given : ¬ q.lines ≤ 0 := by omega
  unfold pageSize
  simp only [if_neg given]
  split <;> omega

theorem readLog_last {log : List Bytes} (n : Nat) (size : pageSize q = n)
    (unfocused : focusLine (text.trimSpace q.around) (matchingLines text q log) = none)
    (room : 0 < limitOf (text.trimSpace q.around) n ∨ matchingLines text q log = []) :
    ∃ view, ReadLog text q log = .ok view ∧ view.focus = -1 ∧
      view.lines = lastOf (limitOf (text.trimSpace q.around) n) (matchingLines text q log) ∧
      view.first = (matchingLines text q log).length - view.lines.length := by
  have early : text.trimSpace q.around ≠ [] → ∀ line ∈ matchingLines text q log,
      reached (text.trimSpace q.around) line = false := by
    intro asked line listed
    rw [focusLine, if_neg asked, List.findIdx?_eq_none_iff] at unfocused
    simpa using unfocused line listed
  obtain ⟨ring, ended, lines⟩ : ∃ ring : RingBuffer.Ring Bytes,
      visits (text.trimSpace q.around) n (matchingLines text q log) .start =
        .ok ⟨ring, (matchingLines text q log).length, none, []⟩ ∧
      ring.lines = lastOf (limitOf (text.trimSpace q.around) n) (matchingLines text q log) := by
    obtain room | empty := room
    · obtain ⟨ring, ended, keeps⟩ := visits_before _ early [] .empty (keeps_empty room)
      exact ⟨ring, ended, keeps.lines⟩
    · rw [empty]
      exact ⟨.empty, rfl, by simp [RingBuffer.Ring.lines, RingBuffer.Ring.empty, lastOf]⟩
  refine ⟨⟨ring.lines, (matchingLines text q log).length,
    (matchingLines text q log).length - ring.lines.length, -1⟩, ?_, rfl, lines, rfl⟩
  rw [ReadLog, size, scan_matching, ended]
  rfl

theorem readLog_focus {log before after : List Bytes} {line : Bytes} (n : Nat)
    (size : pageSize q = n) (asked : text.trimSpace q.around ≠ [])
    (split_ : matchingLines text q log = before ++ line :: after)
    (early : ∀ line ∈ before, reached (text.trimSpace q.around) line = false)
    (late : reached (text.trimSpace q.around) line = true) (room : 0 < n / 2 ∨ before = []) :
    ∃ view, ReadLog text q log = .ok view ∧ view.focus = (lastOf (n / 2) before).length ∧
      view.lines = lastOf (n / 2) before ++ (line :: after).take (n - n / 2 + 1) ∧
      view.first = before.length - (lastOf (n / 2) before).length := by
  have limit : limitOf (text.trimSpace q.around) n = n / 2 := if_pos asked
  obtain ⟨ring, ended, lines⟩ : ∃ ring : RingBuffer.Ring Bytes,
      visits (text.trimSpace q.around) n before .start = .ok ⟨ring, before.length, none, []⟩ ∧
      ring.lines = lastOf (n / 2) before := by
    obtain room | empty := room
    · obtain ⟨ring, ended, keeps⟩ :=
        visits_before before (fun _ => early) [] .empty (keeps_empty (limit ▸ room))
      rw [List.nil_append, limit] at keeps
      exact ⟨ring, ended, keeps.lines⟩
    · rw [empty]
      exact ⟨.empty, rfl, by simp [RingBuffer.Ring.lines, RingBuffer.Ring.empty, lastOf]⟩
  have followed := visits_after (text.trimSpace q.around) n before.length ring after [line]
    (List.cons_ne_nil _ _)
  refine ⟨⟨ring.lines ++ (line :: after).take (n - n / 2 + 1), (before ++ line :: after).length,
    before.length - ring.lines.length, ring.lines.length⟩, ?_, ?_, ?_, ?_⟩
  · have whole : before.length + ([line] ++ after).length = (before ++ line :: after).length := by
      simp
    rw [ReadLog, size, scan_matching, split_, visits_append, ended, Outcome.ok_bind, visits,
      visit_focus asked late, Outcome.ok_bind]
    rw [List.length_singleton] at followed
    rw [followed, whole]
    rfl
  · rw [← lines]
  · rw [← lines]
  · rw [← lines]

theorem readLog_panics {log rest : List Bytes} {line : Bytes}
    (single : pageSize q / 2 = 0) (asked : text.trimSpace q.around ≠ [])
    (split_ : matchingLines text q log = line :: rest)
    (early : reached (text.trimSpace q.around) line = false) : ReadLog text q log = .panicked := by
  have none_ : limitOf (text.trimSpace q.around) (pageSize q) = 0 := (if_pos asked).trans single
  rw [ReadLog, scan_matching, split_, visits, visit_no_room none_ fun _ => early]
  rfl

/-- What comes of a line asked for: the matching lines before it, and from it on. -/
theorem focusLine_split {around : Bytes} {lines : List Bytes} {f : Nat}
    (found : focusLine around lines = some f) :
    around ≠ [] ∧ ∃ before line after, lines = before ++ line :: after ∧ before.length = f ∧
      (∀ line ∈ before, reached around line = false) ∧ reached around line = true := by
  rw [focusLine] at found
  split at found
  · cases found
  · rename_i asked
    refine ⟨asked, ?_⟩
    obtain ⟨within, late, early⟩ := List.findIdx?_eq_some_iff_getElem.mp found
    refine ⟨lines.take f, lines[f], lines.drop (f + 1), ?_, List.length_take_of_le (Nat.le_of_lt within),
      ?_, late⟩
    · rw [← List.drop_eq_getElem_cons within, List.take_append_drop]
    · intro line listed
      obtain ⟨i, low, rfl⟩ := List.getElem_of_mem listed
      rw [List.getElem_take]
      rw [List.length_take] at low
      simpa using early i (by omega)

theorem lastOf_run (limit : Nat) (lines after : List Bytes) (more : Nat) :
    lastOf limit lines ++ after.take more =
      ((lines ++ after).drop (lines.length - limit)).take
        (lastOf limit lines ++ after.take more).length := by
  rw [List.drop_append_of_le_length (Nat.sub_le _ _), ← lastOf, List.length_append,
    List.take_length_add_append]
  congr 1
  rw [List.length_take]
  by_cases short : more ≤ after.length
  · rw [Nat.min_eq_left short]
  · rw [Nat.min_eq_right (Nat.le_of_not_le short), List.take_length, List.take_of_length_le (by omega)]

/-- The first line of a page of `limit` lines at the end. -/
theorem lastOf_first (limit : Nat) (lines : List Bytes) :
    ((lines.length : Int) - (lastOf limit lines).length) = (lines.length - limit : Nat) := by
  rw [lastOf_length]
  omega

/-- No line before the one asked for fits into a ring without room. -/
theorem window_focus {log : List Bytes} {n f : Nat}
    (found : focusLine (text.trimSpace q.around) (matchingLines text q log) = some f) :
    (∃ view, ReadLog text q log = .ok view ∧
      TrueWindow n (matchingLines text q log) (some f) view) ↔
        Fits n q (text.trimSpace q.around) (matchingLines text q log) := by
  obtain ⟨around, before, line, after, split_, length, early, late⟩ := focusLine_split found
  have fits : Fits n q (text.trimSpace q.around) (matchingLines text q log) ↔
      ((pageSize q / 2 = 0 → f = 0) ∧ min (pageSize q / 2) f +
        min (pageSize q - pageSize q / 2 + 1) ((matchingLines text q log).length - f) ≤ n) := by
    rw [Fits, found]
  have behind : (matchingLines text q log).length - f = (line :: after).length := by
    rw [split_, List.length_append, length, Nat.add_sub_cancel_left]
  by_cases room : 0 < pageSize q / 2 ∨ before = []
  · obtain ⟨view, read, focus, lines, first⟩ :=
      readLog_focus (pageSize q) rfl around split_ early late room
    have size : view.lines.length = min (pageSize q / 2) f +
        min (pageSize q - pageSize q / 2 + 1) ((matchingLines text q log).length - f) := by
      rw [lines, List.length_append, lastOf_length, List.length_take, length, behind]
    have start : pageSize q / 2 = 0 → f = 0 := by
      intro single
      obtain room | empty := room
      · omega
      · rw [← length, empty, List.length_nil]
    rw [fits, ← size]
    constructor
    · rintro ⟨other, same, window⟩
      obtain rfl : view = other := Outcome.ok.inj (read.symm.trans same)
      exact ⟨start, window.most⟩
    · rintro ⟨-, most⟩
      refine ⟨view, read, ⟨before.length - pageSize q / 2, ?_, ?_⟩, most, nofun, ?_⟩
      · rw [first, lastOf_first]
      · rw [lines, split_]
        exact lastOf_run _ _ _ _
      · intro g same
        obtain rfl : f = g := Option.some.inj same
        have taken : 0 < ((line :: after).take (pageSize q - pageSize q / 2 + 1)).length := by
          rw [List.length_take, List.length_cons]
          omega
        refine ⟨?_, ?_, ?_⟩
        · rw [focus]
          exact Int.natCast_nonneg _
        · rw [focus, lines, List.length_append]
          omega
        · rw [first, focus, ← length]
          omega
  · have single : pageSize q / 2 = 0 := by omega
    have filled : before ≠ [] := fun empty => room (.inr empty)
    rw [fits]
    constructor
    · rintro ⟨view, read, -⟩
      obtain ⟨first, rest, rfl⟩ := List.exists_cons_of_ne_nil filled
      have panics : ReadLog text q log = .panicked :=
        readLog_panics single around split_ (early first (List.mem_cons_self ..))
      rw [panics] at read
      cases read
    · rintro ⟨start, -⟩
      have none_ := start single
      rw [← length, List.length_eq_zero_iff] at none_
      exact absurd none_ filled

theorem lastOf_same {a b : Nat} {lines : List Bytes} :
    lastOf a lines = lastOf b lines ↔ min a lines.length = min b lines.length := by
  constructor
  · intro same
    rw [← lastOf_length, same, lastOf_length]
  · intro same
    rw [lastOf, lastOf]
    congr 1
    omega

/-- Without a line to show the page is the end of the log, as far as its ring holds it. -/
theorem window_last {log : List Bytes} {n : Nat} (asked : q.lines = n) (positive : 0 < n)
    (unfocused : focusLine (text.trimSpace q.around) (matchingLines text q log) = none) :
    (∃ view, ReadLog text q log = .ok view ∧
      TrueWindow n (matchingLines text q log) none view) ↔
        Fits n q (text.trimSpace q.around) (matchingLines text q log) := by
  have size := pageSize_asked asked positive
  have some_ := pageSize_positive q
  have fits : Fits n q (text.trimSpace q.around) (matchingLines text q log) ↔
      min (limitOf (text.trimSpace q.around) (pageSize q)) (matchingLines text q log).length =
        min n (matchingLines text q log).length := by
    rw [Fits, unfocused, limitOf]
    by_cases none_ : text.trimSpace q.around = []
    · simp only [none_, if_true, ne_eq, not_true_eq_false, if_false]
      omega
    · simp only [none_, if_false, ne_eq, not_false_eq_true, if_true]
      omega
  by_cases room : 0 < limitOf (text.trimSpace q.around) (pageSize q) ∨ matchingLines text q log = []
  · obtain ⟨view, read, focus, lines, first⟩ := readLog_last (pageSize q) rfl unfocused room
    rw [fits, ← lastOf_same, ← lines]
    constructor
    · rintro ⟨other, same, window⟩
      obtain rfl : view = other := Outcome.ok.inj (read.symm.trans same)
      exact window.last rfl
    · intro whole
      refine ⟨view, read, ⟨(matchingLines text q log).length - n, ?_, ?_⟩, ?_, fun _ => whole, nofun⟩
      · rw [first, whole, lastOf_first]
      · rw [whole, lastOf, List.take_length]
      · rw [whole, lastOf_length]
        exact Nat.min_le_left _ _
  · obtain ⟨line, rest, split_⟩ := List.exists_cons_of_ne_nil fun empty => room (.inr empty)
    have around : text.trimSpace q.around ≠ [] := by
      intro none_
      apply room
      rw [limitOf, none_]
      exact .inl some_
    have single : pageSize q / 2 = 0 := by
      have limit : limitOf (text.trimSpace q.around) (pageSize q) = pageSize q / 2 := if_pos around
      omega
    rw [fits]
    constructor
    · rintro ⟨view, read, -⟩
      have early : reached (text.trimSpace q.around) line = false := by
        rw [focusLine, if_neg around, List.findIdx?_eq_none_iff] at unfocused
        simpa using unfocused line (split_ ▸ List.mem_cons_self ..)
      rw [readLog_panics single around split_ early] at read
      cases read
    · intro same
      rw [limitOf, if_pos around, single, split_, List.length_cons] at same
      omega

/-- A page is a true window exactly when it fits. -/
theorem page_true_exact (text : Strings) (q : LogQuery) (log : List Bytes) (n : Nat)
    (asked : q.lines = n) (positive : 0 < n) :
    (∃ view, ReadLog text q log = .ok view ∧ TrueWindow n (matchingLines text q log)
      (focusLine (text.trimSpace q.around) (matchingLines text q log)) view) ↔
        Fits n q (text.trimSpace q.around) (matchingLines text q log) := by
  cases found : focusLine (text.trimSpace q.around) (matchingLines text q log) with
  | none => exact window_last asked positive found
  | some f => exact window_focus found

def plain : Strings := ⟨id, id⟩

/-- "[A] [2026-01-01 00:00:0d] x" -/
def stamped (d : UInt8) : Bytes :=
  ascii "[A] [2026-01-01 00:00:0" ++ [48 + d] ++ ascii "] x"

/-- A page of `n` lines around the third second. -/
def aroundThird (n : Int) : LogQuery := ⟨[], false, n, ascii "2026-01-01 00:00:03"⟩

theorem two_lines_whole : ∃ view, ReadLog plain (aroundThird 4) [stamped 2, stamped 3] = .ok view ∧
    TrueWindow 4 (matchingLines plain (aroundThird 4) [stamped 2, stamped 3])
      (focusLine (plain.trimSpace (aroundThird 4).around)
        (matchingLines plain (aroundThird 4) [stamped 2, stamped 3])) view :=
  (page_true_exact plain (aroundThird 4) [stamped 2, stamped 3] 4 rfl (by decide)).mpr
    (by decide +kernel)

/-- A page of one line around a time: the ring has no room for the line before that time. -/
theorem single_line_panics : ReadLog plain (aroundThird 1) [stamped 2, stamped 3] = .panicked ∧
    ¬ ∃ view, ReadLog plain (aroundThird 1) [stamped 2, stamped 3] = .ok view := by
  have panics : ReadLog plain (aroundThird 1) [stamped 2, stamped 3] = .panicked :=
    readLog_panics (by decide) (by decide +kernel)
      (show _ = stamped 2 :: [stamped 3] by decide +kernel) (by decide +kernel)
  refine ⟨panics, ?_⟩
  rintro ⟨view, read⟩
  rw [panics] at read
  cases read

end ProxmoxBackup.LogPage
