import ProxmoxBackup.CanonicalJson
import Mathlib.Data.List.DropRight
import Mathlib.Data.Nat.Digits.Lemmas

/-! JSON written with indents, as Go's `encoding/json` does, and how it reads back. -/
namespace ProxmoxBackup.IndentedJson

open JsonText CanonicalJson

/-- One byte of a string; <, > and & are escaped too. -/
def escapeHTML (c : UInt8) : Bytes :=
  if c = 60 then [92, 117, 48, 48, 51, 99]
  else if c = 62 then [92, 117, 48, 48, 51, 101]
  else if c = 38 then [92, 117, 48, 48, 50, 54]
  else written c

/-- A string's text between its quotes; U+2028 and U+2029 are escaped. -/
def escapeString : Bytes → Bytes
  | a :: b :: c :: rest =>
      if a = 226 ∧ b = 128 ∧ c = 168 then [92, 117, 50, 48, 50, 56] ++ escapeString rest
      else if a = 226 ∧ b = 128 ∧ c = 169 then [92, 117, 50, 48, 50, 57] ++ escapeString rest
      else escapeHTML a ++ escapeString (b :: c :: rest)
  | a :: rest => escapeHTML a ++ escapeString rest
  | [] => []

def quoted (s : Bytes) : Bytes := 34 :: (escapeString s ++ [34])

def pad (n : Nat) : Bytes := 10 :: List.replicate n 32

def line (depth : Nat) (part : Bytes × Bytes) : Bytes :=
  pad (2 * depth) ++ (quoted part.1 ++ 58 :: 32 :: part.2)

def lines (depth : Nat) : List (Bytes × Bytes) → Bytes
  | [] => []
  | [part] => line depth part
  | part :: rest => line depth part ++ 44 :: lines depth rest

/-- An object with members, at a depth. -/
def indented (depth : Nat) (parts : List (Bytes × Bytes)) : Bytes :=
  123 :: (lines (depth + 1) parts ++ (pad (2 * depth) ++ [125]))

theorem readString_html (c : UInt8) {fuel : Nat} {text s rest : Bytes}
    (read : readString fuel text = some (s, rest)) :
    readString (fuel + 1) (escapeHTML c ++ text) = some (c :: s, rest) := by
  have less : hex4 48 48 51 99 = some 60 ∧ utf8 60 = [60] ∧ isSurrogate 60 = false := by decide
  have more : hex4 48 48 51 101 = some 62 ∧ utf8 62 = [62] ∧ isSurrogate 62 = false := by decide
  have also : hex4 48 48 50 54 = some 38 ∧ utf8 38 = [38] ∧ isSurrogate 38 = false := by decide
  unfold escapeHTML
  split
  · rename_i same
    subst same
    simp [readString, less, read]
  · split
    · rename_i same
      subst same
      simp [readString, more, read]
    · split
      · rename_i same
        subst same
        simp [readString, also, read]
      · exact readString_written c read

theorem readString_separator (digit : UInt8) (last : UInt8)
    (known : (digit = 56 ∧ last = 168) ∨ (digit = 57 ∧ last = 169)) {fuel : Nat}
    {text s rest : Bytes} (read : readString fuel text = some (s, rest)) :
    readString (fuel + 1) ([92, 117, 50, 48, 50, digit] ++ text) =
      some (226 :: 128 :: last :: s, rest) := by
  have lines : hex4 50 48 50 56 = some 8232 ∧ utf8 8232 = [226, 128, 168] ∧
      isSurrogate 8232 = false := by decide
  have paragraphs : hex4 50 48 50 57 = some 8233 ∧ utf8 8233 = [226, 128, 169] ∧
      isSurrogate 8233 = false := by decide
  obtain ⟨rfl, rfl⟩ | ⟨rfl, rfl⟩ := known
  · simp [readString, lines, read]
  · simp [readString, paragraphs, read]

theorem escapeString_short {a : UInt8} {more : Bytes}
    (short : ∀ b c rest, more = b :: c :: rest → False) :
    escapeString (a :: more) = escapeHTML a ++ escapeString more := by
  match more, short with
  | [], _ => rfl
  | [_], _ => rfl
  | b :: c :: more, short => exact absurd rfl (short b c more)

theorem readString_escaped (s rest : Bytes) (fuel : Nat) (enough : s.length < fuel) :
    readString fuel (escapeString s ++ 34 :: rest) = some (s, rest) := by
  induction s using escapeString.induct generalizing fuel with
  | case1 a b c more known ih =>
      obtain ⟨rfl, rfl, rfl⟩ := known
      obtain ⟨fuel, rfl⟩ := Nat.exists_eq_succ_of_ne_zero (Nat.ne_zero_of_lt enough)
      simp only [List.length_cons] at enough
      rw [escapeString, if_pos ⟨rfl, rfl, rfl⟩, List.append_assoc]
      exact readString_separator 56 168 (.inl ⟨rfl, rfl⟩) (ih fuel (by omega))
  | case2 a b c more other known ih =>
      obtain ⟨rfl, rfl, rfl⟩ := known
      obtain ⟨fuel, rfl⟩ := Nat.exists_eq_succ_of_ne_zero (Nat.ne_zero_of_lt enough)
      simp only [List.length_cons] at enough
      rw [escapeString, if_neg other, if_pos ⟨rfl, rfl, rfl⟩, List.append_assoc]
      exact readString_separator 57 169 (.inr ⟨rfl, rfl⟩) (ih fuel (by omega))
  | case3 a b c more other another ih =>
      obtain ⟨fuel, rfl⟩ := Nat.exists_eq_succ_of_ne_zero (Nat.ne_zero_of_lt enough)
      rw [escapeString, if_neg other, if_neg another, List.append_assoc]
      exact readString_html a (ih fuel (Nat.lt_of_succ_lt_succ enough))
  | case4 a more short ih =>
      obtain ⟨fuel, rfl⟩ := Nat.exists_eq_succ_of_ne_zero (Nat.ne_zero_of_lt enough)
      rw [escapeString_short short, List.append_assoc]
      exact readString_html a (ih fuel (Nat.lt_of_succ_lt_succ enough))
  | case5 =>
      obtain ⟨fuel, rfl⟩ := Nat.exists_eq_succ_of_ne_zero (Nat.ne_zero_of_lt enough)
      simp [escapeString, readString]

theorem escapeHTML_pos (c : UInt8) : 1 ≤ (escapeHTML c).length := by
  unfold escapeHTML
  repeat' split
  all_goals first | exact written_pos c | simp

theorem escaped_long (s : Bytes) : s.length ≤ (escapeString s).length := by
  induction s using escapeString.induct with
  | case1 a b c more known ih =>
      rw [escapeString, if_pos known]
      simp only [List.length_append, List.length_cons, List.length_nil]
      omega
  | case2 a b c more other known ih =>
      rw [escapeString, if_neg other, if_pos known]
      simp only [List.length_append, List.length_cons, List.length_nil]
      omega
  | case3 a b c more other another ih =>
      have one := escapeHTML_pos a
      rw [escapeString, if_neg other, if_neg another]
      simp only [List.length_append, List.length_cons] at ih ⊢
      omega
  | case4 a more short ih =>
      have one := escapeHTML_pos a
      rw [escapeString_short short, List.length_append, List.length_cons]
      omega
  | case5 => exact Nat.le_refl _

theorem reads_quoted (s : Bytes) : Reads (quoted s) (.str s) := by
  unfold quoted
  refine reads_scalar (by decide) (by decide) (by decide) (by decide) (fun rest _ => ?_)
  have long := escaped_long s
  rw [List.append_assoc, List.singleton_append,
    readScalar_word (by decide) (by decide) (by decide), if_pos rfl,
    readString_escaped s rest _ (by rw [List.length_append]; omega)]
  rfl

theorem skipSpace_pad (n : Nat) {c : UInt8} (rest : Bytes) (solid : isSpace c = false) :
    skipSpace (pad n ++ c :: rest) = c :: rest := by
  have blanks : ∀ n : Nat, skipSpace (List.replicate n 32 ++ c :: rest) = c :: rest := by
    intro n
    induction n with
    | zero => exact skipSpace_cons solid
    | succ n ih =>
        rw [List.replicate_succ, List.cons_append, skipSpace, List.dropWhile_cons_of_pos (by decide)]
        exact ih
  rw [pad, List.cons_append, skipSpace, List.dropWhile_cons_of_pos (by decide)]
  exact blanks n

theorem reads_after_blank {text : Bytes} {value : Json} (reads : Reads text value) (rest : Bytes)
    (fuel : Nat) (ends : Ends rest) (enough : text.length < fuel) :
    readValue fuel (32 :: (text ++ rest)) = some (value, rest) := by
  obtain ⟨fuel, rfl⟩ := Nat.exists_eq_succ_of_ne_zero (Nat.ne_zero_of_lt enough)
  have read := reads.reads rest (fuel + 1) ends enough
  have blank : skipSpace (32 :: (text ++ rest)) = skipSpace (text ++ rest) :=
    List.dropWhile_cons_of_pos (by decide)
  rw [readValue, blank]
  rw [readValue] at read
  exact read

theorem reads_line {depth fuel : Nat} {part : Bytes × Bytes} {field : Bytes × Json}
    (member : Member part field) (rest : Bytes) (ends : Ends rest)
    (enough : part.2.length < fuel) :
    readFields (fuel + 1) (line depth part ++ rest) =
      (match skipSpace rest with
        | [] => none
        | c :: rest =>
            if c = 44 then do
              let (fields, rest) ← readFields fuel rest
              return ((field.1, field.2) :: fields, rest)
            else if c = 125 then some ([(field.1, field.2)], rest)
            else none) := by
  obtain ⟨key, text⟩ := part
  obtain ⟨name, value⟩ := field
  obtain ⟨same, reads⟩ := member
  simp only at same reads enough
  subst same
  have shape : line depth (key, text) ++ rest =
      pad (2 * depth) ++ 34 :: (escapeString key ++ 34 :: 58 :: 32 :: (text ++ rest)) := by
    simp [line, quoted]
  have long := escaped_long key
  rw [shape, readFields, skipSpace_pad _ _ (by decide)]
  simp only [if_true]
  rw [readString_escaped key _ _ (by rw [List.length_append]; omega)]
  simp only [Option.bind_eq_bind, Option.bind_some, skipSpace_cons (by decide : isSpace 58 = false),
    if_true]
  rw [reads_after_blank reads rest fuel ends enough]
  rfl

theorem reads_lines {parts : List (Bytes × Bytes)} {fields : List (Bytes × Json)}
    (each : List.Forall₂ Member parts fields) (some_part : parts ≠ []) (depth n : Nat)
    (rest : Bytes) (fuel : Nat) (enough : (lines depth parts).length + 1 ≤ fuel) :
    readFields fuel (lines depth parts ++ (pad n ++ 125 :: rest)) = some (fields, rest) := by
  induction each generalizing fuel with
  | nil => exact absurd rfl some_part
  | @cons part field more others member tail ih =>
      obtain ⟨fuel, rfl⟩ := Nat.exists_eq_succ_of_ne_zero (Nat.ne_zero_of_lt enough)
      have room : part.2.length < (line depth part).length := by
        simp only [line, List.length_append, List.length_cons, pad]
        omega
      cases more with
      | nil =>
          cases tail
          simp only [lines] at enough ⊢
          have ends : Ends (pad n ++ 125 :: rest) := ends_with _ (by decide)
          rw [reads_line member _ ends (by omega), skipSpace_pad _ _ (by decide)]
          simp
      | cons next rest' =>
          simp only [lines, List.length_append, List.length_cons] at enough
          have later := ih (by simp) fuel (by omega)
          simp only [lines, List.append_assoc, List.cons_append]
          rw [reads_line member _ (ends_with _ (by decide)) (by omega),
            skipSpace_cons (by decide)]
          simp [later]

theorem lines_start (depth : Nat) {parts : List (Bytes × Bytes)} (some_part : parts ≠ [])
    (rest : Bytes) : ∃ more, skipSpace (lines depth parts ++ rest) = 34 :: more := by
  match parts, some_part with
  | [part], _ =>
      refine ⟨escapeString part.1 ++ 34 :: 58 :: 32 :: (part.2 ++ rest), ?_⟩
      rw [← skipSpace_pad (2 * depth) _ (by decide)]
      simp [lines, line, quoted]
  | part :: next :: more, _ =>
      refine ⟨escapeString part.1 ++ 34 :: 58 :: 32 :: (part.2 ++ 44 :: (lines depth (next :: more) ++ rest)), ?_⟩
      rw [← skipSpace_pad (2 * depth) _ (by decide)]
      simp [lines, line, quoted]

theorem readFields_skip (fuel : Nat) (text : Bytes) :
    readFields fuel (skipSpace text) = readFields fuel text := by
  cases fuel with
  | zero => rfl
  | succ fuel =>
      have again : skipSpace (skipSpace text) = skipSpace text := List.dropWhile_idempotent isSpace text
      rw [readFields, readFields, again]

theorem reads_indented (depth : Nat) {parts : List (Bytes × Bytes)} {fields : List (Bytes × Json)}
    (each : List.Forall₂ Member parts fields) (some_part : parts ≠ [])
    (keys : (fields.map Prod.fst).Nodup) : Reads (indented depth parts) (.obj fields) where
  starts := ⟨123, _, rfl, by decide, by decide⟩
  reads rest fuel _ enough := by
    obtain ⟨fuel, rfl⟩ := Nat.exists_eq_succ_of_ne_zero (Nat.ne_zero_of_lt enough)
    obtain ⟨more, start⟩ := lines_start (depth + 1) some_part (pad (2 * depth) ++ 125 :: rest)
    have whole : toMap fields = fields := toMap_distinct [] fields keys
    simp only [indented, List.length_cons, List.length_append] at enough
    have read := reads_lines each some_part (depth + 1) (2 * depth) rest fuel (by omega)
    rw [← readFields_skip, start] at read
    have shape : indented depth parts ++ rest =
        123 :: (lines (depth + 1) parts ++ (pad (2 * depth) ++ 125 :: rest)) := by
      simp [indented]
    rw [shape, readValue, skipSpace_cons (by decide)]
    simp [start, read, whole]

/-! Numbers as they are written, and members with what they read back as. -/

/-- A number's digits. -/
def digits (n : Nat) : Bytes := (Nat.digits 10 n).reverse.map fun d => UInt8.ofNat (48 + d)

def natText (n : Nat) : Bytes := if n = 0 then [48] else digits n

def value (text : Bytes) : Nat := text.foldl (fun v c => v * 10 + (c.toNat - 48)) 0

theorem digit_bytes {d : Nat} (small : d < 10) :
    isDigit (UInt8.ofNat (48 + d)) = true ∧ (UInt8.ofNat (48 + d)).toNat - 48 = d ∧
      (UInt8.ofNat (48 + d) = 48 → d = 0) ∧ UInt8.ofNat (48 + d) ≠ 45 := by
  have all : ∀ d : Fin 10, isDigit (UInt8.ofNat (48 + d)) = true ∧
      (UInt8.ofNat (48 + d)).toNat - 48 = (d : Nat) ∧
      (UInt8.ofNat (48 + d) = 48 → (d : Nat) = 0) ∧ UInt8.ofNat (48 + d) ≠ 45 := by decide +kernel
  exact all ⟨d, small⟩

theorem digits_value (n : Nat) : value (digits n) = n := by
  have each : ∀ ds : List Nat, (∀ d ∈ ds, d < 10) →
      value (ds.reverse.map fun d => UInt8.ofNat (48 + d)) = Nat.ofDigits 10 ds := by
    intro ds small
    induction ds with
    | nil => rfl
    | cons d ds ih =>
        obtain ⟨-, same, -, -⟩ := digit_bytes (small d List.mem_cons_self)
        rw [value, List.reverse_cons, List.map_append, List.foldl_append]
        change value _ * 10 + _ = _
        rw [ih fun e later => small e (List.mem_cons_of_mem _ later), same, Nat.ofDigits_cons]
        omega
  rw [digits, each _ fun d listed => Nat.digits_lt_base (by decide) listed, Nat.ofDigits_digits]

theorem digits_all (n : Nat) : (digits n).all isDigit = true := by
  rw [digits, List.all_map, List.all_eq_true]
  intro d listed
  exact (digit_bytes (Nat.digits_lt_base (by decide) (List.mem_reverse.mp listed))).1

theorem digits_first {n : Nat} (positive : n ≠ 0) :
    ∃ c rest, digits n = c :: rest ∧ c ≠ 48 ∧ c ≠ 45 := by
  have some_digit : Nat.digits 10 n ≠ [] := Nat.digits_ne_nil_iff_ne_zero.mpr positive
  have leading := Nat.getLast_digit_ne_zero 10 positive
  obtain ⟨front, last, split⟩ := List.eq_nil_or_concat' (Nat.digits 10 n) |>.resolve_left some_digit
  have small : last < 10 := Nat.digits_lt_base (m := n) (by decide) (by rw [split]; simp)
  obtain ⟨-, -, zero, minus⟩ := digit_bytes small
  refine ⟨UInt8.ofNat (48 + last), front.reverse.map fun d => UInt8.ofNat (48 + d), ?_, ?_, minus⟩
  · rw [digits, split, List.reverse_append]
    rfl
  · intro here
    apply leading
    simp only [split, List.getLast_append_singleton]
    exact zero here

theorem natText_value (n : Nat) : value (natText n) = n := by
  unfold natText
  split
  · rename_i zero
    rw [zero]
    rfl
  · exact digits_value n

theorem natText_all (n : Nat) : (natText n).all isDigit = true := by
  unfold natText
  split
  · rfl
  · exact digits_all n

theorem natText_first (n : Nat) : ∃ c rest, natText n = c :: rest ∧ c ≠ 45 := by
  unfold natText
  split
  · exact ⟨48, [], rfl, by decide⟩
  · rename_i positive
    obtain ⟨c, rest, first, -, minus⟩ := digits_first positive
    exact ⟨c, rest, first, minus⟩

theorem integerOk_natText (n : Nat) : integerOk (natText n) = true := by
  have every := natText_all n
  by_cases zero : n = 0
  · subst zero
    decide
  · obtain ⟨c, rest, first, leading, -⟩ := digits_first zero
    have same : natText n = c :: rest := by
      unfold natText
      rw [if_neg zero, first]
    rw [same, List.all_cons, Bool.and_eq_true] at every
    have none_left : rest.dropWhile isDigit = [] :=
      List.dropWhile_eq_nil_iff.mpr (List.all_eq_true.mp every.2)
    rw [same, integerOk, if_neg leading, every.1, none_left]
    rfl

theorem digit_number {text : Bytes} (every : text.all isDigit = true) :
    text.all isNumberByte = true := by
  rw [List.all_eq_true] at every ⊢
  intro c listed
  simp [isNumberByte, every c listed]

theorem natText_number (n : Nat) : isNumber (natText n) = true := by
  obtain ⟨c, rest, first, minus⟩ := natText_first n
  have every := digit_number (natText_all n)
  have whole := integerOk_natText n
  unfold isNumber
  rw [every, Bool.true_and]
  rw [first] at whole ⊢
  simp only [if_neg minus]
  exact whole

theorem minus_number (n : Nat) : isNumber (45 :: natText n) = true := by
  have every := digit_number (natText_all n)
  rw [isNumber, List.all_cons, every]
  simp [isNumberByte, integerOk_natText n]

/-- A member of an object: its key, its text, and the value that text reads as. -/
structure Item where
  key : Bytes
  text : Bytes
  value : Json
  reads : Reads text value

def Item.string (key s : Bytes) : Item := ⟨key, quoted s, .str s, reads_quoted s⟩

def Item.nat (key : Bytes) (n : Nat) : Item :=
  ⟨key, natText n, .num ⟨natText n, natText_number n⟩, reads_number ⟨natText n, natText_number n⟩⟩

def Item.int (key : Bytes) : Int → Item
  | .ofNat n => .nat key n
  | .negSucc n =>
      ⟨key, 45 :: natText (n + 1), .num ⟨45 :: natText (n + 1), minus_number (n + 1)⟩,
        reads_number ⟨45 :: natText (n + 1), minus_number (n + 1)⟩⟩

def Item.part (i : Item) : Bytes × Bytes := (i.key, i.text)

def Item.field (i : Item) : Bytes × Json := (i.key, i.value)

theorem items_members (items : List Item) :
    List.Forall₂ Member (items.map Item.part) (items.map Item.field) := by
  induction items with
  | nil => exact .nil
  | cons i rest ih => exact .cons ⟨rfl, i.reads⟩ ih

/-- An object as a member. -/
def Item.object (key : Bytes) (depth : Nat) (items : List Item) (some_item : items ≠ [])
    (keys : (items.map Item.key).Nodup) : Item where
  key := key
  text := indented depth (items.map Item.part)
  value := .obj (items.map Item.field)
  reads := by
    apply reads_indented depth (items_members items)
    · exact fun none_left => some_item (List.map_eq_nil_iff.mp none_left)
    · rw [List.map_map]
      exact keys

/-! Which runs of bytes a written text can hold. -/

theorem infix_split {m before behind : Bytes} {c : UInt8} (other : c ∉ m)
    (inside : m <:+: before ++ c :: behind) : m <:+: before ∨ m <:+: behind := by
  obtain ⟨x, y, whole⟩ := inside
  rcases List.append_eq_append_iff.mp whole with ⟨rest, same, -⟩ | ⟨rest, same, tail⟩
  · exact .inl ⟨x, rest, same.symm⟩
  · cases rest with
    | nil => exact .inl ⟨x, [], by rw [List.append_nil] at same ⊢; exact same⟩
    | cons d rest =>
        rw [List.cons_append, List.cons.injEq] at tail
        obtain ⟨rfl, tail⟩ := tail
        rcases List.append_eq_append_iff.mp same with ⟨more, -, here⟩ | ⟨more, -, here⟩
        · exact absurd (here ▸ List.mem_append_right _ List.mem_cons_self) other
        · cases more with
          | nil => exact absurd (show c ∈ m by rw [List.nil_append] at here; rw [← here]; exact List.mem_cons_self) other
          | cons e more =>
              rw [List.cons_append, List.cons.injEq] at here
              refine .inr ⟨more, y, ?_⟩
              rw [tail, here.2]

theorem not_infix_of_mem {m text : Bytes} {c : UInt8} (there : c ∈ m) (missing : c ∉ text) :
    ¬ m <:+: text := fun inside => missing (inside.subset there)

theorem escapeHTML_cases (c : UInt8) : escapeHTML c = [c] ∨
    ((escapeHTML c).head? = some 92 ∧ 45 ∉ escapeHTML c) := by
  have all : ∀ n : Fin 256, escapeHTML (UInt8.ofNat n) = [UInt8.ofNat n] ∨
      ((escapeHTML (UInt8.ofNat n)).head? = some 92 ∧ 45 ∉ escapeHTML (UInt8.ofNat n)) := by
    decide +kernel
  have here := all ⟨c.toNat, c.toNat_lt⟩
  simp only [UInt8.ofNat_toNat] at here
  exact here

theorem infix_behind {m before behind : Bytes} {c : UInt8} (missing : c ∉ before)
    (inside : c :: m <:+: before ++ behind) : c :: m <:+: behind := by
  induction before with
  | nil => exact inside
  | cons d before ih =>
      rw [List.mem_cons, not_or] at missing
      rcases List.infix_cons_iff.mp inside with start | later
      · obtain ⟨rest, same⟩ := start
        exact absurd (List.cons.inj same).1 missing.1
      · exact ih missing.2 later

/-- A step of escapeString: one byte as it is, or an escape for the first bytes. -/
theorem escapeString_step (a : UInt8) (rest : Bytes) :
    (escapeString (a :: rest) = a :: escapeString rest) ∨
    ∃ escape front later, escapeString (a :: rest) = escape ++ escapeString later ∧
      a :: rest = front ++ later ∧ later.length < (a :: rest).length ∧
      escape.head? = some 92 ∧ 45 ∉ escape := by
  have single (same : escapeString (a :: rest) = escapeHTML a ++ escapeString rest) :
      (escapeString (a :: rest) = a :: escapeString rest) ∨
      ∃ escape front later, escapeString (a :: rest) = escape ++ escapeString later ∧
        a :: rest = front ++ later ∧ later.length < (a :: rest).length ∧
        escape.head? = some 92 ∧ 45 ∉ escape := by
    rcases escapeHTML_cases a with plain | ⟨slash, dash⟩
    · exact .inl (by rw [same, plain]; rfl)
    · exact .inr ⟨_, [a], rest, same, rfl, Nat.lt_succ_self _, slash, dash⟩
  match rest with
  | [] => exact single rfl
  | [b] => exact single rfl
  | b :: c :: rest =>
      by_cases first : a = 226 ∧ b = 128 ∧ c = 168
      · refine .inr ⟨[92, 117, 50, 48, 50, 56], [a, b, c], rest, ?_, rfl, ?_, rfl, by decide⟩
        · rw [escapeString, if_pos first]
        · simp only [List.length_cons]
          omega
      · by_cases second : a = 226 ∧ b = 128 ∧ c = 169
        · refine .inr ⟨[92, 117, 50, 48, 50, 57], [a, b, c], rest, ?_, rfl, ?_, rfl, by decide⟩
          · rw [escapeString, if_neg first, if_pos second]
          · simp only [List.length_cons]
            omega
        · exact single (by rw [escapeString, if_neg first, if_neg second])

theorem prefix_escaped {m : Bytes} (slash : 92 ∉ m) (s : Bytes) (start : m <+: escapeString s) :
    m <+: s := by
  induction s generalizing m with
  | nil => exact start
  | cons a rest ih =>
      cases m with
      | nil => exact List.nil_prefix
      | cons b m =>
          rw [List.mem_cons, not_or] at slash
          rcases escapeString_step a rest with plain | ⟨escape, front, later, same, -, -, head, -⟩
          · rw [plain, List.cons_prefix_cons] at start
            exact List.cons_prefix_cons.mpr ⟨start.1, ih slash.2 start.2⟩
          · rw [same] at start
            cases escape with
            | nil => cases head
            | cons d escape =>
                obtain rfl := Option.some.inj head
                exact absurd (List.cons_prefix_cons.mp start).1.symm slash.1

/-- A run that starts with a dash and has no backslash is in the string when it is in its text. -/
theorem infix_escaped {m : Bytes} (slash : 92 ∉ m) (s : Bytes)
    (inside : 45 :: m <:+: escapeString s) : 45 :: m <:+: s := by
  have other : 92 ∉ 45 :: m := by
    rw [List.mem_cons, not_or]
    exact ⟨by decide, slash⟩
  induction count : s.length using Nat.strong_induction_on generalizing s with
  | _ n ih =>
      cases s with
      | nil => exact inside
      | cons a rest =>
          rcases escapeString_step a rest with plain | ⟨escape, front, later, same, split, less, -, dash⟩
          · have whole := inside
            rw [plain] at inside
            rcases List.infix_cons_iff.mp inside with start | further
            · rw [← plain] at start
              exact (prefix_escaped other _ start).isInfix
            · exact (ih rest.length (by rw [← count]; exact Nat.lt_succ_self _) rest further rfl).trans
                (List.suffix_cons a rest).isInfix
          · rw [same] at inside
            have further := ih later.length (by rw [← count]; exact less) later
              (infix_behind dash inside) rfl
            rw [split]
            exact further.trans (List.suffix_append front later).isInfix

/-- A run that only a string can hold: it starts with a dash, has a letter that is no key's, and
no byte that parts the members of an object. -/
structure Mark (m : Bytes) (letter : UInt8) : Prop where
  dash : ∃ rest, m = 45 :: rest
  slash : 92 ∉ m
  quote : 34 ∉ m
  comma : 44 ∉ m
  newline : 10 ∉ m
  lettered : letter ∈ m
  other : letter ≠ 32 ∧ letter ≠ 125 ∧ letter ≠ 45 ∧ isDigit letter = false

section Marks

variable {m : Bytes} {letter : UInt8}

theorem Mark.behind (mark : Mark m letter) {before behind : Bytes} (dash : 45 ∉ before)
    (inside : m <:+: before ++ behind) : m <:+: behind := by
  obtain ⟨rest, rfl⟩ := mark.dash
  exact infix_behind dash inside

theorem Mark.not_nil (mark : Mark m letter) : ¬ m <:+: [] := by
  obtain ⟨rest, rfl⟩ := mark.dash
  intro inside
  cases List.infix_nil.mp inside

theorem Mark.escaped (mark : Mark m letter) {s : Bytes} (inside : m <:+: escapeString s) :
    m <:+: s := by
  have slash := mark.slash
  obtain ⟨rest, rfl⟩ := mark.dash
  rw [List.mem_cons, not_or] at slash
  exact infix_escaped slash.2 s inside

theorem Mark.in_quoted (mark : Mark m letter) {s : Bytes} (inside : m <:+: quoted s) : m <:+: s := by
  have later := @Mark.behind _ _ mark [34] _ (by decide) inside
  rcases infix_split mark.quote later with there | nowhere
  · exact mark.escaped there
  · exact absurd nowhere mark.not_nil

theorem Mark.blanks (mark : Mark m letter) (n : Nat) : ¬ m <:+: List.replicate n 32 := by
  apply not_infix_of_mem mark.lettered
  intro there
  exact mark.other.1 (List.eq_of_mem_replicate there)

theorem Mark.in_pad (mark : Mark m letter) (n : Nat) : ¬ m <:+: pad n := by
  intro inside
  exact mark.blanks n (@Mark.behind _ _ mark [10] _ (by decide) inside)

theorem Mark.in_line (mark : Mark m letter) {depth : Nat} {part : Bytes × Bytes}
    (inside : m <:+: line depth part) : m <:+: part.1 ∨ m <:+: part.2 := by
  have shape : line depth part =
      pad (2 * depth) ++ 34 :: (escapeString part.1 ++ 34 :: ([58, 32] ++ part.2)) := by
    simp [line, quoted]
  rw [shape] at inside
  rcases infix_split mark.quote inside with there | later
  · exact absurd there (mark.in_pad _)
  · rcases infix_split mark.quote later with there | later
    · exact .inl (mark.escaped there)
    · exact .inr (mark.behind (by decide) later)

theorem Mark.in_lines (mark : Mark m letter) {depth : Nat} {parts : List (Bytes × Bytes)}
    (inside : m <:+: lines depth parts) : ∃ part ∈ parts, m <:+: part.1 ∨ m <:+: part.2 := by
  induction parts with
  | nil => exact absurd inside mark.not_nil
  | cons part rest ih =>
      cases rest with
      | nil => exact ⟨part, List.mem_cons_self, mark.in_line inside⟩
      | cons next rest =>
          rcases infix_split mark.comma inside with there | later
          · exact ⟨part, List.mem_cons_self, mark.in_line there⟩
          · obtain ⟨other, listed, there⟩ := ih later
            exact ⟨other, List.mem_cons_of_mem _ listed, there⟩

theorem Mark.in_indented (mark : Mark m letter) {depth : Nat} {parts : List (Bytes × Bytes)}
    (inside : m <:+: indented depth parts) : ∃ part ∈ parts, m <:+: part.1 ∨ m <:+: part.2 := by
  have later := @Mark.behind _ _ mark [123] _ (by decide) inside
  rcases infix_split mark.newline later with there | behind
  · exact mark.in_lines there
  · have missing : letter ∉ List.replicate (2 * depth) 32 ++ [125] := by
      rw [List.mem_append, not_or]
      exact ⟨fun there => mark.other.1 (List.eq_of_mem_replicate there),
        fun there => mark.other.2.1 (List.mem_singleton.mp there)⟩
    exact absurd behind (not_infix_of_mem mark.lettered missing)

theorem Mark.digits (mark : Mark m letter) (n : Nat) : letter ∉ natText n := by
  intro there
  have digit := List.all_eq_true.mp (natText_all n) letter there
  rw [mark.other.2.2.2] at digit
  cases digit

theorem Mark.nat (mark : Mark m letter) (key : Bytes) (n : Nat) : ¬ m <:+: (Item.nat key n).text :=
  not_infix_of_mem mark.lettered (mark.digits n)

theorem Mark.int (mark : Mark m letter) (key : Bytes) (i : Int) : ¬ m <:+: (Item.int key i).text := by
  apply not_infix_of_mem mark.lettered
  cases i with
  | ofNat n => exact mark.digits n
  | negSucc n =>
      intro there
      rcases List.mem_cons.mp there with dash | digit
      · exact mark.other.2.2.1 dash
      · exact mark.digits _ digit

end Marks

/-! No carriage return is written. -/

theorem escapeString_return (s : Bytes) : 13 ∉ escapeString s := by
  have each (c : UInt8) : 13 ∉ escapeHTML c := by
    have all : ∀ n : Fin 256, 13 ∉ escapeHTML (UInt8.ofNat n) := by decide +kernel
    have here := all ⟨c.toNat, c.toNat_lt⟩
    rwa [UInt8.ofNat_toNat] at here
  induction s using escapeString.induct with
  | case1 a b c more known ih =>
      rw [escapeString, if_pos known, List.mem_append, not_or]
      exact ⟨by decide, ih⟩
  | case2 a b c more other known ih =>
      rw [escapeString, if_neg other, if_pos known, List.mem_append, not_or]
      exact ⟨by decide, ih⟩
  | case3 a b c more other another ih =>
      rw [escapeString, if_neg other, if_neg another, List.mem_append, not_or]
      exact ⟨each a, ih⟩
  | case4 a more short ih =>
      rw [escapeString_short short, List.mem_append, not_or]
      exact ⟨each a, ih⟩
  | case5 => exact List.not_mem_nil

theorem quoted_return (s : Bytes) : 13 ∉ quoted s := by
  simp [quoted, escapeString_return s]

theorem natText_return (n : Nat) : 13 ∉ natText n := by
  intro there
  have digit := List.all_eq_true.mp (natText_all n) 13 there
  cases digit

theorem int_return (key : Bytes) (i : Int) : 13 ∉ (Item.int key i).text := by
  cases i with
  | ofNat n => exact natText_return n
  | negSucc n =>
      change 13 ∉ 45 :: natText (n + 1)
      simp [natText_return (n + 1)]

theorem lines_return (depth : Nat) {parts : List (Bytes × Bytes)}
    (each : ∀ part ∈ parts, 13 ∉ part.2) : 13 ∉ lines depth parts := by
  have one (part : Bytes × Bytes) (there : 13 ∉ part.2) : 13 ∉ line depth part := by
    simp [line, pad, quoted_return part.1, there]
  induction parts with
  | nil => exact List.not_mem_nil
  | cons part rest ih =>
      have first := one part (each part List.mem_cons_self)
      cases rest with
      | nil => exact first
      | cons next rest =>
          have later := ih fun part listed => each part (List.mem_cons_of_mem _ listed)
          simp [lines, first, later]

theorem indented_return (depth : Nat) {parts : List (Bytes × Bytes)}
    (each : ∀ part ∈ parts, 13 ∉ part.2) : 13 ∉ indented depth parts := by
  simp [indented, pad, lines_return (depth + 1) each]

end ProxmoxBackup.IndentedJson
