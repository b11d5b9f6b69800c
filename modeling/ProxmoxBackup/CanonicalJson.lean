import ProxmoxBackup.JsonText
import ProxmoxBackup.ByteOrder
import ProxmoxBackup.GoValues
import Mathlib.Data.List.Perm.Basic

/-! The canonical encoding a manifest is signed in: keys in byte order, no white space,
the fewest escapes. It reads back as the same value, so it is a normal form. -/
namespace ProxmoxBackup.CanonicalJson

open JsonText ByteOrder

/-- The one way to fail: "canonical json: unexpected null value". -/
inductive UnexpectedNull where
  | unexpectedNull
  deriving DecidableEq

def hexDigits : Bytes := [48, 49, 50, 51, 52, 53, 54, 55, 56, 57, 97, 98, 99, 100, 101, 102]

def escapeByte (c : UInt8) : Bytes :=
  if c = 34 then [92, 34]
  else if c = 92 then [92, 92]
  else if c = 8 then [92, 98]
  else if c = 9 then [92, 116]
  else if c = 10 then [92, 110]
  else if c = 12 then [92, 102]
  else if c = 13 then [92, 114]
  else [92, 117, 48, 48, hexDigits.getD (c >>> 4).toNat 0, hexDigits.getD (c &&& 0xf).toNat 0]

def passes (c : UInt8) : Bool := c ≥ 0x20 && c ≠ 34 && c ≠ 92

/-- The loop over the bytes; `pending` is `s[start:i]`, not yet written. -/
def escapeLoop (pending : Bytes) : Bytes → Bytes
  | [] => pending
  | c :: s =>
      if passes c then escapeLoop (pending ++ [c]) s
      else pending ++ escapeByte c ++ escapeLoop [] s

def writeCanonicalJSONString (s : Bytes) : Bytes := 34 :: escapeLoop [] s ++ [34]

/-- `slices.Sort` on the keys, each with what its value is written as. -/
def sortKeys (parts : List (Bytes × Bytes)) : List (Bytes × Bytes) :=
  parts.mergeSort fun a b => bytesLe a.1 b.1

def commas : List Bytes → Bytes
  | [] => []
  | [part] => part
  | part :: next :: rest => part ++ 44 :: commas (next :: rest)

def member (part : Bytes × Bytes) : Bytes := writeCanonicalJSONString part.1 ++ 58 :: part.2

def writeObject (parts : List (Bytes × Bytes)) : Bytes :=
  123 :: commas ((sortKeys parts).map member) ++ [125]

mutual

def writeCanonicalJSON : Json → Except UnexpectedNull Bytes
  | .null => .error .unexpectedNull
  | .bool true => .ok trueText
  | .bool false => .ok falseText
  | .num n => .ok n.text
  | .str s => .ok (writeCanonicalJSONString s)
  | .arr items => do
      let parts ← writeItems items
      return 91 :: commas parts ++ [93]
  | .obj fields => do
      let parts ← writeFields fields
      return writeObject parts

def writeItems : List Json → Except UnexpectedNull (List Bytes)
  | [] => .ok []
  | item :: rest => do
      let part ← writeCanonicalJSON item
      let parts ← writeItems rest
      return part :: parts

def writeFields : List (Bytes × Json) → Except UnexpectedNull (List (Bytes × Bytes))
  | [] => .ok []
  | (key, value) :: rest => do
      let part ← writeCanonicalJSON value
      let parts ← writeFields rest
      return (key, part) :: parts

end

def canonicalJSON (value : Json) : Except UnexpectedNull Bytes := writeCanonicalJSON value

inductive CanonicalError where
  | badText
  | expectedObject
  | unexpectedNull
  deriving DecidableEq

def unprotectedKey : Bytes := "unprotected".toUTF8.toList
def signatureKey : Bytes := "signature".toUTF8.toList

/-- The fields that are signed. -/
def signedFields (fields : List (Bytes × Json)) : List (Bytes × Json) :=
  fields.filter fun f => f.1 ≠ unprotectedKey ∧ f.1 ≠ signatureKey

def canonicalJSONBytes (raw : Bytes) : Except CanonicalError Bytes :=
  match decode raw with
  | none => .error .badText
  | some (.obj fields) =>
      match canonicalJSON (.obj (signedFields fields)) with
      | .error _ => .error .unexpectedNull
      | .ok text => .ok text
  | some _ => .error .expectedObject

/-- What `UploadManifest` signs a marshalled manifest with; `authTag` is the HMAC under
the key. -/
def manifestSignature (authTag : Bytes → Bytes) (manifestBin : Bytes) :
    Except CanonicalError Bytes :=
  (canonicalJSONBytes manifestBin).map authTag

/-! The order of members does not matter. -/

theorem sortKeys_sorted (parts : List (Bytes × Bytes)) :
    (sortKeys parts).Pairwise fun a b => bytesLe a.1 b.1 = true :=
  List.pairwise_mergeSort (fun a b c => bytesLe_trans a.1 b.1 c.1)
    (fun a b => bytesLe_total a.1 b.1) parts

theorem sortKeys_perm (parts : List (Bytes × Bytes)) : (sortKeys parts).Perm parts :=
  List.mergeSort_perm parts _

/-- With distinct keys there is one order to write the members in. -/
theorem sortKeys_unique {parts parts' : List (Bytes × Bytes)} (perm : parts.Perm parts')
    (keys : (parts.map Prod.fst).Nodup) : sortKeys parts = sortKeys parts' := by
  have same := ((sortKeys_perm parts).trans perm).trans (sortKeys_perm parts').symm
  refine same.eq_of_pairwise (fun a b first second up down => ?_) (sortKeys_sorted parts)
    (sortKeys_sorted parts')
  exact List.inj_on_of_nodup_map keys ((sortKeys_perm parts).mem_iff.mp first)
    (perm.mem_iff.mpr ((sortKeys_perm parts').mem_iff.mp second))
    (bytesLe_antisymm _ _ up down)

/-- Two writings that fail together or hold the same parts. -/
inductive Alike {α : Type} : Except UnexpectedNull (List α) → Except UnexpectedNull (List α) → Prop where
  | ok {parts parts' : List α} (perm : parts.Perm parts') : Alike (.ok parts) (.ok parts')
  | error : Alike (.error .unexpectedNull) (.error .unexpectedNull)

theorem Alike.trans {α : Type} {x y z : Except UnexpectedNull (List α)} (first : Alike x y)
    (second : Alike y z) : Alike x z := by
  cases first with
  | ok perm =>
      cases second with
      | ok perm' => exact .ok (perm.trans perm')
  | error => exact second

theorem alike_refl {α : Type} (x : Except UnexpectedNull (List α)) : Alike x x := by
  match x with
  | .ok parts => exact .ok (.refl _)
  | .error .unexpectedNull => exact .error

theorem writeFields_cons (key : Bytes) (value : Json) (rest : List (Bytes × Json)) :
    writeFields ((key, value) :: rest) =
      writeCanonicalJSON value >>= fun part => (writeFields rest).map ((key, part) :: ·) := by
  rw [writeFields]
  cases writeCanonicalJSON value with
  | error err => rfl
  | ok part => cases writeFields rest <;> rfl

theorem writeFields_perm {fields fields' : List (Bytes × Json)} (perm : fields.Perm fields') :
    Alike (writeFields fields) (writeFields fields') := by
  induction perm with
  | nil => exact alike_refl _
  | cons f _ ih =>
      obtain ⟨key, value⟩ := f
      rw [writeFields_cons, writeFields_cons]
      match writeCanonicalJSON value, ih with
      | .error .unexpectedNull, _ => exact .error
      | .ok part, ih =>
          revert ih
          generalize writeFields _ = x
          generalize writeFields _ = y
          intro ih
          cases ih with
          | ok perm => exact .ok (perm.cons _)
          | error => exact .error
  | swap f g rest =>
      obtain ⟨key, value⟩ := f
      obtain ⟨key', value'⟩ := g
      simp only [writeFields_cons]
      match writeCanonicalJSON value, writeCanonicalJSON value', writeFields rest with
      | .error .unexpectedNull, .error .unexpectedNull, _ => exact .error
      | .error .unexpectedNull, .ok _, _ => exact .error
      | .ok _, .error .unexpectedNull, _ => exact .error
      | .ok _, .ok _, .error .unexpectedNull => exact .error
      | .ok part, .ok part', .ok parts => exact .ok (.swap _ _ _)
  | trans _ _ first second => exact first.trans second

theorem writeFields_keys {fields : List (Bytes × Json)} {parts : List (Bytes × Bytes)}
    (wrote : writeFields fields = .ok parts) : parts.map Prod.fst = fields.map Prod.fst := by
  induction fields generalizing parts with
  | nil =>
      obtain rfl := Except.ok.inj wrote
      rfl
  | cons f rest ih =>
      obtain ⟨key, value⟩ := f
      rw [writeFields_cons] at wrote
      obtain ⟨part, -, wrote⟩ := GoValues.bind_ok wrote
      cases tail : writeFields rest with
      | error err =>
          rw [tail] at wrote
          cases wrote
      | ok more =>
          rw [tail] at wrote
          obtain rfl := Except.ok.inj wrote
          rw [List.map_cons, List.map_cons, ih tail]

theorem writeObject_perm {parts parts' : List (Bytes × Bytes)} (perm : parts.Perm parts')
    (keys : (parts.map Prod.fst).Nodup) : writeObject parts = writeObject parts' := by
  rw [writeObject, writeObject, sortKeys_unique perm keys]

theorem writeItems_middle {a b : Json} (before after : List Json)
    (same : writeCanonicalJSON a = writeCanonicalJSON b) :
    writeItems (before ++ a :: after) = writeItems (before ++ b :: after) := by
  induction before with
  | nil => rw [List.nil_append, List.nil_append, writeItems, writeItems, same]
  | cons item rest ih => rw [List.cons_append, List.cons_append, writeItems, writeItems, ih]

theorem writeFields_middle {a b : Json} (before after : List (Bytes × Json)) (key : Bytes)
    (same : writeCanonicalJSON a = writeCanonicalJSON b) :
    writeFields (before ++ (key, a) :: after) = writeFields (before ++ (key, b) :: after) := by
  induction before with
  | nil => rw [List.nil_append, List.nil_append, writeFields_cons, writeFields_cons, same]
  | cons f rest ih =>
      obtain ⟨key', value⟩ := f
      rw [List.cons_append, List.cons_append, writeFields_cons, writeFields_cons, ih]

/-- The same value has the same keys at each object, and so keeps them distinct. -/
theorem same_distinct {a b : Json} (same : Same a b) (distinct : Distinct a) : Distinct b := by
  induction same with
  | refl a => exact distinct
  | trans _ _ first second => exact second (first distinct)
  | reorder perm =>
      cases distinct with
      | obj keys each =>
          exact .obj ((perm.map Prod.fst).nodup_iff.mp keys)
            (fun f inside => each f (perm.mem_iff.mpr inside))
  | @item a b before after _ ih =>
      cases distinct with
      | arr each =>
          refine .arr (fun x inside => ?_)
          obtain first | middle := List.mem_append.mp inside
          · exact each x (List.mem_append_left _ first)
          · obtain rfl | last := List.mem_cons.mp middle
            · exact ih (each a (List.mem_append_right _ List.mem_cons_self))
            · exact each x (List.mem_append_right _ (List.mem_cons_of_mem _ last))
  | @field a b before after key _ ih =>
      cases distinct with
      | obj keys each =>
          refine .obj (by simpa using keys) (fun x inside => ?_)
          obtain first | middle := List.mem_append.mp inside
          · exact each x (List.mem_append_left _ first)
          · obtain rfl | last := List.mem_cons.mp middle
            · exact ih (each (key, a) (List.mem_append_right _ List.mem_cons_self))
            · exact each x (List.mem_append_right _ (List.mem_cons_of_mem _ last))

theorem same_written {a b : Json} (same : Same a b) (distinct : Distinct a) :
    writeCanonicalJSON a = writeCanonicalJSON b := by
  induction same with
  | refl a => rfl
  | trans first _ ih ih' => exact (ih distinct).trans (ih' (same_distinct first distinct))
  | @reorder fields fields' perm =>
      have alike := writeFields_perm perm
      rw [writeCanonicalJSON, writeCanonicalJSON]
      cases wrote : writeFields fields with
      | error err =>
          rw [wrote] at alike
          cases alike' : writeFields fields' with
          | ok parts =>
              rw [alike'] at alike
              cases alike
          | error err' => rfl
      | ok parts =>
          rw [wrote] at alike
          cases alike' : writeFields fields' with
          | error err =>
              rw [alike'] at alike
              cases alike
          | ok parts' =>
              rw [alike'] at alike
              cases alike with
              | ok perm =>
                  cases distinct with
                  | obj keys each =>
                      rw [← writeFields_keys wrote] at keys
                      exact congrArg Except.ok (writeObject_perm perm keys)
  | @item a b before after _ ih =>
      cases distinct with
      | arr each =>
          have inner := ih (each a (List.mem_append_right _ List.mem_cons_self))
          rw [writeCanonicalJSON, writeCanonicalJSON, writeItems_middle before after inner]
  | @field a b before after key _ ih =>
      cases distinct with
      | obj keys each =>
          have inner := ih (each (key, a) (List.mem_append_right _ List.mem_cons_self))
          rw [writeCanonicalJSON, writeCanonicalJSON, writeFields_middle before after key inner]

/-! The text reads back. -/

/-- What one byte of a string is written as. -/
def written (c : UInt8) : Bytes := if passes c then [c] else escapeByte c

theorem escapeLoop_written (pending s : Bytes) :
    escapeLoop pending s = pending ++ s.flatMap written := by
  induction s generalizing pending with
  | nil => simp [escapeLoop]
  | cons c s ih =>
      rw [escapeLoop, List.flatMap_cons, written]
      split
      · rw [ih, List.append_assoc]
      · rw [ih, List.nil_append, List.append_assoc]

theorem control_escape (c : UInt8) (control : c < 32) :
    hex4 48 48 (hexDigits.getD (c >>> 4).toNat 0) (hexDigits.getD (c &&& 0xf).toNat 0) =
      some c.toNat ∧ utf8 c.toNat = [c] ∧ isSurrogate c.toNat = false := by
  have all : ∀ n : Fin 32, let c := UInt8.ofNat n
      hex4 48 48 (hexDigits.getD (c >>> 4).toNat 0) (hexDigits.getD (c &&& 0xf).toNat 0) =
        some c.toNat ∧ utf8 c.toNat = [c] ∧ isSurrogate c.toNat = false := by
    decide +kernel
  have small : c.toNat < 32 := UInt8.lt_iff_toNat_lt.mp control
  have same : UInt8.ofNat c.toNat = c := UInt8.ofNat_toNat
  have here := all ⟨c.toNat, small⟩
  simp only [same] at here
  exact here

/-- One written byte in front of what reads as a string. -/
theorem readString_written (c : UInt8) {fuel : Nat} {text s rest : Bytes}
    (read : readString fuel text = some (s, rest)) :
    readString (fuel + 1) (written c ++ text) = some (c :: s, rest) := by
  rw [written]
  by_cases plain : passes c = true
  · have visible : c ≠ 34 ∧ c ≠ 92 ∧ ¬ c < 32 := by
      simp only [passes, Bool.and_eq_true, decide_eq_true_eq] at plain
      exact ⟨plain.1.2, plain.2, UInt8.not_lt.mpr plain.1.1⟩
    rw [if_pos plain, List.singleton_append]
    simp [readString, visible.1, visible.2.1, visible.2.2, read]
  · rw [if_neg plain, escapeByte]
    by_cases quote : c = 34
    · subst quote
      simp [readString, simpleEscape, read]
    by_cases slash : c = 92
    · subst slash
      simp [readString, simpleEscape, read]
    by_cases back : c = 8
    · subst back
      simp [readString, simpleEscape, read]
    by_cases tab : c = 9
    · subst tab
      simp [readString, simpleEscape, read]
    by_cases line : c = 10
    · subst line
      simp [readString, simpleEscape, read]
    by_cases form : c = 12
    · subst form
      simp [readString, simpleEscape, read]
    by_cases carriage : c = 13
    · subst carriage
      simp [readString, simpleEscape, read]
    · have control : c < 32 := by
        by_contra high
        apply plain
        simp only [passes, Bool.and_eq_true, decide_eq_true_eq]
        exact ⟨⟨UInt8.not_lt.mp high, quote⟩, slash⟩
      obtain ⟨unit, bytes, single⟩ := control_escape c control
      simp only [if_neg quote, if_neg slash, if_neg back, if_neg tab, if_neg line, if_neg form,
        if_neg carriage]
      revert unit
      generalize hexDigits.getD (c >>> 4).toNat 0 = high
      generalize hexDigits.getD (c &&& 0xf).toNat 0 = low
      intro unit
      simp [readString, unit, bytes, single, read]

theorem readString_all (s rest : Bytes) (fuel : Nat) (enough : s.length < fuel) :
    readString fuel (s.flatMap written ++ 34 :: rest) = some (s, rest) := by
  induction s generalizing fuel with
  | nil =>
      cases fuel with
      | zero => exact absurd enough (Nat.not_lt_zero _)
      | succ fuel => simp [readString]
  | cons c s ih =>
      cases fuel with
      | zero => exact absurd enough (Nat.not_lt_zero _)
      | succ fuel =>
          rw [List.flatMap_cons, List.append_assoc]
          exact readString_written c (ih fuel (Nat.lt_of_succ_lt_succ enough))

theorem written_pos (c : UInt8) : 1 ≤ (written c).length := by
  rw [written]
  split
  · exact Nat.le_refl 1
  · rw [escapeByte]
    repeat' split
    all_goals simp

theorem written_long (s : Bytes) : s.length ≤ (s.flatMap written).length := by
  induction s with
  | nil => exact Nat.le_refl _
  | cons c s ih =>
      have one := written_pos c
      rw [List.flatMap_cons, List.length_append, List.length_cons]
      omega

theorem string_text (s : Bytes) :
    writeCanonicalJSONString s = 34 :: (s.flatMap written ++ [34]) := by
  rw [writeCanonicalJSONString, escapeLoop_written, List.nil_append, List.cons_append]

/-- What may follow a value: nothing that continues a number. -/
def Ends (rest : Bytes) : Prop := ∀ c more, rest = c :: more → isNumberByte c = false

/-- A text that reads as one value, whatever follows it. -/
structure Reads (text : Bytes) (value : Json) : Prop where
  starts : ∃ c more, text = c :: more ∧ isSpace c = false ∧ c ≠ 93
  reads : ∀ rest fuel, Ends rest → text.length < fuel →
    readValue fuel (text ++ rest) = some (value, rest)

theorem skipSpace_cons {c : UInt8} {rest : Bytes} (solid : isSpace c = false) :
    skipSpace (c :: rest) = c :: rest := by
  simp [skipSpace, solid]

theorem readValue_scalar {c : UInt8} {rest : Bytes} {fuel : Nat} (solid : isSpace c = false)
    (noArray : c ≠ 91) (noObject : c ≠ 123) :
    readValue (fuel + 1) (c :: rest) = readScalar (c :: rest) := by
  rw [readValue, skipSpace_cons solid]
  simp only [if_neg noArray, if_neg noObject]

theorem reads_scalar {c : UInt8} {more : Bytes} {value : Json} (solid : isSpace c = false)
    (noEnd : c ≠ 93) (noArray : c ≠ 91) (noObject : c ≠ 123)
    (scalar : ∀ rest, Ends rest → readScalar (c :: (more ++ rest)) = some (value, rest)) :
    Reads (c :: more) value where
  starts := ⟨c, more, rfl, solid, noEnd⟩
  reads rest fuel ends enough := by
    cases fuel with
    | zero => exact absurd enough (Nat.not_lt_zero _)
    | succ fuel =>
        rw [List.cons_append, readValue_scalar solid noArray noObject]
        exact scalar rest ends

theorem readScalar_word {c : UInt8} {rest : Bytes} (t : c ≠ 116) (f : c ≠ 102) (n : c ≠ 110) :
    readScalar (c :: rest) =
      if c = 34 then (readString (rest.length + 1) rest).map fun (s, rest) => (.str s, rest)
      else readNumber (c :: rest) := by
  have noTrue : trueText.isPrefixOf (c :: rest) = false := by
    simp [trueText, List.isPrefixOf, t.symm]
  have noFalse : falseText.isPrefixOf (c :: rest) = false := by
    simp [falseText, List.isPrefixOf, f.symm]
  have noNull : nullText.isPrefixOf (c :: rest) = false := by
    simp [nullText, List.isPrefixOf, n.symm]
  rw [readScalar, noTrue, noFalse, noNull]
  rfl

theorem reads_string (s : Bytes) : Reads (writeCanonicalJSONString s) (.str s) := by
  rw [string_text]
  refine reads_scalar (by decide) (by decide) (by decide) (by decide) (fun rest _ => ?_)
  have long := written_long s
  rw [List.append_assoc, List.singleton_append,
    readScalar_word (by decide) (by decide) (by decide), if_pos rfl,
    readString_all s rest _ (by rw [List.length_append]; omega)]
  rfl

theorem reads_bool (b : Bool) : ∀ text, writeCanonicalJSON (.bool b) = .ok text →
    Reads text (.bool b) := by
  intro text wrote
  cases b with
  | true =>
      obtain rfl := Except.ok.inj wrote
      refine reads_scalar (by decide) (by decide) (by decide) (by decide) (fun rest _ => ?_)
      rfl
  | false =>
      obtain rfl := Except.ok.inj wrote
      refine reads_scalar (by decide) (by decide) (by decide) (by decide) (fun rest _ => ?_)
      rfl

theorem takeWhile_ends {text rest : Bytes} (all : text.all isNumberByte = true)
    (ends : Ends rest) : (text ++ rest).takeWhile isNumberByte = text ∧
      (text ++ rest).dropWhile isNumberByte = rest := by
  have stop : rest.takeWhile isNumberByte = [] ∧ rest.dropWhile isNumberByte = rest := by
    cases rest with
    | nil => exact ⟨rfl, rfl⟩
    | cons c more =>
        have off := ends c more rfl
        simp [off]
  have each : ∀ c ∈ text, isNumberByte c = true := List.all_eq_true.mp all
  rw [List.takeWhile_append_of_pos each, List.dropWhile_append_of_pos each, stop.1, stop.2,
    List.append_nil]
  exact ⟨rfl, rfl⟩

theorem number_bytes {text : Bytes} (valid : isNumber text = true) :
    text.all isNumberByte = true := by
  unfold isNumber at valid
  exact (Bool.and_eq_true_iff.mp valid).1

theorem number_starts (n : Number) : ∃ c more, n.text = c :: more ∧ isNumberByte c = true := by
  obtain ⟨text, valid⟩ := n
  cases text with
  | nil => cases valid
  | cons c more =>
      exact ⟨c, more, rfl, (List.all_eq_true.mp (number_bytes valid)) c List.mem_cons_self⟩

theorem reads_number (n : Number) : Reads n.text (.num n) := by
  obtain ⟨c, more, same, digit⟩ := number_starts n
  have all := number_bytes n.valid
  have apart : ∀ d, isNumberByte d = false → c ≠ d := by
    rintro d off rfl
    rw [digit] at off
    cases off
  have solid : isSpace c = false := by
    simp only [isSpace, Bool.or_eq_false_iff, decide_eq_false_iff_not]
    exact ⟨⟨⟨apart 32 (by decide), apart 9 (by decide)⟩, apart 10 (by decide)⟩,
      apart 13 (by decide)⟩
  have read : ∀ rest, Ends rest → readScalar (c :: (more ++ rest)) = some (.num n, rest) := by
    intro rest ends
    rw [readScalar_word (apart 116 (by decide)) (apart 102 (by decide)) (apart 110 (by decide)),
      if_neg (apart 34 (by decide)), ← List.cons_append, ← same]
    obtain ⟨token, left⟩ := takeWhile_ends all ends
    simp only [readNumber, token, left, dif_pos n.valid]
  rw [same]
  exact reads_scalar solid (apart 93 (by decide)) (apart 91 (by decide)) (apart 123 (by decide)) read

theorem ends_with {c : UInt8} (rest : Bytes) (mark : isNumberByte c = false) :
    Ends (c :: rest) := by
  intro d more same
  obtain ⟨rfl, -⟩ := List.cons.inj same
  exact mark

theorem reads_items {parts : List Bytes} {items : List Json}
    (each : List.Forall₂ Reads parts items) (some_part : parts ≠ []) (rest : Bytes) (fuel : Nat)
    (enough : (commas parts).length + 2 ≤ fuel) :
    readItems fuel (commas parts ++ 93 :: rest) = some (items, rest) := by
  induction each generalizing fuel with
  | nil => exact absurd rfl some_part
  | @cons part item more items reads tail ih =>
      cases fuel with
      | zero => omega
      | succ fuel =>
          cases more with
          | nil =>
              cases tail
              have short : part.length < fuel := by
                simp only [commas] at enough
                omega
              have value := reads.reads (93 :: rest) fuel (ends_with rest (by decide)) short
              simp only [readItems, commas, value]
              simp [skipSpace, isSpace]
          | cons next others =>
              simp only [commas, List.length_append, List.length_cons] at enough
              have value := reads.reads (44 :: (commas (next :: others) ++ 93 :: rest)) fuel
                (ends_with _ (by decide)) (by omega)
              have later := ih (by simp) fuel (by omega)
              simp only [readItems, commas, List.append_assoc, List.cons_append, value]
              simp [skipSpace, isSpace, later]

theorem commas_starts {parts : List Bytes} {items : List Json}
    (each : List.Forall₂ Reads parts items) (some_part : parts ≠ []) :
    ∃ c more, commas parts = c :: more ∧ isSpace c = false ∧ c ≠ 93 := by
  cases each with
  | nil => exact absurd rfl some_part
  | @cons part item more items reads tail =>
      obtain ⟨c, rest, rfl, solid, noEnd⟩ := reads.starts
      cases more with
      | nil => exact ⟨c, rest, rfl, solid, noEnd⟩
      | cons next others => exact ⟨c, _, rfl, solid, noEnd⟩

theorem reads_array {parts : List Bytes} {items : List Json}
    (each : List.Forall₂ Reads parts items) : Reads (91 :: commas parts ++ [93]) (.arr items) where
  starts := ⟨91, _, rfl, by decide, by decide⟩
  reads rest fuel _ enough := by
    cases fuel with
    | zero => exact absurd enough (Nat.not_lt_zero _)
    | succ fuel =>
        have bracket : skipSpace (91 :: (commas parts ++ 93 :: rest)) =
            91 :: (commas parts ++ 93 :: rest) := skipSpace_cons (by decide)
        rw [List.append_assoc, List.singleton_append, List.cons_append, readValue, bracket]
        by_cases empty : parts = []
        · subst empty
          cases each
          simp [commas, skipSpace, isSpace]
        · obtain ⟨c, more, same, solid, noEnd⟩ := commas_starts each empty
          have read := reads_items each empty rest fuel
            (by simp only [List.cons_append, List.length_cons, List.length_append, List.length_nil] at enough; omega)
          rw [same, List.cons_append] at read ⊢
          simp only [skipSpace_cons solid, if_pos, if_neg noEnd, read, Option.map_some]

/-- A member as it is written reads as its key and its value. -/
def Member (part : Bytes × Bytes) (field : Bytes × Json) : Prop :=
  part.1 = field.1 ∧ Reads part.2 field.2

theorem member_text (key text : Bytes) :
    member (key, text) = 34 :: (key.flatMap written ++ 34 :: 58 :: text) := by
  simp [member, string_text]

theorem key_fits (key rest : Bytes) :
    key.length < (key.flatMap written ++ rest).length + 1 := by
  have long := written_long key
  rw [List.length_append]
  omega

theorem reads_fields {parts : List (Bytes × Bytes)} {fields : List (Bytes × Json)}
    (each : List.Forall₂ Member parts fields) (some_part : parts ≠ []) (rest : Bytes) (fuel : Nat)
    (enough : (commas (parts.map member)).length + 2 ≤ fuel) :
    readFields fuel (commas (parts.map member) ++ 125 :: rest) = some (fields, rest) := by
  induction each generalizing fuel with
  | nil => exact absurd rfl some_part
  | @cons part field more fields reads tail ih =>
      obtain ⟨key, text⟩ := part
      obtain ⟨key', value⟩ := field
      obtain ⟨rfl, reads⟩ := reads
      simp only at reads
      cases fuel with
      | zero => omega
      | succ fuel =>
          cases more with
          | nil =>
              cases tail
              simp only [List.map_cons, List.map_nil, commas, member_text, List.length_cons,
                List.length_append] at enough
              have read := reads.reads (125 :: rest) fuel (ends_with rest (by decide)) (by omega)
              simp only [List.map_cons, List.map_nil, commas, member_text, List.cons_append,
                List.append_assoc, readFields, skipSpace_cons (by decide : isSpace 34 = false),
                if_true]
              rw [readString_all key _ _ (key_fits key _)]
              simp [skipSpace, isSpace, read]
          | cons next others =>
              have later := ih (by simp)
              generalize others_text : commas ((next :: others).map member) = joined at later
              have split : commas (((key, text) :: next :: others).map member) =
                  34 :: (key.flatMap written ++ 34 :: 58 :: (text ++ 44 :: joined)) := by
                rw [← others_text, List.map_cons, List.map_cons, commas, member_text]
                simp
              rw [split] at enough ⊢
              simp only [List.length_cons, List.length_append] at enough
              have read := reads.reads (44 :: (joined ++ 125 :: rest)) fuel
                (ends_with _ (by decide)) (by omega)
              simp only [List.cons_append, List.append_assoc, readFields,
                skipSpace_cons (by decide : isSpace 34 = false), if_true]
              rw [readString_all key _ _ (key_fits key _)]
              simp [skipSpace, isSpace, read, later fuel (by omega)]

theorem toMap_distinct (before fields : List (Bytes × Json))
    (keys : ((before ++ fields).map Prod.fst).Nodup) :
    fields.foldl setField before = before ++ fields := by
  induction fields generalizing before with
  | nil => simp
  | cons f rest ih =>
      have fresh : f.1 ∉ before.map Prod.fst := by
        rw [List.map_append, List.nodup_append] at keys
        intro old
        exact keys.2.2 f.1 old f.1 List.mem_cons_self rfl
      have step : setField before f = before ++ [f] := by rw [setField, if_neg fresh]
      rw [List.foldl_cons, step, ih (before ++ [f]) (by simpa using keys)]
      simp

theorem members_start {parts : List (Bytes × Bytes)} (some_part : parts ≠ []) :
    ∃ more, commas (parts.map member) = 34 :: more := by
  cases parts with
  | nil => exact absurd rfl some_part
  | cons part others =>
      cases others with
      | nil => exact ⟨_, by rw [List.map_cons, List.map_nil, commas, member_text]⟩
      | cons next others =>
          refine ⟨?_, ?_⟩
          rotate_left
          · rw [List.map_cons, List.map_cons, commas, member_text, List.cons_append]

theorem reads_members {parts : List (Bytes × Bytes)} {fields : List (Bytes × Json)}
    (each : List.Forall₂ Member parts fields) (keys : (fields.map Prod.fst).Nodup) :
    Reads (123 :: commas (parts.map member) ++ [125]) (.obj fields) where
  starts := ⟨123, _, rfl, by decide, by decide⟩
  reads rest fuel _ enough := by
    cases fuel with
    | zero => exact absurd enough (Nat.not_lt_zero _)
    | succ fuel =>
        have brace : skipSpace (123 :: (commas (parts.map member) ++ 125 :: rest)) =
            123 :: (commas (parts.map member) ++ 125 :: rest) := skipSpace_cons (by decide)
        rw [List.append_assoc, List.singleton_append, List.cons_append, readValue, brace]
        by_cases empty : parts = []
        · subst empty
          cases each
          simp [commas, skipSpace, isSpace]
        · obtain ⟨more, same⟩ := members_start empty
          have read := reads_fields each empty rest fuel
            (by simp only [List.cons_append, List.length_cons, List.length_append, List.length_nil] at enough; omega)
          have whole : toMap fields = fields := toMap_distinct [] fields keys
          rw [same, List.cons_append] at read ⊢
          simp [skipSpace_cons (by decide : isSpace 34 = false), read, whole]

/-- No null at any depth. -/
inductive NullFree : Json → Prop where
  | bool (b : Bool) : NullFree (.bool b)
  | num (n : Number) : NullFree (.num n)
  | str (s : Bytes) : NullFree (.str s)
  | arr {items : List Json} (each : ∀ a ∈ items, NullFree a) : NullFree (.arr items)
  | obj {fields : List (Bytes × Json)} (each : ∀ f ∈ fields, NullFree f.2) : NullFree (.obj fields)

/-- The canonical text of a value, and the value it reads as. -/
structure Canonical (a : Json) (text : Bytes) (b : Json) : Prop where
  wrote : writeCanonicalJSON a = .ok text
  reads : Reads text b
  same : Same a b

theorem canonical_items {items : List Json} (each : ∀ a ∈ items, ∃ text b, Canonical a text b) :
    ∃ parts bs, writeItems items = .ok parts ∧ List.Forall₂ Reads parts bs ∧
      List.Forall₂ Same items bs := by
  induction items with
  | nil => exact ⟨[], [], rfl, .nil, .nil⟩
  | cons a rest ih =>
      obtain ⟨text, b, first⟩ := each a List.mem_cons_self
      obtain ⟨parts, bs, wrote, reads, same⟩ := ih (fun x inside => each x (List.mem_cons_of_mem _ inside))
      refine ⟨text :: parts, b :: bs, ?_, .cons first.reads reads, .cons first.same same⟩
      rw [writeItems, first.wrote, wrote]
      rfl

theorem canonical_fields {fields : List (Bytes × Json)}
    (each : ∀ f ∈ fields, ∃ text b, Canonical f.2 text b) :
    ∃ parts bs, writeFields fields = .ok parts ∧ List.Forall₂ Member parts bs ∧
      List.Forall₂ (fun f g => f.1 = g.1 ∧ Same f.2 g.2) fields bs := by
  induction fields with
  | nil => exact ⟨[], [], rfl, .nil, .nil⟩
  | cons f rest ih =>
      obtain ⟨key, a⟩ := f
      obtain ⟨text, b, first⟩ := each (key, a) List.mem_cons_self
      obtain ⟨parts, bs, wrote, reads, same⟩ := ih (fun x inside => each x (List.mem_cons_of_mem _ inside))
      refine ⟨(key, text) :: parts, (key, b) :: bs, ?_, .cons ⟨rfl, first.reads⟩ reads,
        .cons ⟨rfl, first.same⟩ same⟩
      rw [writeFields_cons, first.wrote, wrote]
      rfl

theorem canonical_object {fields : List (Bytes × Json)} (keys : (fields.map Prod.fst).Nodup)
    (each : ∀ f ∈ fields, ∃ text b, Canonical f.2 text b) :
    ∃ text b, Canonical (.obj fields) text b := by
  obtain ⟨parts, bs, wrote, reads, same⟩ := canonical_fields each
  -- the members are read in the order of their keys
  obtain ⟨sorted, sortedReads, perm⟩ := List.perm_comp_forall₂ (sortKeys_perm parts) reads
  have whole : Same (.obj fields) (.obj sorted) :=
    .trans (same_fields same []) (.reorder perm.symm)
  have keysRead : bs.map Prod.fst = fields.map Prod.fst := by
    clear wrote reads perm sortedReads whole keys each
    induction same with
    | nil => rfl
    | cons head _ ih => rw [List.map_cons, List.map_cons, ih, head.1]
  have sortedKeys : (sorted.map Prod.fst).Nodup := by
    rw [(perm.map Prod.fst).nodup_iff, keysRead]
    exact keys
  refine ⟨writeObject parts, .obj sorted, ?_, reads_members sortedReads sortedKeys, whole⟩
  rw [writeCanonicalJSON, wrote]
  rfl

theorem canonical_reads {a : Json} (free : NullFree a) (distinct : Distinct a) :
    ∃ text b, Canonical a text b := by
  induction free with
  | bool b =>
      cases b with
      | true => exact ⟨trueText, _, rfl, reads_bool true _ rfl, .refl _⟩
      | false => exact ⟨falseText, _, rfl, reads_bool false _ rfl, .refl _⟩
  | num n => exact ⟨n.text, _, rfl, reads_number n, .refl _⟩
  | str s => exact ⟨_, _, rfl, reads_string s, .refl _⟩
  | arr _ ih =>
      cases distinct with
      | arr each =>
          obtain ⟨parts, bs, wrote, reads, same⟩ :=
            canonical_items (fun a inside => ih a inside (each a inside))
          refine ⟨91 :: commas parts ++ [93], .arr bs, ?_, reads_array reads, same_items same []⟩
          rw [writeCanonicalJSON, wrote]
          rfl
  | obj _ ih =>
      cases distinct with
      | obj keys each => exact canonical_object keys (fun f inside => ih f inside (each f inside))

/-- The text is a text of that value alone. -/
theorem canonical_injective {a b : Json} (freeA : NullFree a) (freeB : NullFree b)
    (distinctA : Distinct a) (distinctB : Distinct b)
    (equal : writeCanonicalJSON a = writeCanonicalJSON b) : Same a b := by
  obtain ⟨text, a', first⟩ := canonical_reads freeA distinctA
  obtain ⟨text', b', second⟩ := canonical_reads freeB distinctB
  have texts : text = text' := by
    rw [first.wrote, second.wrote] at equal
    exact Except.ok.inj equal
  subst texts
  have one := first.reads.reads [] (text.length + 1) nofun (Nat.lt_succ_self _)
  have other := second.reads.reads [] (text.length + 1) nofun (Nat.lt_succ_self _)
  rw [one] at other
  obtain rfl : a' = b' := (Prod.mk.inj (Option.some.inj other)).1
  exact first.same.trans second.same.symm

/-! What is read has distinct keys. -/

theorem setField_keys (fields : List (Bytes × Json)) (f : Bytes × Json) :
    (setField fields f).map Prod.fst =
      if f.1 ∈ fields.map Prod.fst then fields.map Prod.fst else fields.map Prod.fst ++ [f.1] := by
  rw [setField]
  split
  · rw [List.map_map]
    apply List.map_congr_left
    intro old _
    rw [Function.comp_apply]
    split
    · rename_i same
      exact same.symm
    · rfl
  · rw [List.map_append, List.map_cons, List.map_nil]

theorem setField_mem {fields : List (Bytes × Json)} {f x : Bytes × Json}
    (inside : x ∈ setField fields f) : x ∈ fields ∨ x = f := by
  rw [setField] at inside
  split at inside
  · obtain ⟨old, listed, rfl⟩ := List.mem_map.mp inside
    split
    · exact .inr rfl
    · exact .inl listed
  · simpa using inside

theorem toMap_spec (before fields : List (Bytes × Json)) (keys : (before.map Prod.fst).Nodup) :
    ((fields.foldl setField before).map Prod.fst).Nodup ∧
      ∀ x ∈ fields.foldl setField before, x ∈ before ∨ x ∈ fields := by
  induction fields generalizing before with
  | nil => exact ⟨keys, fun x inside => .inl inside⟩
  | cons f rest ih =>
      have next : ((setField before f).map Prod.fst).Nodup := by
        rw [setField_keys]
        split
        · exact keys
        · rename_i fresh
          rw [List.nodup_append]
          refine ⟨keys, List.nodup_singleton _, ?_⟩
          rintro c old d last rfl
          exact fresh (List.mem_singleton.mp last ▸ old)
      obtain ⟨nodup, from_either⟩ := ih (setField before f) next
      refine ⟨nodup, fun x inside => ?_⟩
      obtain old | later := from_either x inside
      · obtain old | rfl := setField_mem old
        · exact .inl old
        · exact .inr List.mem_cons_self
      · exact .inr (List.mem_cons_of_mem _ later)

theorem toMap_object {fields : List (Bytes × Json)} (each : ∀ f ∈ fields, Distinct f.2) :
    Distinct (.obj (toMap fields)) := by
  obtain ⟨nodup, inside⟩ := toMap_spec [] fields List.nodup_nil
  refine .obj nodup (fun f listed => ?_)
  obtain none | old := inside f listed
  · cases none
  · exact each f old

theorem readScalar_distinct {text rest : Bytes} {a : Json}
    (read : readScalar text = some (a, rest)) : Distinct a := by
  have number : ∀ text, readNumber text = some (a, rest) → Distinct a := by
    intro text read
    rw [readNumber] at read
    split at read
    · obtain ⟨rfl, -⟩ := Prod.mk.inj (Option.some.inj read)
      exact .num _
    · cases read
  have string : ∀ {fuel text}, (readString fuel text).map (fun (s, rest) => (Json.str s, rest)) =
      some (a, rest) → Distinct a := by
    intro fuel text read
    obtain ⟨⟨s, left⟩, -, same⟩ := Option.map_eq_some_iff.mp read
    obtain ⟨rfl, -⟩ := Prod.mk.inj same
    exact .str _
  unfold readScalar at read
  split at read
  · obtain ⟨rfl, -⟩ := Prod.mk.inj (Option.some.inj read)
    exact .bool _
  split at read
  · obtain ⟨rfl, -⟩ := Prod.mk.inj (Option.some.inj read)
    exact .bool _
  split at read
  · obtain ⟨rfl, -⟩ := Prod.mk.inj (Option.some.inj read)
    exact .null
  cases text with
  | nil => cases read
  | cons c more =>
      simp only at read
      split at read
      · exact string read
      · exact number _ read

structure ReadDistinct (fuel : Nat) : Prop where
  value : ∀ text a rest, readValue fuel text = some (a, rest) → Distinct a
  items : ∀ text items rest, readItems fuel text = some (items, rest) → ∀ a ∈ items, Distinct a
  fields : ∀ text fields rest, readFields fuel text = some (fields, rest) →
    ∀ f ∈ fields, Distinct f.2

theorem readValue_distinct {fuel : Nat} (inner : ReadDistinct fuel) {text rest : Bytes} {a : Json}
    (read : readValue (fuel + 1) text = some (a, rest)) : Distinct a := by
  rw [readValue] at read
  cases skipped : skipSpace text with
  | nil =>
      rw [skipped] at read
      cases read
  | cons c more =>
      rw [skipped] at read
      simp only at read
      split at read
      · cases inside : skipSpace more with
        | nil =>
            rw [inside] at read
            cases read
        | cons d tail =>
            rw [inside] at read
            simp only at read
            split at read
            · obtain ⟨rfl, -⟩ := Prod.mk.inj (Option.some.inj read)
              exact .arr nofun
            · obtain ⟨⟨items, left⟩, got, same⟩ := Option.map_eq_some_iff.mp read
              obtain ⟨rfl, -⟩ := Prod.mk.inj same
              exact .arr (inner.items _ _ _ got)
      split at read
      · cases inside : skipSpace more with
        | nil =>
            rw [inside] at read
            cases read
        | cons d tail =>
            rw [inside] at read
            simp only at read
            split at read
            · obtain ⟨rfl, -⟩ := Prod.mk.inj (Option.some.inj read)
              exact .obj List.nodup_nil nofun
            · obtain ⟨⟨fields, left⟩, got, same⟩ := Option.map_eq_some_iff.mp read
              obtain ⟨rfl, -⟩ := Prod.mk.inj same
              exact toMap_object (inner.fields _ _ _ got)
      · exact readScalar_distinct read

theorem readItems_distinct {fuel : Nat} (inner : ReadDistinct fuel) {text rest : Bytes}
    {items : List Json} (read : readItems (fuel + 1) text = some (items, rest)) :
    ∀ a ∈ items, Distinct a := by
  rw [readItems] at read
  obtain ⟨⟨item, left⟩, first, read⟩ := Option.bind_eq_some_iff.mp read
  simp only at read
  have distinct := inner.value _ _ _ first
  cases skipped : skipSpace left with
  | nil =>
      rw [skipped] at read
      cases read
  | cons c more =>
      rw [skipped] at read
      simp only at read
      split at read
      · obtain ⟨⟨others, tail⟩, got, read⟩ := Option.bind_eq_some_iff.mp read
        simp only at read
        obtain ⟨rfl, -⟩ := Prod.mk.inj (Option.some.inj read)
        exact List.forall_mem_cons.mpr ⟨distinct, inner.items _ _ _ got⟩
      split at read
      · obtain ⟨rfl, -⟩ := Prod.mk.inj (Option.some.inj read)
        exact List.forall_mem_cons.mpr ⟨distinct, nofun⟩
      · cases read

theorem readFields_distinct {fuel : Nat} (inner : ReadDistinct fuel) {text rest : Bytes}
    {fields : List (Bytes × Json)} (read : readFields (fuel + 1) text = some (fields, rest)) :
    ∀ f ∈ fields, Distinct f.2 := by
  rw [readFields] at read
  cases skipped : skipSpace text with
  | nil =>
      rw [skipped] at read
      cases read
  | cons q more =>
      rw [skipped] at read
      simp only at read
      split at read
      · obtain ⟨⟨key, left⟩, -, read⟩ := Option.bind_eq_some_iff.mp read
        simp only at read
        cases colon : skipSpace left with
        | nil =>
            rw [colon] at read
            cases read
        | cons c value =>
            rw [colon] at read
            simp only at read
            split at read
            · obtain ⟨⟨a, left'⟩, first, read⟩ := Option.bind_eq_some_iff.mp read
              simp only at read
              have distinct := inner.value _ _ _ first
              cases ended : skipSpace left' with
              | nil =>
                  rw [ended] at read
                  cases read
              | cons d tail =>
                  rw [ended] at read
                  simp only at read
                  split at read
                  · obtain ⟨⟨others, left''⟩, got, read⟩ := Option.bind_eq_some_iff.mp read
                    simp only at read
                    obtain ⟨rfl, -⟩ := Prod.mk.inj (Option.some.inj read)
                    exact List.forall_mem_cons.mpr ⟨distinct, inner.fields _ _ _ got⟩
                  split at read
                  · obtain ⟨rfl, -⟩ := Prod.mk.inj (Option.some.inj read)
                    exact List.forall_mem_cons.mpr ⟨distinct, nofun⟩
                  · cases read
            · cases read
      · cases read

theorem read_distinct (fuel : Nat) : ReadDistinct fuel := by
  induction fuel with
  | zero =>
      refine ⟨fun _ _ _ read => ?_, fun _ _ _ read => ?_, fun _ _ _ read => ?_⟩
      · simp [readValue] at read
      · simp [readItems] at read
      · simp [readFields] at read
  | succ fuel ih =>
      exact ⟨fun _ _ _ read => readValue_distinct ih read,
        fun _ _ _ read => readItems_distinct ih read,
        fun _ _ _ read => readFields_distinct ih read⟩

theorem decode_distinct {raw : Bytes} {a : Json} (read : decode raw = some a) : Distinct a := by
  obtain ⟨⟨b, rest⟩, got, rfl⟩ := Option.map_eq_some_iff.mp read
  exact (read_distinct _).value _ _ _ got

theorem signed_distinct {raw : Bytes} {fields : List (Bytes × Json)}
    (read : decode raw = some (.obj fields)) : Distinct (.obj (signedFields fields)) := by
  cases decode_distinct read with
  | obj keys each =>
      refine .obj (keys.sublist (List.filter_sublist.map Prod.fst)) (fun f inside => ?_)
      exact each f (List.mem_of_mem_filter inside)

theorem canonicalJSONBytes_of_decode {raw : Bytes} {fields : List (Bytes × Json)}
    (read : decode raw = some (.obj fields)) (free : NullFree (.obj (signedFields fields))) :
    ∃ text, writeCanonicalJSON (.obj (signedFields fields)) = .ok text ∧
      canonicalJSONBytes raw = .ok text := by
  obtain ⟨text, b, canonical⟩ := canonical_reads free (signed_distinct read)
  refine ⟨text, canonical.wrote, ?_⟩
  simp [canonicalJSONBytes, read, canonicalJSON, canonical.wrote]

end ProxmoxBackup.CanonicalJson
