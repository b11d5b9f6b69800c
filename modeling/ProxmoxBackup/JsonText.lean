import Mathlib.Data.List.Basic
import Mathlib.Data.List.Nodup
import Mathlib.Data.List.Forall2

/-! JSON values and the text they are read from, as Go's `encoding/json` reads it with
numbers kept as they are written. A text is UTF-8; its limit on nesting is left out. -/
namespace ProxmoxBackup.JsonText

abbrev Bytes := List UInt8

def isDigit (c : UInt8) : Bool := 48 ≤ c && c ≤ 57

/-- Digits, signs, the point and the exponent's letter. -/
def isNumberByte (c : UInt8) : Bool :=
  isDigit c || c = 43 || c = 45 || c = 46 || c = 69 || c = 101

def exponentOk : Bytes → Bool
  | [] => true
  | e :: rest =>
      (e = 69 || e = 101) &&
        match (match rest with
          | sign :: more => if sign = 43 ∨ sign = 45 then more else rest
          | [] => rest) with
        | [] => false
        | digits => digits.all isDigit

def fractionOk : Bytes → Bool
  | point :: d :: rest =>
      if point = 46 then isDigit d && exponentOk (rest.dropWhile isDigit)
      else exponentOk (point :: d :: rest)
  | text => exponentOk text

def integerOk : Bytes → Bool
  | [] => false
  | d :: rest => if d = 48 then fractionOk rest else isDigit d && fractionOk (rest.dropWhile isDigit)

/-- The grammar of a number. -/
def isNumber (text : Bytes) : Bool :=
  text.all isNumberByte &&
    match text with
    | sign :: rest => if sign = 45 then integerOk rest else integerOk text
    | [] => false

/-- A `json.Number`: the number as it is written. -/
structure Number where
  text : Bytes
  valid : isNumber text = true
  deriving DecidableEq

/-- An object is a map: `Distinct` says that its keys differ. -/
inductive Json where
  | null
  | bool (b : Bool)
  | num (n : Number)
  | str (s : Bytes)
  | arr (items : List Json)
  | obj (fields : List (Bytes × Json))

inductive Distinct : Json → Prop where
  | null : Distinct .null
  | bool (b : Bool) : Distinct (.bool b)
  | num (n : Number) : Distinct (.num n)
  | str (s : Bytes) : Distinct (.str s)
  | arr {items : List Json} (each : ∀ a ∈ items, Distinct a) : Distinct (.arr items)
  | obj {fields : List (Bytes × Json)} (keys : (fields.map Prod.fst).Nodup)
      (each : ∀ f ∈ fields, Distinct f.2) : Distinct (.obj fields)

/-- The same value: members in another order, at any depth. -/
inductive Same : Json → Json → Prop where
  | refl (a : Json) : Same a a
  | trans {a b c : Json} (first : Same a b) (second : Same b c) : Same a c
  | reorder {fields fields' : List (Bytes × Json)} (perm : fields.Perm fields') :
      Same (.obj fields) (.obj fields')
  | item {a b : Json} (before after : List Json) (same : Same a b) :
      Same (.arr (before ++ a :: after)) (.arr (before ++ b :: after))
  | field {a b : Json} (before after : List (Bytes × Json)) (key : Bytes) (same : Same a b) :
      Same (.obj (before ++ (key, a) :: after)) (.obj (before ++ (key, b) :: after))

theorem Same.symm {a b : Json} (same : Same a b) : Same b a := by
  induction same with
  | refl a => exact .refl a
  | trans _ _ first second => exact .trans second first
  | reorder perm => exact .reorder perm.symm
  | item before after _ ih => exact .item before after ih
  | field before after key _ ih => exact .field before after key ih

theorem same_items {items items' : List Json} (each : List.Forall₂ Same items items')
    (before : List Json) : Same (.arr (before ++ items)) (.arr (before ++ items')) := by
  induction each generalizing before with
  | nil => exact .refl _
  | @cons a b rest rest' same _ ih =>
      have tail := ih (before ++ [b])
      rw [List.append_assoc, List.append_assoc] at tail
      exact .trans (.item before rest same) tail

theorem same_fields {fields fields' : List (Bytes × Json)}
    (each : List.Forall₂ (fun f g => f.1 = g.1 ∧ Same f.2 g.2) fields fields')
    (before : List (Bytes × Json)) : Same (.obj (before ++ fields)) (.obj (before ++ fields')) := by
  induction each generalizing before with
  | nil => exact .refl _
  | @cons f g rest rest' same _ ih =>
      obtain ⟨key, a⟩ := f
      obtain ⟨key', b⟩ := g
      obtain ⟨rfl, same⟩ := same
      have tail := ih (before ++ [(key, b)])
      rw [List.append_assoc, List.append_assoc] at tail
      exact .trans (.field before rest key same) tail

/-! Reading. -/

def isSpace (c : UInt8) : Bool := c = 32 || c = 9 || c = 10 || c = 13

def skipSpace (text : Bytes) : Bytes := text.dropWhile isSpace

def hexValue (c : UInt8) : Option Nat :=
  if 48 ≤ c ∧ c ≤ 57 then some (c.toNat - 48)
  else if 97 ≤ c ∧ c ≤ 102 then some (c.toNat - 87)
  else if 65 ≤ c ∧ c ≤ 70 then some (c.toNat - 55)
  else none

def hex4 (a b c d : UInt8) : Option Nat := do
  let a ← hexValue a
  let b ← hexValue b
  let c ← hexValue c
  let d ← hexValue d
  return ((a * 16 + b) * 16 + c) * 16 + d

def utf8 (point : Nat) : Bytes := String.utf8EncodeChar (Char.ofNat point)

def isSurrogate (unit : Nat) : Bool := 0xD800 ≤ unit && unit < 0xE000

/-- The unit of an escape that follows, when it is a low surrogate. -/
def lowSurrogate : Bytes → Option (Nat × Bytes)
  | s :: u :: a :: b :: c :: d :: rest =>
      if s = 92 ∧ u = 117 then
        match hex4 a b c d with
        | some unit => if 0xDC00 ≤ unit ∧ unit < 0xE000 then some (unit, rest) else none
        | none => none
      else none
  | _ => none

def simpleEscape (c : UInt8) : Option UInt8 :=
  if c = 34 ∨ c = 92 ∨ c = 47 then some c
  else if c = 98 then some 8
  else if c = 102 then some 12
  else if c = 110 then some 10
  else if c = 114 then some 13
  else if c = 116 then some 9
  else none

/-- The rest of a string behind its opening quote. A surrogate without its pair reads as
U+FFFD. -/
def readString : Nat → Bytes → Option (Bytes × Bytes)
  | 0, _ => none
  | _, [] => none
  | fuel + 1, c :: rest =>
      if c = 34 then some ([], rest)
      else if c = 92 then
        match rest with
        | [] => none
        | e :: rest =>
            if e = 117 then
              match rest with
              | h1 :: h2 :: h3 :: h4 :: rest => do
                  let unit ← hex4 h1 h2 h3 h4
                  if isSurrogate unit then
                    match (if unit < 0xDC00 then lowSurrogate rest else none) with
                    | some (low, rest) =>
                        let (s, rest) ← readString fuel rest
                        return (utf8 (0x10000 + (unit - 0xD800) * 0x400 + (low - 0xDC00)) ++ s, rest)
                    | none =>
                        let (s, rest) ← readString fuel rest
                        return (utf8 0xFFFD ++ s, rest)
                  else
                    let (s, rest) ← readString fuel rest
                    return (utf8 unit ++ s, rest)
              | _ => none
            else do
              let plain ← simpleEscape e
              let (s, rest) ← readString fuel rest
              return (plain :: s, rest)
      else if c < 32 then none
      else do
        let (s, rest) ← readString fuel rest
        return (c :: s, rest)

def readNumber (text : Bytes) : Option (Json × Bytes) :=
  let token := text.takeWhile isNumberByte
  if valid : isNumber token = true then some (.num ⟨token, valid⟩, text.dropWhile isNumberByte)
  else none

def trueText : Bytes := [116, 114, 117, 101]
def falseText : Bytes := [102, 97, 108, 115, 101]
def nullText : Bytes := [110, 117, 108, 108]

/-- A word, a string or a number. -/
def readScalar (text : Bytes) : Option (Json × Bytes) :=
  if trueText.isPrefixOf text then some (.bool true, text.drop 4)
  else if falseText.isPrefixOf text then some (.bool false, text.drop 5)
  else if nullText.isPrefixOf text then some (.null, text.drop 4)
  else
    match text with
    | [] => none
    | c :: rest =>
        if c = 34 then (readString text.length rest).map fun (s, rest) => (.str s, rest)
        else readNumber text

/-- A map assignment: the value of a key that is there already is replaced. -/
def setField (fields : List (Bytes × Json)) (f : Bytes × Json) : List (Bytes × Json) :=
  if f.1 ∈ fields.map Prod.fst then
    fields.map fun old => if old.1 = f.1 then f else old
  else fields ++ [f]

def toMap (fields : List (Bytes × Json)) : List (Bytes × Json) := fields.foldl setField []

mutual

def readValue : Nat → Bytes → Option (Json × Bytes)
  | 0, _ => none
  | fuel + 1, text =>
      match skipSpace text with
      | [] => none
      | c :: rest =>
          if c = 91 then
            match skipSpace rest with
            | [] => none
            | d :: more =>
                if d = 93 then some (.arr [], more)
                else (readItems fuel (d :: more)).map fun (items, rest) => (.arr items, rest)
          else if c = 123 then
            match skipSpace rest with
            | [] => none
            | d :: more =>
                if d = 125 then some (.obj [], more)
                else (readFields fuel (d :: more)).map fun (fields, rest) =>
                  (.obj (toMap fields), rest)
          else readScalar (c :: rest)

def readItems : Nat → Bytes → Option (List Json × Bytes)
  | 0, _ => none
  | fuel + 1, text => do
      let (item, rest) ← readValue fuel text
      match skipSpace rest with
      | [] => none
      | c :: rest =>
          if c = 44 then do
            let (items, rest) ← readItems fuel rest
            return (item :: items, rest)
          else if c = 93 then some ([item], rest)
          else none

def readFields : Nat → Bytes → Option (List (Bytes × Json) × Bytes)
  | 0, _ => none
  | fuel + 1, text =>
      match skipSpace text with
      | [] => none
      | q :: rest =>
          if q = 34 then do
            let (key, rest) ← readString (rest.length + 1) rest
            match skipSpace rest with
            | [] => none
            | colon :: rest =>
                if colon = 58 then do
                  let (value, rest) ← readValue fuel rest
                  match skipSpace rest with
                  | [] => none
                  | c :: rest =>
                      if c = 44 then do
                        let (fields, rest) ← readFields fuel rest
                        return ((key, value) :: fields, rest)
                      else if c = 125 then some ([(key, value)], rest)
                      else none
                else none
          else none

end

/-- The first value of a text; what follows it is not read. -/
def decode (text : Bytes) : Option Json := (readValue (text.length + 1) text).map Prod.fst

end ProxmoxBackup.JsonText
