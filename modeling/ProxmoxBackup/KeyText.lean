import ProxmoxBackup.KeyFile

/-! The text of a key as it comes from a file, a QR code or the keyboard (gui/key_import.go,
parseKeyText). A text is UTF-8. -/
namespace ProxmoxBackup.KeyText

open JsonText IndentedJson KeyFile

/-- strings.TrimSpace's white space in ASCII. -/
def asciiSpace (c : UInt8) : Bool := (9 ≤ c && c ≤ 13) || c = 32

/-- White space of three bytes. -/
def wideSpace (a b c : UInt8) : Bool :=
  (a = 225 && b = 154 && c = 128) ||
    (a = 226 && b = 128 && ((128 ≤ c && c ≤ 138) || c = 168 || c = 169 || c = 175)) ||
    (a = 226 && b = 129 && c = 159) || (a = 227 && b = 128 && c = 128)

/-- How many bytes of white space a text starts with, at its first character. -/
def spaceFront (text : Bytes) : Nat :=
  if asciiSpace (text.getD 0 0) then 1
  else if text.getD 0 0 = 194 && (text.getD 1 0 = 133 || text.getD 1 0 = 160) then 2
  else if wideSpace (text.getD 0 0) (text.getD 1 0) (text.getD 2 0) then 3
  else 0

/-- The same for its last character; the text is reversed. -/
def spaceBack (text : Bytes) : Nat :=
  if asciiSpace (text.getD 0 0) then 1
  else if text.getD 1 0 = 194 && (text.getD 0 0 = 133 || text.getD 0 0 = 160) then 2
  else if wideSpace (text.getD 2 0) (text.getD 1 0) (text.getD 0 0) then 3
  else 0

def strip (width : Bytes → Nat) : Nat → Bytes → Bytes
  | 0, text => text
  | n + 1, text => if width text = 0 then text else strip width n (text.drop (width text))

def trimSpace (text : Bytes) : Bytes :=
  let left := strip spaceFront text.length text
  (strip spaceBack left.length left.reverse).reverse

/-- strings.Join(strings.Fields(text), ""). -/
def squeezeFrom : Nat → Bytes → Bytes
  | 0, _ => []
  | _, [] => []
  | n + 1, c :: rest =>
      if spaceFront (c :: rest) = 0 then c :: squeezeFrom n rest
      else squeezeFrom n ((c :: rest).drop (spaceFront (c :: rest)))

def squeeze (text : Bytes) : Bytes := squeezeFrom text.length text

def stripUTF8BOM (text : Bytes) : Bytes :=
  if [239, 187, 191].isPrefixOf text then text.drop 3 else text

/-- What stands before and behind the first place of a marker. -/
def cut (marker : Bytes) : Bytes → Option (Bytes × Bytes)
  | [] => none
  | c :: rest =>
      if marker.isPrefixOf (c :: rest) then some ([], (c :: rest).drop marker.length)
      else (cut marker rest).map fun (before, behind) => (c :: before, behind)

def keyBeginMarker : Bytes := ascii "-----BEGIN PROXMOX BACKUP KEY-----"
def keyEndMarker : Bytes := ascii "-----END PROXMOX BACKUP KEY-----"
def keyImportMaxFile : Nat := 65536

inductive KeyError where
  | noEndLine
  | noText
  | tooLong
  | noBrace
  | notJSON
  | noData
  | badData
  | badLength
  | badFingerprint
  | badSalt
  | badSettings
  deriving DecidableEq

/-- The text between the marker lines, or the whole of one that has none. -/
def content (s : Bytes) : Except KeyError Bytes :=
  let s := trimSpace (stripUTF8BOM s)
  match cut keyBeginMarker s with
  | none => .ok s
  | some (_, rest) =>
      match cut keyEndMarker rest with
      | none => .error .noEndLine
      | some (inner, _) => .ok (trimSpace inner)

/-- Every CR LF as LF. -/
def newlines : Bytes → Bytes
  | a :: b :: rest => if a = 13 ∧ b = 10 then 10 :: newlines rest else a :: newlines (b :: rest)
  | text => text

/-- Curly and angle quotes as ", a non-breaking space as a blank. -/
def tidyQuotes : Bytes → Bytes
  | a :: b :: c :: rest =>
      if a = 226 ∧ b = 128 ∧ (c = 156 ∨ c = 157 ∨ c = 158) then 34 :: tidyQuotes rest
      else if a = 194 ∧ (b = 171 ∨ b = 187) then 34 :: tidyQuotes (c :: rest)
      else if a = 194 ∧ b = 160 then 32 :: tidyQuotes (c :: rest)
      else a :: tidyQuotes (b :: c :: rest)
  | [a, b] =>
      if a = 194 ∧ (b = 171 ∨ b = 187) then [34] else if a = 194 ∧ b = 160 then [32] else [a, b]
  | text => text

def readKey (text : Bytes) : Except KeyError (Bytes × KeyConfig) :=
  match unmarshal text with
  | some cfg => .ok (text, cfg)
  | none =>
      let text := tidyQuotes text
      if text.head? ≠ some 123 then .error .noBrace
      else
        match unmarshal text with
        | some cfg => .ok (text, cfg)
        | none => .error .notJSON

/-- strings.ToLower; no other letter becomes part of a fingerprint. -/
def lowerByte (c : UInt8) : UInt8 := if 65 ≤ c ∧ c ≤ 90 then c + 32 else c

def colons : Bytes → Bytes
  | a :: b :: c :: rest => a :: b :: 58 :: colons (c :: rest)
  | text => text

def tidyFingerprint (fingerprint : Bytes) : Bytes :=
  let fp := (squeeze fingerprint).map lowerByte
  if fp.length = 64 ∧ fp.contains 58 = false then colons fp else fp

/-- The key with its data, fingerprint and salt tidied. -/
def tidied (cfg : KeyConfig) : KeyConfig :=
  { cfg with
    Data := squeeze cfg.Data
    Fingerprint := tidyFingerprint cfg.Fingerprint
    KDF := cfg.KDF.map fun k => { k with Salt := squeeze k.Salt } }

def sextet (c : UInt8) : Option Nat :=
  if 65 ≤ c ∧ c ≤ 90 then some (c.toNat - 65)
  else if 97 ≤ c ∧ c ≤ 122 then some (c.toNat - 71)
  else if 48 ≤ c ∧ c ≤ 57 then some (c.toNat + 4)
  else if c = 43 then some 62
  else if c = 47 then some 63
  else none

/-- How many bytes base64.StdEncoding.Strict() decodes a text without line ends to. -/
def decodedLength : Bytes → Option Nat
  | [] => some 0
  | a :: b :: c :: d :: rest =>
      if d = 61 ∧ rest = [] then
        if c = 61 then do
          let _ ← sextet a
          let y ← sextet b
          if y % 16 = 0 then some 1 else none
        else do
          let _ ← sextet a
          let _ ← sextet b
          let z ← sextet c
          if z % 4 = 0 then some 2 else none
      else do
        let _ ← sextet a
        let _ ← sextet b
        let _ ← sextet c
        let _ ← sextet d
        let n ← decodedLength rest
        some (n + 3)
  | _ => none

def splitColons : Bytes → List Bytes
  | [] => [[]]
  | c :: rest =>
      if c = 58 then [] :: splitColons rest
      else
        match splitColons rest with
        | [] => [[c]]
        | part :: parts => (c :: part) :: parts

/-- pbscommon.ParseFingerprint succeeds. -/
def parseFingerprint (fp : Bytes) : Bool :=
  (splitColons fp).length = 32 &&
    (splitColons fp).all fun part => part.length = 2 && part.all fun c => (hexValue c).isSome

def settingsOk (k : KeyDerivationConfig) : Bool :=
  k.N ≤ 2 ^ 20 && k.R ≤ 32 && k.P ≤ 16 && k.Iter ≤ 10000000

def checkKDF : Option KeyDerivationConfig → Except KeyError Unit
  | none => .ok ()
  | some k =>
      if (decodedLength k.Salt).isNone then .error .badSalt
      else if settingsOk k then .ok ()
      else .error .badSettings

/-- The checks on a key that was tidied. -/
def check (cfg : KeyConfig) : Except KeyError Unit :=
  if cfg.Data = [] then .error .noData
  else
    match decodedLength cfg.Data with
    | none => .error .badData
    | some n =>
        if cfg.KDF = none ∧ n ≠ 32 then .error .badLength
        else if cfg.Fingerprint ≠ [] ∧ !parseFingerprint cfg.Fingerprint then .error .badFingerprint
        else checkKDF cfg.KDF

/-- The text to save: as it was, or written out again when something was tidied. -/
def savedText (text : Bytes) (cfg : KeyConfig) : Bytes :=
  if tidied cfg = cfg then text else marshalIndent (tidied cfg)

def finish (text : Bytes) (cfg : KeyConfig) : Except KeyError (Bytes × KeyConfig) := do
  check (tidied cfg)
  return (savedText text cfg ++ [10], tidied cfg)

def parseKeyText (s : Bytes) : Except KeyError (Bytes × KeyConfig) := do
  let u ← content s
  if u = [] then .error .noText
  else if u.length > keyImportMaxFile then .error .tooLong
  else do
    let (text, cfg) ← readKey (newlines u)
    finish text cfg

/-! White space. -/

theorem every_byte {p : UInt8 → Prop} (all : ∀ n : Fin 256, p (UInt8.ofNat n)) (c : UInt8) : p c := by
  have here := all ⟨c.toNat, c.toNat_lt⟩
  rwa [UInt8.ofNat_toNat] at here

theorem strip_zero {width : Bytes → Nat} {text : Bytes} (none_left : width text = 0) (n : Nat) :
    strip width n text = text := by
  cases n with
  | zero => rfl
  | succ n => rw [strip, if_pos none_left]

theorem strip_ends {width : Bytes → Nat} (empty : width [] = 0) (n : Nat) (text : Bytes)
    (enough : text.length ≤ n) : width (strip width n text) = 0 := by
  induction n generalizing text with
  | zero =>
      obtain rfl := List.eq_nil_of_length_eq_zero (Nat.le_zero.mp enough)
      exact empty
  | succ n ih =>
      rw [strip]
      split
      · assumption
      · rename_i more
        apply ih
        rw [List.length_drop]
        omega

theorem strip_suffix (width : Bytes → Nat) (n : Nat) (text : Bytes) :
    strip width n text <:+ text := by
  induction n generalizing text with
  | zero => exact List.suffix_rfl
  | succ n ih =>
      rw [strip]
      split
      · exact List.suffix_rfl
      · exact (ih _).trans (List.drop_suffix _ _)

theorem trimSpace_front {text rest : Bytes} {c : UInt8} (trimmed : trimSpace text = c :: rest) :
    asciiSpace c = false := by
  have ended := @strip_ends spaceFront rfl text.length text (Nat.le_refl _)
  have part := strip_suffix spaceBack (strip spaceFront text.length text).length
    (strip spaceFront text.length text).reverse
  have front := List.reverse_prefix.mpr part
  rw [List.reverse_reverse] at front
  change trimSpace text <+: _ at front
  rw [trimmed] at front
  obtain ⟨more, whole⟩ := front
  rw [← whole] at ended
  unfold spaceFront at ended
  split at ended
  · cases ended
  · rename_i solid
    simpa using solid

theorem trimSpace_back {text rest : Bytes} {c : UInt8} (trimmed : trimSpace text = rest ++ [c]) :
    asciiSpace c = false ∧ ¬ (c = 160 ∧ rest.getLast? = some 194) := by
  have ended := @strip_ends spaceBack rfl _ (strip spaceFront text.length text).reverse
    (List.length_reverse.le)
  have same : strip spaceBack (strip spaceFront text.length text).length
      (strip spaceFront text.length text).reverse = c :: rest.reverse := by
    rw [← List.reverse_reverse (strip spaceBack _ _)]
    change (trimSpace text).reverse = _
    rw [trimmed, List.reverse_append]
    rfl
  rw [same] at ended
  unfold spaceBack at ended
  split at ended
  · cases ended
  · rename_i solid
    split at ended
    · cases ended
    · rename_i narrow
      refine ⟨by simpa using solid, ?_⟩
      rintro ⟨rfl, last⟩
      apply narrow
      obtain ⟨front, rfl⟩ := List.getLast?_eq_some_iff.mp last
      simp

theorem newlines_short {text : Bytes} (short : ∀ a b rest, text = a :: b :: rest → False) :
    newlines text = text := by
  match text, short with
  | [], _ => rfl
  | [_], _ => rfl
  | a :: b :: rest, short => exact absurd rfl (short a b rest)

theorem newlines_snoc (text : Bytes) {c : UInt8} (other : c ≠ 10) :
    newlines (text ++ [c]) = newlines text ++ [c] := by
  induction text using newlines.induct with
  | case1 a b rest pair ih =>
      rw [List.cons_append, List.cons_append, newlines, if_pos pair, newlines, if_pos pair, ih]
      rfl
  | case2 a b rest alone ih =>
      rw [List.cons_append, List.cons_append, newlines, if_neg alone, newlines, if_neg alone,
        ← List.cons_append, ih]
      rfl
  | case3 text short =>
      match text, short with
      | [], _ => rfl
      | [a], _ => simp [newlines, other]
      | a :: b :: rest, short => exact absurd rfl (short a b rest)

theorem newlines_last (text : Bytes) : (newlines text).getLast? = text.getLast? := by
  induction text using newlines.induct with
  | case1 a b rest pair ih =>
      rw [newlines, if_pos pair, pair.2]
      cases rest with
      | nil => rfl
      | cons c rest =>
          rw [List.getLast?_cons_cons, List.getLast?_cons_cons, ← ih, List.getLast?_cons]
          have some_left : (newlines (c :: rest)).getLast? ≠ none := by rw [ih]; simp
          cases found : (newlines (c :: rest)).getLast? with
          | none => exact absurd found some_left
          | some d => rfl
  | case2 a b rest alone ih =>
      rw [newlines, if_neg alone, List.getLast?_cons_cons, ← ih, List.getLast?_cons]
      have some_left : (newlines (b :: rest)).getLast? ≠ none := by rw [ih]; simp
      cases found : (newlines (b :: rest)).getLast? with
      | none => exact absurd found some_left
      | some d => rfl
  | case3 text short => rw [newlines_short short]

theorem newlines_front {c : UInt8} {rest : Bytes} (other : c ≠ 13) :
    ∃ more, newlines (c :: rest) = c :: more := by
  cases rest with
  | nil => exact ⟨[], rfl⟩
  | cons d rest => exact ⟨newlines (d :: rest), by rw [newlines, if_neg fun pair => other pair.1]⟩

theorem newlines_length (text : Bytes) : (newlines text).length ≤ text.length := by
  induction text using newlines.induct with
  | case1 a b rest pair ih =>
      rw [newlines, if_pos pair]
      simp only [List.length_cons]
      omega
  | case2 a b rest alone ih =>
      rw [newlines, if_neg alone]
      simp only [List.length_cons] at ih ⊢
      omega
  | case3 text short => rw [newlines_short short]

theorem tidyQuotes_some {c : UInt8} {rest : Bytes} : tidyQuotes (c :: rest) ≠ [] := by
  match rest with
  | [] => simp [tidyQuotes]
  | [b] =>
      rw [tidyQuotes]
      repeat' split
      all_goals simp
  | b :: d :: rest =>
      rw [tidyQuotes]
      repeat' split
      all_goals simp

theorem last_cons {x d : UInt8} {l : Bytes} (last : (x :: l).getLast? = some d) :
    (l = [] ∧ d = x) ∨ l.getLast? = some d := by
  cases l with
  | nil => exact .inl ⟨rfl, (Option.some.inj last).symm⟩
  | cons y l =>
      rw [List.getLast?_cons_cons] at last
      exact .inr last

/-- A blank at the end was there, or was a non-breaking space. -/
def Ended (text : Bytes) (d : UInt8) : Prop :=
  text.getLast? = some d ∨ ∃ front, text = front ++ [194, 160]

theorem Ended.behind {text : Bytes} {d : UInt8} (ended : Ended text d) (front : Bytes) :
    Ended (front ++ text) d := by
  rcases ended with last | ⟨more, rfl⟩
  · obtain ⟨init, rfl⟩ := List.getLast?_eq_some_iff.mp last
    exact .inl (by rw [← List.append_assoc, List.getLast?_concat])
  · exact .inr ⟨front ++ more, (List.append_assoc _ _ _).symm⟩

theorem tidyQuotes_last (text : Bytes) {d : UInt8} (last : (tidyQuotes text).getLast? = some d)
    (space : isSpace d = true) : Ended text d := by
  have quote : isSpace 34 = false := by decide
  induction text using tidyQuotes.induct with
  | case1 a b c rest curly ih =>
      rw [tidyQuotes, if_pos curly] at last
      obtain ⟨-, rfl⟩ | later := last_cons last
      · exact absurd space (by decide)
      · exact (ih later).behind [a, b, c]
  | case2 a b c rest other angle ih =>
      rw [tidyQuotes, if_neg other, if_pos angle] at last
      obtain ⟨-, rfl⟩ | later := last_cons last
      · exact absurd space (by decide)
      · exact (ih later).behind [a, b]
  | case3 a b c rest other plain blank ih =>
      rw [tidyQuotes, if_neg other, if_neg plain, if_pos blank] at last
      obtain ⟨none_left, -⟩ | later := last_cons last
      · exact absurd none_left tidyQuotes_some
      · exact (ih later).behind [a, b]
  | case4 a b c rest other plain solid ih =>
      rw [tidyQuotes, if_neg other, if_neg plain, if_neg solid] at last
      obtain ⟨none_left, -⟩ | later := last_cons last
      · exact absurd none_left tidyQuotes_some
      · exact (ih later).behind [a]
  | case5 a b angle =>
      rw [tidyQuotes, if_pos angle] at last
      obtain rfl := Option.some.inj last
      exact absurd space (by decide)
  | case6 a b other blank =>
      obtain ⟨rfl, rfl⟩ := blank
      exact .inr ⟨[], rfl⟩
  | case7 a b other solid =>
      rw [tidyQuotes, if_neg other, if_neg solid] at last
      exact .inl last
  | case8 text long short =>
      match text, long, short with
      | [], _, _ => cases last
      | [a], _, _ => exact .inl last
      | [a, b], _, short => exact absurd rfl (short a b)
      | a :: b :: c :: rest, long, _ => exact absurd rfl (long a b c rest)

theorem tidyQuotes_length (text : Bytes) : (tidyQuotes text).length ≤ text.length := by
  induction text using tidyQuotes.induct with
  | case1 a b c rest curly ih =>
      rw [tidyQuotes, if_pos curly]
      simp only [List.length_cons]
      omega
  | case2 a b c rest other angle ih =>
      rw [tidyQuotes, if_neg other, if_pos angle]
      simp only [List.length_cons] at ih ⊢
      omega
  | case3 a b c rest other plain blank ih =>
      rw [tidyQuotes, if_neg other, if_neg plain, if_pos blank]
      simp only [List.length_cons] at ih ⊢
      omega
  | case4 a b c rest other plain solid ih =>
      rw [tidyQuotes, if_neg other, if_neg plain, if_neg solid]
      simp only [List.length_cons] at ih ⊢
      omega
  | case5 a b angle => simp [tidyQuotes, angle]
  | case6 a b other blank => simp [tidyQuotes, blank]
  | case7 a b other solid => rw [tidyQuotes, if_neg other, if_neg solid]
  | case8 text long short =>
      match text, long, short with
      | [], _, _ => exact Nat.le_refl _
      | [a], _, _ => exact Nat.le_refl _
      | [a, b], _, short => exact absurd rfl (short a b)
      | a :: b :: c :: rest, long, _ => exact absurd rfl (long a b c rest)

/-! Texts that are one object. -/

theorem space_ascii {c : UInt8} (solid : asciiSpace c = false) : isSpace c = false := by
  have all : ∀ n : Fin 256, asciiSpace (UInt8.ofNat n) = false → isSpace (UInt8.ofNat n) = false := by
    decide +kernel
  exact every_byte (p := fun c => asciiSpace c = false → isSpace c = false) all c solid

/-- A text in braces, with nothing around them. -/
structure Braced (text : Bytes) : Prop where
  first : text.head? = some 123
  last : text.getLast? = some 125

theorem braced_of_object {text : Bytes} {fields : List (Bytes × Json)}
    (read : readObject text = some fields) (front : ∀ c ∈ text.head?, isSpace c = false)
    (back : ∀ c ∈ text.getLast?, isSpace c = false) : Braced text := by
  have bare (t : Bytes) (solid : ∀ c ∈ t.head?, isSpace c = false) : skipSpace t = t := by
    cases t with
    | nil => rfl
    | cons c t => exact CanonicalJson.skipSpace_cons (solid c rfl)
  unfold readObject at read
  rw [bare text front, bare text.reverse (by rwa [List.head?_reverse])] at read
  cases text with
  | nil => cases read
  | cons c rest =>
      dsimp only at read
      split at read
      · rename_i braces
        refine ⟨congrArg some braces.1, ?_⟩
        rw [← List.head?_reverse]
        exact braces.2
      · cases read

theorem trimSpace_braced {text : Bytes} (braced : Braced text) :
    trimSpace (stripUTF8BOM (text ++ [10])) = text := by
  obtain ⟨rest, rfl⟩ := List.head?_eq_some_iff.mp braced.first
  obtain ⟨front, whole⟩ := List.getLast?_eq_some_iff.mp braced.last
  have noBOM : stripUTF8BOM (123 :: rest ++ [10]) = 123 :: rest ++ [10] := by
    simp [stripUTF8BOM]
  have open_ : spaceFront (123 :: rest ++ [10]) = 0 := by
    simp [spaceFront, asciiSpace, wideSpace]
  have close_ : spaceBack (125 :: front.reverse) = 0 := by
    simp [spaceBack, asciiSpace, wideSpace]
  have turned : (123 :: rest ++ [10]).reverse = 10 :: 125 :: front.reverse := by
    rw [whole]
    simp
  rw [noBOM]
  unfold trimSpace
  dsimp only
  rw [strip_zero open_, turned, List.length_append, List.length_singleton, strip]
  have line : spaceBack (10 :: 125 :: front.reverse) = 1 := by simp [spaceBack, asciiSpace]
  rw [if_neg (by rw [line]; decide), line, List.drop_one, List.tail_cons, strip_zero close_, whole]
  simp

/-! A tidied key is left as it is. -/

/-- An ASCII byte that is no white space. -/
def Plain (c : UInt8) : Prop := c < 128 ∧ asciiSpace c = false

instance (c : UInt8) : Decidable (Plain c) := inferInstanceAs (Decidable (_ ∧ _))

theorem sextet_plain {c : UInt8} {v : Nat} (read : sextet c = some v) : Plain c := by
  have all : ∀ n : Fin 256, (sextet (UInt8.ofNat n)).isSome → Plain (UInt8.ofNat n) := by
    decide +kernel
  exact every_byte (p := fun c => (sextet c).isSome → Plain c) all c (by rw [read]; rfl)

theorem hex_plain {c : UInt8} (read : (hexValue c).isSome) : Plain c := by
  have all : ∀ n : Fin 256, (hexValue (UInt8.ofNat n)).isSome → Plain (UInt8.ofNat n) := by
    decide +kernel
  exact every_byte (p := fun c => (hexValue c).isSome → Plain c) all c read

theorem lowerByte_again (c : UInt8) : lowerByte (lowerByte c) = lowerByte c :=
  every_byte (p := fun c => lowerByte (lowerByte c) = lowerByte c) (by decide +kernel) c

theorem plain_front {c : UInt8} (plain : Plain c) (rest : Bytes) : spaceFront (c :: rest) = 0 := by
  obtain ⟨small, solid⟩ := plain
  have below : c.toNat < 128 := UInt8.lt_iff_toNat_lt.mp small
  have other (d : UInt8) (large : 128 ≤ d.toNat) : c ≠ d := by
    rintro rfl
    omega
  simp [spaceFront, solid, wideSpace, other 194 (by decide), other 225 (by decide),
    other 226 (by decide), other 227 (by decide)]

theorem squeeze_plain {text : Bytes} (plain : ∀ c ∈ text, Plain c) : squeeze text = text := by
  unfold squeeze
  induction text with
  | nil => rfl
  | cons c rest ih =>
      rw [List.length_cons, squeezeFrom, if_pos (plain_front (plain c List.mem_cons_self) rest),
        ih fun d later => plain d (List.mem_cons_of_mem _ later)]

theorem decodedLength_plain : ∀ (text : Bytes) {n : Nat}, decodedLength text = some n →
    ∀ c ∈ text, Plain c
  | [], _, _ => nofun
  | [_], _, read | [_, _], _, read | [_, _, _], _, read => by cases read
  | a :: b :: c :: d :: rest, n, read => by
      have pad : Plain 61 := by decide
      unfold decodedLength at read
      split at read
      · rename_i last
        obtain ⟨rfl, rfl⟩ := last
        split at read
        · rename_i two
          subst two
          simp only [Option.bind_eq_bind, Option.bind_eq_some_iff] at read
          obtain ⟨_, first, _, second, -⟩ := read
          simp [sextet_plain first, sextet_plain second, pad]
        · simp only [Option.bind_eq_bind, Option.bind_eq_some_iff] at read
          obtain ⟨_, first, _, second, _, third, -⟩ := read
          simp [sextet_plain first, sextet_plain second, sextet_plain third, pad]
      · simp only [Option.bind_eq_bind, Option.bind_eq_some_iff] at read
        obtain ⟨_, first, _, second, _, third, _, fourth, _, others, -⟩ := read
        have later := decodedLength_plain rest others
        simp only [List.forall_mem_cons]
        exact ⟨sextet_plain first, sextet_plain second, sextet_plain third, sextet_plain fourth, later⟩

theorem mem_colons {c : UInt8} {text : Bytes} (listed : c ∈ colons text) : c = 58 ∨ c ∈ text := by
  induction text using colons.induct with
  | case1 a b d rest ih =>
      rw [colons] at listed
      simp only [List.mem_cons] at listed ih ⊢
      rcases listed with rfl | rfl | rfl | later
      · exact .inr (.inl rfl)
      · exact .inr (.inr (.inl rfl))
      · exact .inl rfl
      · rcases ih later with rfl | here
        · exact .inl rfl
        · exact .inr (.inr (.inr here))
  | case2 text short =>
      match text, short with
      | [], _ => exact .inr listed
      | [a], _ => exact .inr listed
      | [a, b], _ => exact .inr listed
      | a :: b :: d :: rest, short => exact absurd rfl (short a b d rest)

theorem mem_splitColons {c : UInt8} {text : Bytes} (listed : c ∈ text) :
    c = 58 ∨ ∃ part ∈ splitColons text, c ∈ part := by
  induction text with
  | nil => cases listed
  | cons d rest ih =>
      rw [splitColons]
      split
      · rename_i colon
        obtain rfl | later := List.mem_cons.mp listed
        · exact .inl colon
        · rcases ih later with colon | ⟨part, split, here⟩
          · exact .inl colon
          · exact .inr ⟨part, List.mem_cons_of_mem _ split, here⟩
      · split
        · rename_i none_left
          obtain rfl | later := List.mem_cons.mp listed
          · exact .inr ⟨[c], List.mem_singleton_self _, List.mem_singleton_self _⟩
          · rcases ih later with colon | ⟨part, split, here⟩
            · exact .inl colon
            · rw [none_left] at split
              cases split
        · rename_i first parts found
          obtain rfl | later := List.mem_cons.mp listed
          · exact .inr ⟨c :: first, List.mem_cons_self, List.mem_cons_self⟩
          · rcases ih later with colon | ⟨part, split, here⟩
            · exact .inl colon
            · rw [found] at split
              obtain rfl | split := List.mem_cons.mp split
              · exact .inr ⟨_, List.mem_cons_self, List.mem_cons_of_mem _ here⟩
              · exact .inr ⟨part, List.mem_cons_of_mem _ split, here⟩

theorem splitColons_alone {text : Bytes} (none_there : 58 ∉ text) :
    (splitColons text).length = 1 := by
  induction text with
  | nil => rfl
  | cons d rest ih =>
      rw [List.mem_cons, not_or] at none_there
      have one := ih none_there.2
      rw [splitColons, if_neg (Ne.symm none_there.1)]
      split
      · rfl
      · rename_i found
        rw [found] at one
        exact one

theorem fingerprint_plain {fp : Bytes} (parsed : parseFingerprint fp = true) :
    (∀ c ∈ fp, Plain c) ∧ 58 ∈ fp := by
  simp only [parseFingerprint, Bool.and_eq_true, decide_eq_true_eq, List.all_eq_true] at parsed
  obtain ⟨count, parts⟩ := parsed
  constructor
  · intro c listed
    rcases mem_splitColons listed with rfl | ⟨part, split, here⟩
    · decide
    · exact hex_plain ((parts part split).2 c here)
  · by_contra none_there
    rw [splitColons_alone none_there] at count
    cases count

theorem tidyFingerprint_low {fp : Bytes} {c : UInt8} (listed : c ∈ tidyFingerprint fp) :
    lowerByte c = c := by
  have low {c : UInt8} (listed : c ∈ (squeeze fp).map lowerByte) : lowerByte c = c := by
    obtain ⟨d, -, rfl⟩ := List.mem_map.mp listed
    exact lowerByte_again d
  unfold tidyFingerprint at listed
  dsimp only at listed
  split at listed
  · rcases mem_colons listed with rfl | there
    · decide
    · exact low there
  · exact low listed

theorem tidyFingerprint_again {fp : Bytes}
    (parsed : tidyFingerprint fp = [] ∨ parseFingerprint (tidyFingerprint fp) = true) :
    tidyFingerprint (tidyFingerprint fp) = tidyFingerprint fp := by
  rcases parsed with none_given | parsed
  · rw [none_given]
    rfl
  · obtain ⟨plain, colon⟩ := fingerprint_plain parsed
    have low : (tidyFingerprint fp).map lowerByte = tidyFingerprint fp :=
      (List.map_congr_left (g := id) fun _ listed => tidyFingerprint_low listed).trans
        (List.map_id _)
    rw [tidyFingerprint, squeeze_plain plain, low]
    have there : (tidyFingerprint fp).contains 58 = true := List.contains_iff_mem.mpr colon
    rw [there]
    exact if_neg fun joined => Bool.noConfusion joined.2

structure Checked (cfg : KeyConfig) : Prop where
  some_data : cfg.Data ≠ []
  data : ∃ n, decodedLength cfg.Data = some n
  fingerprint : cfg.Fingerprint = [] ∨ parseFingerprint cfg.Fingerprint = true
  salt : ∀ k ∈ cfg.KDF, ∃ n, decodedLength k.Salt = some n
  settings : ∀ k ∈ cfg.KDF, settingsOk k = true

theorem checked_of_ok {cfg : KeyConfig} (passed : check cfg = .ok ()) : Checked cfg := by
  unfold check at passed
  split at passed
  · cases passed
  · rename_i some_data
    split at passed
    · cases passed
    · rename_i n data
      split at passed
      · cases passed
      · split at passed
        · cases passed
        · rename_i fine
          have kdf (k : KeyDerivationConfig) (there : k ∈ cfg.KDF) :
              (∃ n, decodedLength k.Salt = some n) ∧ settingsOk k = true := by
            rw [Option.mem_def.mp there, checkKDF] at passed
            split at passed
            · cases passed
            · rename_i salt
              split at passed
              · rename_i settings
                refine ⟨?_, settings⟩
                rw [Option.isNone_iff_eq_none] at salt
                exact Option.ne_none_iff_exists'.mp salt
              · cases passed
          exact {
            some_data := some_data
            data := ⟨n, data⟩
            fingerprint := by
              by_contra wrong
              rw [not_or] at wrong
              exact fine ⟨wrong.1, by simpa using wrong.2⟩
            salt := fun k there => (kdf k there).1
            settings := fun k there => (kdf k there).2 }

theorem tidied_again {cfg : KeyConfig} (checked : Checked (tidied cfg)) :
    tidied (tidied cfg) = tidied cfg := by
  obtain ⟨n, data⟩ := checked.data
  have same_data : squeeze (squeeze cfg.Data) = squeeze cfg.Data :=
    squeeze_plain (decodedLength_plain _ data)
  have same_fingerprint := tidyFingerprint_again checked.fingerprint
  have same_kdf : ((tidied cfg).KDF.map fun k : KeyDerivationConfig =>
      { k with Salt := squeeze k.Salt }) = (tidied cfg).KDF := by
    cases found : (tidied cfg).KDF with
    | none => rfl
    | some k =>
        obtain ⟨m, salt⟩ := checked.salt k found
        have same := squeeze_plain (decodedLength_plain _ salt)
        rw [Option.map_some, same]
  unfold tidied at same_kdf ⊢
  dsimp only at same_kdf ⊢
  rw [same_data, same_fingerprint, same_kdf]

theorem fits_of_checked {cfg : KeyConfig} (checked : Checked cfg) : ∀ k ∈ cfg.KDF, k.Fits := by
  intro k there
  have settings := checked.settings k there
  simp only [settingsOk, Bool.and_eq_true, decide_eq_true_eq] at settings
  obtain ⟨⟨⟨n, r⟩, p⟩, iter⟩ := settings
  exact ⟨by omega, by omega, by omega, by omega⟩

/-! What a key's text is saved as reads as itself. -/

theorem content_trimmed {s u : Bytes} (read : content s = .ok u) : ∃ x, u = trimSpace x := by
  unfold content at read
  dsimp only at read
  split at read
  · exact ⟨_, (Except.ok.inj read).symm⟩
  · split at read
    · cases read
    · exact ⟨_, (Except.ok.inj read).symm⟩

theorem parse_ok {s out : Bytes} {cfg : KeyConfig} (parsed : parseKeyText s = .ok (out, cfg)) :
    ∃ u text key, content s = .ok u ∧ u ≠ [] ∧ u.length ≤ keyImportMaxFile ∧
      readKey (newlines u) = .ok (text, key) ∧ check (tidied key) = .ok () ∧
      out = savedText text key ++ [10] ∧ cfg = tidied key := by
  unfold parseKeyText at parsed
  cases read : content s with
  | error e =>
      rw [read] at parsed
      cases parsed
  | ok u =>
      rw [read] at parsed
      simp only [bind, Except.bind] at parsed
      split at parsed
      · cases parsed
      · rename_i filled
        split at parsed
        · cases parsed
        · rename_i short
          cases found : readKey (newlines u) with
          | error e =>
              rw [found] at parsed
              cases parsed
          | ok pair =>
              obtain ⟨text, key⟩ := pair
              rw [found] at parsed
              simp only [finish, bind, Except.bind] at parsed
              cases passed : check (tidied key) with
              | error e =>
                  rw [passed] at parsed
                  cases parsed
              | ok fine =>
                  rw [passed] at parsed
                  obtain ⟨rfl, rfl⟩ := Prod.mk.inj (Except.ok.inj parsed)
                  exact ⟨u, text, key, rfl, filled, Nat.le_of_not_lt short, found, passed, rfl, rfl⟩

/-- A text in braces that reads as a tidied key is read as it is. -/
theorem parse_same {text : Bytes} {cfg : KeyConfig} (braced : Braced text)
    (unmarked : cut keyBeginMarker text = none) (lines : newlines text = text)
    (short : text.length ≤ keyImportMaxFile) (read : unmarshal text = some cfg)
    (same : tidied cfg = cfg) (passed : check cfg = .ok ()) :
    parseKeyText (text ++ [10]) = .ok (text ++ [10], cfg) := by
  have whole : content (text ++ [10]) = .ok text := by
    unfold content
    rw [trimSpace_braced braced]
    simp only [unmarked]
  have filled : text ≠ [] := by
    rintro rfl
    cases braced.first
  have key : readKey text = .ok (text, cfg) := by
    unfold readKey
    rw [read]
  have saved : savedText text cfg = text := if_pos same
  unfold parseKeyText
  rw [whole]
  simp only [bind, Except.bind, if_neg filled, if_neg (Nat.not_lt.mpr short), lines, key, finish,
    same, passed, saved]
  rfl

theorem readKey_ok {u text : Bytes} {x : Bytes} {key : KeyConfig} (trimmed : u = trimSpace x)
    (filled : u ≠ []) (read : readKey (newlines u) = .ok (text, key))
    (some_data : (tidied key).Data ≠ []) :
    unmarshal text = some key ∧ Braced text ∧ text.length ≤ u.length := by
  obtain ⟨front, last, split⟩ := (List.eq_nil_or_concat' u).resolve_left filled
  have back := trimSpace_back (trimmed.symm.trans split)
  have ends : (newlines u).getLast? = some last := by
    rw [newlines_last, split, List.getLast?_concat]
  have object (t : Bytes) (found : unmarshal t = some key) :
      ∃ fields, readObject t = some fields := by
    unfold unmarshal at found
    split at found
    · obtain rfl := Option.some.inj found
      exact absurd rfl some_data
    · obtain ⟨fields, read, -⟩ := Option.bind_eq_some_iff.mp found
      exact ⟨fields, read⟩
  unfold readKey at read
  cases direct : unmarshal (newlines u) with
  | some cfg =>
      rw [direct] at read
      obtain ⟨rfl, rfl⟩ := Prod.mk.inj (Except.ok.inj read)
      obtain ⟨fields, there⟩ := object _ direct
      refine ⟨direct, braced_of_object there ?_ ?_, newlines_length u⟩
      · obtain ⟨c, rest, start⟩ := List.exists_cons_of_ne_nil filled
        have solid := trimSpace_front (trimmed.symm.trans start)
        have other : c ≠ 13 := by
          rintro rfl
          cases solid
        obtain ⟨more, same⟩ := @newlines_front c rest other
        rw [start, same]
        rintro d ⟨⟩
        exact space_ascii solid
      · rw [ends]
        rintro d ⟨⟩
        exact space_ascii back.1
  | none =>
      rw [direct] at read
      dsimp only at read
      split at read
      · cases read
      · rename_i brace
        cases again : unmarshal (tidyQuotes (newlines u)) with
        | none =>
            rw [again] at read
            cases read
        | some cfg =>
            rw [again] at read
            obtain ⟨rfl, rfl⟩ := Prod.mk.inj (Except.ok.inj read)
            obtain ⟨fields, there⟩ := object _ again
            rw [not_ne_iff] at brace
            refine ⟨again, braced_of_object there ?_ ?_,
              (tidyQuotes_length _).trans (newlines_length u)⟩
            · rw [brace]
              rintro d ⟨⟩
              decide
            · intro d tail
              by_contra space
              rcases tidyQuotes_last _ tail (by simpa using space) with there | ⟨more, blank⟩
              · rw [ends] at there
                obtain rfl := Option.some.inj there
                exact space (space_ascii back.1)
              · have tail : last = 160 := by
                  rw [blank, List.getLast?_append] at ends
                  exact (Option.some.inj ends).symm
                subst tail
                rw [split, newlines_snoc _ (by decide)] at blank
                have shorter : newlines front = more ++ [194] := by
                  have same : newlines front ++ [160] = (more ++ [194]) ++ [160] := by
                    rw [blank, List.append_assoc]
                    rfl
                  exact List.append_cancel_right same
                apply back.2
                refine ⟨rfl, ?_⟩
                rw [← newlines_last, shorter, List.getLast?_concat]

/-! The claim's two halves, and when they hold. -/

/-- Reading what was saved gives the same text and the same key. -/
def FixedPoint (s : Bytes) : Prop :=
  ∀ out cfg, parseKeyText s = .ok (out, cfg) → parseKeyText out = .ok (out, cfg)

/-- The text of a file, the white space around it and its line ends aside. -/
def fileText (s : Bytes) : Bytes := newlines (trimSpace (stripUTF8BOM s))

/-- A key file: one object, with nothing in it to tidy and nothing that is refused. -/
def wellFormed (s : Bytes) : Bool :=
  (trimSpace (stripUTF8BOM s)).length ≤ keyImportMaxFile &&
    match unmarshal (fileText s) with
    | some cfg => decide (tidied cfg = cfg) && decide (check cfg = .ok ())
    | none => false

/-- A key file is accepted and returned as it is. -/
def Kept (s : Bytes) : Prop :=
  wellFormed s = true → ∃ cfg, unmarshal (fileText s) = some cfg ∧
    parseKeyText s = .ok (fileText s ++ [10], cfg)

/-- A text that is saved as it was read has no marker left in it and no CR LF. -/
def leavable (text : Bytes) : Bool :=
  (cut keyBeginMarker text).isNone && newlines text = text

/-- A key that is written again has no marker in its strings and stays as small as a key file. -/
def writable (cfg : KeyConfig) : Bool :=
  ([cfg.Created, cfg.Modified, cfg.Hint].all fun s => (cut keyBeginMarker s).isNone) &&
    (marshalIndent cfg).length ≤ keyImportMaxFile

/-- A key that was read and passes the checks reads again as it is saved. -/
def saves (text : Bytes) (key : KeyConfig) : Bool :=
  check (tidied key) ≠ .ok () ||
    if tidied key = key then leavable text else writable (tidied key)

/-- A key file has no marker anywhere, and what is accepted saves well. -/
def clean (s : Bytes) : Bool :=
  (!wellFormed s || (cut keyBeginMarker (trimSpace (stripUTF8BOM s))).isNone) &&
    match content s with
    | .error _ => true
    | .ok u =>
        keyImportMaxFile < u.length ||
          match readKey (newlines u) with
          | .error _ => true
          | .ok (text, key) => saves text key

theorem leavable_parts {text : Bytes} (fine : leavable text = true) :
    cut keyBeginMarker text = none ∧ newlines text = text := by
  simpa [leavable] using fine

theorem marshalIndent_braced (cfg : KeyConfig) : Braced (marshalIndent cfg) := by
  obtain ⟨middle, braces⟩ := marshalIndent_braces cfg
  rw [braces]
  exact ⟨rfl, by rw [← List.cons_append, List.getLast?_concat]⟩

theorem newlines_same {text : Bytes} (none_there : 13 ∉ text) : newlines text = text := by
  induction text using newlines.induct with
  | case1 a b rest pair ih => exact absurd (pair.1 ▸ List.mem_cons_self) none_there
  | case2 a b rest alone ih =>
      rw [newlines, if_neg alone, ih fun there => none_there (List.mem_cons_of_mem _ there)]
  | case3 text short => rw [newlines_short short]

theorem cut_none {marker : Bytes} (some_marker : marker ≠ []) (text : Bytes) :
    cut marker text = none ↔ ¬ marker <:+: text := by
  induction text with
  | nil =>
      constructor
      · exact fun _ inside => some_marker (List.infix_nil.mp inside)
      · exact fun _ => rfl
  | cons c rest ih =>
      rw [cut, List.infix_cons_iff, not_or, ← ih]
      split
      · rename_i start
        have there := List.isPrefixOf_iff_prefix.mp start
        constructor
        · nofun
        · exact fun missing => absurd there missing.1
      · rename_i start
        rw [Option.map_eq_none_iff]
        exact ⟨fun later => ⟨fun there => start (List.isPrefixOf_iff_prefix.mpr there), later⟩,
          fun both => both.2⟩

theorem begin_mark : Mark keyBeginMarker 69 where
  dash := ⟨ascii "----BEGIN PROXMOX BACKUP KEY-----", by decide⟩
  slash := by decide
  quote := by decide
  comma := by decide
  newline := by decide
  lettered := by decide
  other := by decide

theorem plain_unmarked {text : Bytes} (plain : ∀ c ∈ text, Plain c) : ¬ keyBeginMarker <:+: text := by
  apply not_infix_of_mem (c := 32) (by decide)
  intro there
  exact absurd (plain 32 there) (by decide)

/-- The text of a key that passed the checks has no marker when its strings have none. -/
theorem marshalIndent_unmarked {cfg : KeyConfig} (checked : Checked cfg)
    (strings : ∀ s ∈ [cfg.Created, cfg.Modified, cfg.Hint], cut keyBeginMarker s = none) :
    cut keyBeginMarker (marshalIndent cfg) = none := by
  have some_marker : keyBeginMarker ≠ [] := by decide
  rw [cut_none some_marker]
  intro inside
  have unmarked (s : Bytes) (listed : s ∈ [cfg.Created, cfg.Modified, cfg.Hint]) :
      ¬ keyBeginMarker <:+: s := (cut_none some_marker s).mp (strings s listed)
  rcases marshalIndent_mark begin_mark inside with ⟨k, given, there⟩ | ⟨s, listed, there⟩
  · obtain ⟨n, salt⟩ := checked.salt k given
    exact plain_unmarked (decodedLength_plain _ salt) there
  · simp only [List.mem_cons, List.not_mem_nil, or_false] at listed
    obtain rfl | rfl | rfl | rfl | rfl := listed
    · exact unmarked _ (by simp) there
    · exact unmarked _ (by simp) there
    · obtain ⟨n, data⟩ := checked.data
      exact plain_unmarked (decodedLength_plain _ data) there
    · rcases checked.fingerprint with none_given | parsed
      · rw [none_given] at there
        exact some_marker (List.infix_nil.mp there)
      · exact plain_unmarked (fingerprint_plain parsed).1 there
    · exact unmarked _ (by simp) there

theorem fixed_of_clean {s : Bytes} (fine : clean s = true) : FixedPoint s := by
  intro out cfg parsed
  obtain ⟨u, text, key, read, filled, short, found, passed, rfl, rfl⟩ := parse_ok parsed
  obtain ⟨x, trimmed⟩ := content_trimmed read
  have checked := checked_of_ok passed
  obtain ⟨there, braced, longer⟩ := readKey_ok trimmed filled found checked.some_data
  have left : (if tidied key = key then leavable text else writable (tidied key)) = true := by
    have both := ((Bool.and_eq_true _ _).mp fine).2
    rw [read] at both
    simp only [found, decide_eq_false (Nat.not_lt.mpr short), Bool.false_or, saves, passed] at both
    simpa using both
  unfold savedText
  split at left
  · rename_i same
    obtain ⟨unmarked, lines⟩ := leavable_parts left
    rw [if_pos same, same]
    exact parse_same braced unmarked lines (longer.trans short) there same (same ▸ passed)
  · rename_i other
    obtain ⟨strings, small⟩ := (Bool.and_eq_true _ _).mp left
    have unmarked := marshalIndent_unmarked checked fun s listed =>
      Option.isNone_iff_eq_none.mp (List.all_eq_true.mp strings s listed)
    have lines := newlines_same (marshalIndent_return (tidied key))
    rw [if_neg other]
    exact parse_same (marshalIndent_braced _) unmarked lines (of_decide_eq_true small)
      (unmarshal_marshalIndent (fits_of_checked checked)) (tidied_again checked) passed

theorem kept_of_clean {s : Bytes} (fine : clean s = true) : Kept s := by
  intro formed
  have unmarked : cut keyBeginMarker (trimSpace (stripUTF8BOM s)) = none := by
    have both := ((Bool.and_eq_true _ _).mp fine).1
    rw [formed] at both
    simpa using both
  obtain ⟨short, formed⟩ := (Bool.and_eq_true _ _).mp formed
  cases read : unmarshal (fileText s) with
  | none =>
      rw [read] at formed
      cases formed
  | some cfg =>
      rw [read] at formed
      obtain ⟨same, passed⟩ := (Bool.and_eq_true _ _).mp formed
      have same := of_decide_eq_true same
      have passed := of_decide_eq_true passed
      refine ⟨cfg, rfl, ?_⟩
      have whole : content s = .ok (trimSpace (stripUTF8BOM s)) := by
        unfold content
        simp only [unmarked]
      have filled : trimSpace (stripUTF8BOM s) ≠ [] := by
        intro none_left
        rw [fileText, none_left] at read
        cases read
      have key : readKey (newlines (trimSpace (stripUTF8BOM s))) = .ok (fileText s, cfg) := by
        have direct : unmarshal (newlines (trimSpace (stripUTF8BOM s))) = some cfg := read
        unfold readKey
        rw [direct]
        rfl
      have saved : savedText (fileText s) cfg = fileText s := if_pos same
      have small : ¬ keyImportMaxFile < (trimSpace (stripUTF8BOM s)).length :=
        Nat.not_lt.mpr (of_decide_eq_true short)
      unfold parseKeyText
      rw [whole]
      simp only [bind, Except.bind, if_neg filled, if_neg small, key, finish, same, passed, saved]
      rfl

/-- What is accepted reads back as itself, and a key file is kept, for every text without a
marker, a CR LF or a text too long where the next reading would meet it. -/
theorem key_text_kept (s : Bytes) (fine : clean s = true) : FixedPoint s ∧ Kept s :=
  ⟨fixed_of_clean fine, kept_of_clean fine⟩

/-- A key of 32 zero bytes. -/
def zeroData : Bytes :=
  quoted (ascii "data") ++ 58 :: quoted (ascii "AAAAAAAAAAAAAAAAAAAAAAAAAAAAAAAAAAAAAAAAAAA=")

def plainKey : Bytes := 123 :: (zeroData ++ [125])

theorem plain_key_kept : clean plainKey = true ∧ FixedPoint plainKey ∧ Kept plainKey := by
  have fine : clean plainKey = true := by decide +kernel
  exact ⟨fine, key_text_kept plainKey fine⟩

/-- The same key with the line of a paper key in its hint. -/
def markedKey : Bytes :=
  123 :: (zeroData ++ 44 :: (quoted (ascii "hint") ++ 58 :: (quoted keyBeginMarker ++ [125])))

theorem marked_key_refused : wellFormed markedKey = true ∧
    parseKeyText markedKey = .error .noEndLine := by
  constructor
  · decide +kernel
  · decide +kernel

-- One CR LF is left of a CR CR LF.
example : newlines [13, 13, 10] = [13, 10] := by decide +kernel

end ProxmoxBackup.KeyText
