import ProxmoxBackup.IndentedJson

/-! A key file (pbscommon/crypt.go, KeyConfig): how it is read from JSON and written. -/
namespace ProxmoxBackup.KeyFile

open JsonText IndentedJson

def ascii (s : String) : Bytes := s.toList.map (·.toNat.toUInt8)

inductive Derivation where
  | scrypt
  | PBKDF2
  deriving DecidableEq

structure KeyDerivationConfig where
  KDF : Derivation
  N : Nat
  R : Nat
  P : Nat
  Iter : Int
  Salt : Bytes
  low : -2 ^ 63 ≤ Iter
  deriving DecidableEq

structure KeyConfig where
  KDF : Option KeyDerivationConfig
  Created : Bytes
  Modified : Bytes
  Data : Bytes
  Fingerprint : Bytes
  Hint : Bytes
  deriving DecidableEq

/-- A key of an object as it is compared with a field's name. -/
def foldKey : Bytes → Bytes
  | a :: b :: c :: rest =>
      if a = 226 ∧ b = 132 ∧ c = 170 then 107 :: foldKey rest
      else if a = 197 ∧ b = 191 then 115 :: foldKey (c :: rest)
      else (if 65 ≤ a ∧ a ≤ 90 then a + 32 else a) :: foldKey (b :: c :: rest)
  | [a, b] =>
      if a = 197 ∧ b = 191 then [115]
      else [if 65 ≤ a ∧ a ≤ 90 then a + 32 else a, if 65 ≤ b ∧ b ≤ 90 then b + 32 else b]
  | [a] => [if 65 ≤ a ∧ a ≤ 90 then a + 32 else a]
  | [] => []

def readUint (text : Bytes) : Option Nat :=
  if text.all isDigit && !text.isEmpty && value text < 2 ^ 64 then some (value text) else none

theorem low_of_small {n : Nat} (small : n ≤ 2 ^ 63) : -2 ^ 63 ≤ -(n : Int) := by
  have bound : (n : Int) ≤ 2 ^ 63 := by exact_mod_cast small
  omega

theorem low_natural (n : Nat) : -2 ^ 63 ≤ (n : Int) := by
  have positive : (0 : Int) ≤ n := Int.natCast_nonneg n
  omega

theorem zero_low : -2 ^ 63 ≤ (0 : Int) := low_natural 0

/-- The text of an int without a sign. -/
def isDigits (text : Bytes) : Bool := text.all isDigit && !text.isEmpty

def negative (n : Nat) : Option { i : Int // -2 ^ 63 ≤ i } :=
  if small : n ≤ 2 ^ 63 then some ⟨-(n : Int), low_of_small small⟩ else none

def natural (n : Nat) : Option { i : Int // -2 ^ 63 ≤ i } :=
  if n < 2 ^ 63 then some ⟨n, low_natural n⟩ else none

/-- An int, with its lower bound. -/
def readInt (text : Bytes) : Option { i : Int // -2 ^ 63 ≤ i } :=
  if text.head? = some 45 then
    if isDigits text.tail then negative (value text.tail) else none
  else if isDigits text then natural (value text)
  else none

def stringOf (old : Bytes) : Json → Option Bytes
  | .str s => some s
  | .null => some old
  | _ => none

def uintOf (old : Nat) : Json → Option Nat
  | .num n => readUint n.text
  | .null => some old
  | _ => none

/-- kdfParams, with the `kdf` of flatKDF. -/
structure Params where
  kdf : Bytes
  N : Nat
  R : Nat
  P : Nat
  Iter : { i : Int // -2 ^ 63 ≤ i }
  Salt : Bytes

def Params.zero : Params := ⟨[], 0, 0, 0, ⟨0, zero_low⟩, []⟩

def intOf (old : { i : Int // -2 ^ 63 ≤ i }) : Json → Option { i : Int // -2 ^ 63 ≤ i }
  | .num n => readInt n.text
  | .null => some old
  | _ => none

inductive Param where
  | kdf | n | r | p | iter | salt
  deriving DecidableEq

def Param.name : Param → Bytes
  | .kdf => ascii "kdf"
  | .n => ascii "n"
  | .r => ascii "r"
  | .p => ascii "p"
  | .iter => ascii "iter"
  | .salt => ascii "salt"

def paramNamed (key : Bytes) : Option Param :=
  [Param.kdf, .n, .r, .p, .iter, .salt].find? (·.name = foldKey key)

/-- One member of the object; only flatKDF has a `kdf`. -/
def setParam (flat : Bool) (p : Params) (f : Bytes × Json) : Option Params :=
  match paramNamed f.1 with
  | some .kdf => if flat then (stringOf p.kdf f.2).map ({ p with kdf := · }) else some p
  | some .n => (uintOf p.N f.2).map ({ p with N := · })
  | some .r => (uintOf p.R f.2).map ({ p with R := · })
  | some .p => (uintOf p.P f.2).map ({ p with P := · })
  | some .iter => (intOf p.Iter f.2).map ({ p with Iter := · })
  | some .salt => (stringOf p.Salt f.2).map ({ p with Salt := · })
  | none => some p

def readParams (flat : Bool) : Json → Option Params
  | .obj fields => fields.foldlM (setParam flat) .zero
  | .null => some .zero
  | _ => none

def Params.config (p : Params) (kdf : Derivation) : KeyDerivationConfig where
  KDF := kdf
  N := p.N
  R := p.R
  P := p.P
  Iter := p.Iter.1
  Salt := p.Salt
  low := p.Iter.2

def readTagged : Json → Option KeyDerivationConfig
  | .obj [(name, params)] => do
      let p ← readParams false params
      if name = ascii "Scrypt" then some (p.config .scrypt)
      else if name = ascii "PBKDF2" then some (p.config .PBKDF2)
      else none
  | _ => none

/-- KeyDerivationConfig.UnmarshalJSON. -/
def readKDF (raw : Json) : Option KeyDerivationConfig :=
  match readParams true raw with
  | some p =>
      if p.kdf = [] then readTagged raw
      else if p.kdf = ascii "scrypt" then some (p.config .scrypt)
      else if p.kdf = ascii "PBKDF2" then some (p.config .PBKDF2)
      else none
  | none => readTagged raw

inductive Field where
  | kdf | created | modified | data | fingerprint | hint
  deriving DecidableEq

def Field.name : Field → Bytes
  | .kdf => ascii "kdf"
  | .created => ascii "created"
  | .modified => ascii "modified"
  | .data => ascii "data"
  | .fingerprint => ascii "fingerprint"
  | .hint => ascii "hint"

def fieldNamed (key : Bytes) : Option Field :=
  [Field.kdf, .created, .modified, .data, .fingerprint, .hint].find? (·.name = foldKey key)

def setKDF (cfg : KeyConfig) : Json → Option KeyConfig
  | .null => some { cfg with KDF := none }
  | raw => (readKDF raw).map fun k => { cfg with KDF := some k }

def setMember (cfg : KeyConfig) (f : Bytes × Json) : Option KeyConfig :=
  match fieldNamed f.1 with
  | some .kdf => setKDF cfg f.2
  | some .created => (stringOf cfg.Created f.2).map ({ cfg with Created := · })
  | some .modified => (stringOf cfg.Modified f.2).map ({ cfg with Modified := · })
  | some .data => (stringOf cfg.Data f.2).map ({ cfg with Data := · })
  | some .fingerprint => (stringOf cfg.Fingerprint f.2).map ({ cfg with Fingerprint := · })
  | some .hint => (stringOf cfg.Hint f.2).map ({ cfg with Hint := · })
  | none => some cfg

def KeyConfig.empty : KeyConfig := ⟨none, [], [], [], [], []⟩

/-- The members of a text that is one object, in their order. Its last byte that is no white
space is the closing brace. -/
def readObject (text : Bytes) : Option (List (Bytes × Json)) :=
  match skipSpace text with
  | [] => none
  | c :: rest =>
      if c = 123 ∧ (skipSpace text.reverse).head? = some 125 then
        match skipSpace rest with
        | [] => none
        | d :: more =>
            match (if d = 125 then some ([], more) else readFields (text.length + 1) (d :: more)) with
            | some (fields, after) => if (skipSpace after).isEmpty then some fields else none
            | none => none
      else none

def isNull (text : Bytes) : Bool :=
  nullText.isPrefixOf (skipSpace text) && (skipSpace ((skipSpace text).drop 4)).isEmpty

/-- json.Unmarshal into a KeyConfig. -/
def unmarshal (text : Bytes) : Option KeyConfig :=
  if isNull text then some .empty
  else do (← readObject text).foldlM setMember .empty

/-! Writing. -/

def optional (absent : Bool) (i : Item) : List Item := if absent then [] else [i]

def paramItems (k : KeyDerivationConfig) : List Item :=
  optional (k.N = 0) (.nat (ascii "n") k.N) ++ optional (k.R = 0) (.nat (ascii "r") k.R) ++
    optional (k.P = 0) (.nat (ascii "p") k.P) ++ optional (k.Iter = 0) (.int (ascii "iter") k.Iter) ++
    [.string (ascii "salt") k.Salt]

theorem int_key (key : Bytes) (i : Int) : (Item.int key i).key = key := by
  cases i <;> rfl

theorem paramItems_keys (k : KeyDerivationConfig) : ((paramItems k).map Item.key).Nodup := by
  have whole : [ascii "n", ascii "r", ascii "p", ascii "iter", ascii "salt"].Nodup := by decide
  refine List.Sublist.nodup ?_ whole
  have each (absent : Bool) (i : Item) : ((optional absent i).map Item.key).Sublist [i.key] := by
    cases absent
    · exact .refl _
    · exact List.nil_sublist _
  simp only [paramItems, List.map_append]
  have last : ([Item.string (ascii "salt") k.Salt].map Item.key).Sublist [ascii "salt"] := .refl _
  have fourth := each (k.Iter = 0) (.int (ascii "iter") k.Iter)
  rw [int_key] at fourth
  exact ((((each _ _).append (each _ _)).append (each _ _)).append fourth).append last

theorem paramItems_some (k : KeyDerivationConfig) : paramItems k ≠ [] := by
  simp [paramItems]

def Derivation.tag : Derivation → Bytes
  | .scrypt => ascii "Scrypt"
  | .PBKDF2 => ascii "PBKDF2"

/-- KeyDerivationConfig.MarshalJSON, where it stands in the key file. -/
def kdfItem (k : KeyDerivationConfig) : Item :=
  .object (ascii "kdf") 1
    [.object k.KDF.tag 2 (paramItems k) (paramItems_some k) (paramItems_keys k)]
    (List.cons_ne_nil _ _) (List.nodup_singleton _)

def keyItems (cfg : KeyConfig) : List Item :=
  (match cfg.KDF with | some k => [kdfItem k] | none => []) ++
    optional (cfg.Created = []) (.string (ascii "created") cfg.Created) ++
    optional (cfg.Modified = []) (.string (ascii "modified") cfg.Modified) ++
    [.string (ascii "data") cfg.Data] ++
    optional (cfg.Fingerprint = []) (.string (ascii "fingerprint") cfg.Fingerprint) ++
    optional (cfg.Hint = []) (.string (ascii "hint") cfg.Hint)

/-- json.MarshalIndent of a KeyConfig. -/
def marshalIndent (cfg : KeyConfig) : Bytes := indented 0 ((keyItems cfg).map Item.part)

/-! What is written reads back. -/

theorem paramNamed_name (f : Param) : paramNamed f.name = some f := by
  cases f <;> decide

theorem fieldNamed_name (f : Field) : fieldNamed f.name = some f := by
  cases f <;> decide

theorem natText_some (n : Nat) : (natText n).isEmpty = false := by
  obtain ⟨c, rest, first, -⟩ := natText_first n
  rw [first]
  rfl

theorem readUint_natText {n : Nat} (fits : n < 2 ^ 64) : readUint (natText n) = some n := by
  rw [readUint, natText_all, natText_some, natText_value]
  exact if_pos (by simpa using fits)

theorem uintOf_item (key : Bytes) {n : Nat} (old : Nat) (fits : n < 2 ^ 64) :
    uintOf old (Item.nat key n).value = some n := readUint_natText fits

theorem fold_optional {σ : Type} {put : σ → Bytes × Json → Option σ} {s after : σ} {absent : Bool}
    {i : Item} (skip : absent = true → s = after) (step : absent = false → put s i.field = some after) :
    ((optional absent i).map Item.field).foldlM put s = some after := by
  cases absent
  · simp [optional, step rfl]
  · simp [optional, skip rfl]

theorem natText_digits (n : Nat) : isDigits (natText n) = true := by
  rw [isDigits, natText_all, natText_some]
  rfl

/-- The int of an item reads back. -/
theorem readInt_item (key : Bytes) (i old : { i : Int // -2 ^ 63 ≤ i }) (fits : i.1 < 2 ^ 63) :
    intOf old (Item.int key i.1).value = some i := by
  obtain ⟨i, low⟩ := i
  cases i with
  | ofNat n =>
      obtain ⟨c, rest, first, minus⟩ := natText_first n
      have small : n < 2 ^ 63 := by
        have bound : (n : Int) < 2 ^ 63 := fits
        exact_mod_cast bound
      have unsigned : (natText n).head? ≠ some 45 := by
        rw [first]
        exact fun same => minus (Option.some.inj same)
      change readInt (natText n) = _
      rw [readInt, if_neg unsigned, if_pos (natText_digits n), natText_value, natural, if_pos small]
      rfl
  | negSucc n =>
      have small : n + 1 ≤ 2 ^ 63 := by
        have bound : -2 ^ 63 ≤ Int.negSucc n := low
        omega
      have signed : (45 :: natText (n + 1)).head? = some 45 := rfl
      change readInt (45 :: natText (n + 1)) = _
      rw [readInt, if_pos signed, List.tail_cons, if_pos (natText_digits (n + 1)), natText_value,
        negative, dif_pos small]
      rfl

/-- Its numbers fit their types. -/
structure KeyDerivationConfig.Fits (k : KeyDerivationConfig) : Prop where
  N : k.N < 2 ^ 64
  R : k.R < 2 ^ 64
  P : k.P < 2 ^ 64
  Iter : k.Iter < 2 ^ 63

theorem readParams_items {k : KeyDerivationConfig} (fits : k.Fits) :
    readParams false (.obj ((paramItems k).map Item.field)) =
      some ⟨[], k.N, k.R, k.P, ⟨k.Iter, k.low⟩, k.Salt⟩ := by
  have one : ((optional (k.N = 0) (.nat (ascii "n") k.N)).map Item.field).foldlM
      (setParam false) .zero = some ⟨[], k.N, 0, 0, ⟨0, zero_low⟩, []⟩ := by
    refine fold_optional (fun absent => ?_) (fun _ => ?_)
    · rw [of_decide_eq_true absent]
      rfl
    · change setParam false _ (Param.n.name, _) = _
      simp only [setParam, paramNamed_name]
      rw [uintOf_item _ _ fits.N]
      rfl
  have two : ((optional (k.R = 0) (.nat (ascii "r") k.R)).map Item.field).foldlM
      (setParam false) ⟨[], k.N, 0, 0, ⟨0, zero_low⟩, []⟩ =
        some ⟨[], k.N, k.R, 0, ⟨0, zero_low⟩, []⟩ := by
    refine fold_optional (fun absent => ?_) (fun _ => ?_)
    · rw [of_decide_eq_true absent]
    · change setParam false _ (Param.r.name, _) = _
      simp only [setParam, paramNamed_name]
      rw [uintOf_item _ _ fits.R]
      rfl
  have three : ((optional (k.P = 0) (.nat (ascii "p") k.P)).map Item.field).foldlM
      (setParam false) ⟨[], k.N, k.R, 0, ⟨0, zero_low⟩, []⟩ =
        some ⟨[], k.N, k.R, k.P, ⟨0, zero_low⟩, []⟩ := by
    refine fold_optional (fun absent => ?_) (fun _ => ?_)
    · rw [of_decide_eq_true absent]
    · change setParam false _ (Param.p.name, _) = _
      simp only [setParam, paramNamed_name]
      rw [uintOf_item _ _ fits.P]
      rfl
  have four : ((optional (k.Iter = 0) (.int (ascii "iter") k.Iter)).map Item.field).foldlM
      (setParam false) ⟨[], k.N, k.R, k.P, ⟨0, zero_low⟩, []⟩ =
        some ⟨[], k.N, k.R, k.P, ⟨k.Iter, k.low⟩, []⟩ := by
    refine fold_optional (fun absent => ?_) (fun _ => ?_)
    · simp only [of_decide_eq_true absent]
    · have read := readInt_item (ascii "iter") ⟨k.Iter, k.low⟩ ⟨0, zero_low⟩ fits.Iter
      rw [Item.field, int_key]
      change setParam false _ (Param.iter.name, _) = _
      simp only [setParam, paramNamed_name]
      rw [read]
      rfl
  change ((paramItems k).map Item.field).foldlM (setParam false) .zero = _
  simp only [paramItems, List.map_append, List.foldlM_append, one, two, three, four,
    Option.bind_eq_bind, Option.bind_some, List.map_cons, List.map_nil, List.foldlM_cons,
    List.foldlM_nil]
  change (setParam false _ (Param.salt.name, _)).bind _ = _
  simp only [setParam, paramNamed_name]
  rfl

theorem readKDF_item {k : KeyDerivationConfig} (fits : k.Fits) :
    readKDF (kdfItem k).value = some k := by
  have read := readParams_items fits
  obtain ⟨kdf, n, r, p, iter, salt, low⟩ := k
  have flat (params : Json) : readParams true (.obj [(kdf.tag, params)]) = some .zero := by
    have unknown : paramNamed kdf.tag = none := by cases kdf <;> decide
    simp [readParams, setParam, unknown]
  change readKDF (.obj [(kdf.tag, .obj _)]) = _
  rw [readKDF, flat]
  simp only [Params.zero, if_true]
  rw [readTagged, read]
  have different : ascii "PBKDF2" ≠ ascii "Scrypt" := by decide
  cases kdf
  · simp [Derivation.tag, Params.config]
  · simp [Derivation.tag, Params.config, different]

theorem setMember_string (f : Field) (cfg after : KeyConfig) (s : Bytes)
    (put : setMember cfg (f.name, .str s) = some after) (key : Bytes) (same : key = f.name) :
    setMember cfg (Item.string key s).field = some after := by
  subst same
  exact put

theorem fold_keyItems {cfg : KeyConfig} (fits : ∀ k ∈ cfg.KDF, k.Fits) :
    ((keyItems cfg).map Item.field).foldlM setMember .empty = some cfg := by
  obtain ⟨kdf, created, modified, data, fingerprint, hint⟩ := cfg
  have one : ((match kdf with | some k => [kdfItem k] | none => []).map Item.field).foldlM
      setMember .empty = some ⟨kdf, [], [], [], [], []⟩ := by
    cases kdf with
    | none => rfl
    | some k =>
        have read := readKDF_item (fits k rfl)
        simp only [List.map_cons, List.map_nil, List.foldlM_cons, List.foldlM_nil]
        change (setMember .empty (Field.kdf.name, (kdfItem k).value)).bind _ = _
        simp only [setMember, fieldNamed_name]
        change ((readKDF (kdfItem k).value).map _).bind _ = _
        rw [read]
        rfl
  have two : ((optional (created = []) (.string (ascii "created") created)).map
      Item.field).foldlM setMember ⟨kdf, [], [], [], [], []⟩ =
        some ⟨kdf, created, [], [], [], []⟩ := by
    refine fold_optional (fun absent => ?_) (fun _ => ?_)
    · rw [of_decide_eq_true absent]
    · refine setMember_string .created _ _ _ ?_ _ rfl
      rw [setMember, fieldNamed_name]
      rfl
  have three : ((optional (modified = []) (.string (ascii "modified") modified)).map
      Item.field).foldlM setMember ⟨kdf, created, [], [], [], []⟩ =
        some ⟨kdf, created, modified, [], [], []⟩ := by
    refine fold_optional (fun absent => ?_) (fun _ => ?_)
    · rw [of_decide_eq_true absent]
    · refine setMember_string .modified _ _ _ ?_ _ rfl
      rw [setMember, fieldNamed_name]
      rfl
  have four : ([Item.string (ascii "data") data].map Item.field).foldlM setMember
      ⟨kdf, created, modified, [], [], []⟩ = some ⟨kdf, created, modified, data, [], []⟩ := by
    have put : setMember ⟨kdf, created, modified, [], [], []⟩ (Item.string (ascii "data") data).field =
        some ⟨kdf, created, modified, data, [], []⟩ := by
      refine setMember_string .data _ _ _ ?_ _ rfl
      rw [setMember, fieldNamed_name]
      rfl
    simp [put]
  have five : ((optional (fingerprint = []) (.string (ascii "fingerprint") fingerprint)).map
      Item.field).foldlM setMember ⟨kdf, created, modified, data, [], []⟩ =
        some ⟨kdf, created, modified, data, fingerprint, []⟩ := by
    refine fold_optional (fun absent => ?_) (fun _ => ?_)
    · rw [of_decide_eq_true absent]
    · refine setMember_string .fingerprint _ _ _ ?_ _ rfl
      rw [setMember, fieldNamed_name]
      rfl
  have six : ((optional (hint = []) (.string (ascii "hint") hint)).map
      Item.field).foldlM setMember ⟨kdf, created, modified, data, fingerprint, []⟩ =
        some ⟨kdf, created, modified, data, fingerprint, hint⟩ := by
    refine fold_optional (fun absent => ?_) (fun _ => ?_)
    · rw [of_decide_eq_true absent]
    · refine setMember_string .hint _ _ _ ?_ _ rfl
      rw [setMember, fieldNamed_name]
      rfl
  simp only [keyItems, List.map_append, List.foldlM_append]
  rw [one]
  simp only [Option.bind_eq_bind, Option.bind_some, two, three, four, five, six]

theorem marshalIndent_braces (cfg : KeyConfig) :
    ∃ middle, marshalIndent cfg = 123 :: (middle ++ [125]) := by
  refine ⟨lines 1 ((keyItems cfg).map Item.part) ++ pad 0, ?_⟩
  rw [marshalIndent, indented, List.append_assoc]

theorem readObject_marshalIndent (cfg : KeyConfig) :
    readObject (marshalIndent cfg) = some ((keyItems cfg).map Item.field) := by
  have some_item : (keyItems cfg).map Item.part ≠ [] := by simp [keyItems]
  obtain ⟨more, start⟩ := lines_start 1 some_item (pad 0 ++ [125])
  have enough : (lines 1 ((keyItems cfg).map Item.part)).length + 1 ≤
      (marshalIndent cfg).length + 1 := by
    simp only [marshalIndent, indented, List.length_cons, List.length_append, Nat.zero_add]
    omega
  have read := reads_lines (items_members (keyItems cfg)) some_item 1 0 [] _ enough
  rw [← readFields_skip, start] at read
  have last : (skipSpace (marshalIndent cfg).reverse).head? = some 125 := by
    obtain ⟨middle, braces⟩ := marshalIndent_braces cfg
    rw [braces, List.reverse_cons, List.reverse_append, List.reverse_singleton,
      List.singleton_append, List.cons_append, CanonicalJson.skipSpace_cons (by decide)]
    rfl
  have first : skipSpace (marshalIndent cfg) = 123 :: (lines 1 ((keyItems cfg).map Item.part) ++
      (pad 0 ++ [125])) := CanonicalJson.skipSpace_cons (by decide)
  have word : (34 : UInt8) ≠ 125 := by decide
  unfold readObject
  rw [first]
  simp only [last, start, if_neg word, read, and_self, if_true]
  rfl

theorem unmarshal_marshalIndent {cfg : KeyConfig} (fits : ∀ k ∈ cfg.KDF, k.Fits) :
    unmarshal (marshalIndent cfg) = some cfg := by
  have object : isNull (marshalIndent cfg) = false := by
    obtain ⟨middle, braces⟩ := marshalIndent_braces cfg
    rw [isNull, braces, CanonicalJson.skipSpace_cons (by decide)]
    rfl
  rw [unmarshal, object, readObject_marshalIndent]
  exact fold_keyItems fits

/-! What the text of a key file can hold. -/

theorem mem_optional {absent : Bool} {i j : Item} (listed : i ∈ optional absent j) : i = j := by
  cases absent
  · exact List.mem_singleton.mp listed
  · cases listed

theorem mem_keyItems {cfg : KeyConfig} {i : Item} (listed : i ∈ keyItems cfg) :
    (∃ k ∈ cfg.KDF, i = kdfItem k) ∨ ∃ key s, i = .string key s ∧ 69 ∉ key ∧
      s ∈ [cfg.Created, cfg.Modified, cfg.Data, cfg.Fingerprint, cfg.Hint] := by
  simp only [keyItems, List.mem_append] at listed
  rcases listed with ((((kdf | created) | modified) | data) | fingerprint) | hint
  · cases found : cfg.KDF with
    | none =>
        rw [found] at kdf
        cases kdf
    | some k =>
        rw [found] at kdf
        exact .inl ⟨k, rfl, List.mem_singleton.mp kdf⟩
  · exact .inr ⟨_, _, mem_optional created, by decide, by simp⟩
  · exact .inr ⟨_, _, mem_optional modified, by decide, by simp⟩
  · exact .inr ⟨_, _, List.mem_singleton.mp data, by decide, by simp⟩
  · exact .inr ⟨_, _, mem_optional fingerprint, by decide, by simp⟩
  · exact .inr ⟨_, _, mem_optional hint, by decide, by simp⟩

theorem mem_paramItems {k : KeyDerivationConfig} {i : Item} (listed : i ∈ paramItems k) :
    69 ∉ i.key ∧ ((∃ key n, i = .nat key n) ∨ (∃ key n, i = .int key n) ∨
      ∃ key, i = .string key k.Salt) := by
  have names : ∀ name ∈ [ascii "n", ascii "r", ascii "p", ascii "iter", ascii "salt"], 69 ∉ name := by
    decide
  simp only [paramItems, List.mem_append] at listed
  rcases listed with (((n | r) | p) | iter) | salt
  · obtain rfl := mem_optional n
    exact ⟨names (ascii "n") (by simp), .inl ⟨_, _, rfl⟩⟩
  · obtain rfl := mem_optional r
    exact ⟨names (ascii "r") (by simp), .inl ⟨_, _, rfl⟩⟩
  · obtain rfl := mem_optional p
    exact ⟨names (ascii "p") (by simp), .inl ⟨_, _, rfl⟩⟩
  · obtain rfl := mem_optional iter
    refine ⟨?_, .inr (.inl ⟨_, _, rfl⟩)⟩
    rw [int_key]
    exact names (ascii "iter") (by simp)
  · obtain rfl := List.mem_singleton.mp salt
    exact ⟨names (ascii "salt") (by simp), .inr (.inr ⟨_, rfl⟩)⟩

theorem marshalIndent_return (cfg : KeyConfig) : 13 ∉ marshalIndent cfg := by
  apply indented_return
  intro part listed
  obtain ⟨i, member, rfl⟩ := List.mem_map.mp listed
  rcases mem_keyItems member with ⟨k, -, rfl⟩ | ⟨key, s, rfl, -⟩
  · apply indented_return
    intro part listed
    obtain rfl := List.mem_singleton.mp listed
    apply indented_return
    intro part listed
    obtain ⟨i, member, rfl⟩ := List.mem_map.mp listed
    obtain ⟨-, ⟨key, n, rfl⟩ | ⟨key, n, rfl⟩ | ⟨key, rfl⟩⟩ := mem_paramItems member
    · exact natText_return n
    · exact int_return key n
    · exact quoted_return k.Salt
  · exact quoted_return s

/-- A mark in the text of a key file is in one of its strings. -/
theorem marshalIndent_mark {m : Bytes} (mark : Mark m 69) {cfg : KeyConfig}
    (inside : m <:+: marshalIndent cfg) :
    (∃ k ∈ cfg.KDF, m <:+: k.Salt) ∨
      ∃ s ∈ [cfg.Created, cfg.Modified, cfg.Data, cfg.Fingerprint, cfg.Hint], m <:+: s := by
  have key_free {key : Bytes} (missing : 69 ∉ key) : ¬ m <:+: key :=
    not_infix_of_mem mark.lettered missing
  obtain ⟨part, listed, there⟩ := mark.in_indented inside
  obtain ⟨i, member, rfl⟩ := List.mem_map.mp listed
  rcases mem_keyItems member with ⟨k, given, rfl⟩ | ⟨key, s, rfl, missing, listed⟩
  · left
    refine ⟨k, given, ?_⟩
    have name : 69 ∉ ascii "kdf" := by decide
    have there := there.resolve_left (key_free name)
    obtain ⟨part, listed, there⟩ := mark.in_indented there
    obtain rfl := List.mem_singleton.mp listed
    have tag : 69 ∉ k.KDF.tag := by cases k.KDF <;> decide
    have there := there.resolve_left (key_free tag)
    obtain ⟨part, listed, there⟩ := mark.in_indented there
    obtain ⟨i, member, rfl⟩ := List.mem_map.mp listed
    obtain ⟨missing, kind⟩ := mem_paramItems member
    have there := there.resolve_left (key_free missing)
    obtain ⟨key, n, rfl⟩ | ⟨key, n, rfl⟩ | ⟨key, rfl⟩ := kind
    · exact absurd there (mark.nat key n)
    · exact absurd there (mark.int key n)
    · exact mark.in_quoted there
  · right
    exact ⟨s, listed, mark.in_quoted (there.resolve_left (key_free missing))⟩

end ProxmoxBackup.KeyFile
