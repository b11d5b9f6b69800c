import ProxmoxBackup.ImplicitTree
import Mathlib.Tactic.Ring

/-! A directory's goodbye table: ca_make_bst of pbscommon/pxar.go lays the
sorted items out as an implicit tree, findChildSpan of pbscommon/pxar_reader.go
walks it. uint64 values are natural numbers; a subtraction below zero, a shift
past the word and an index outside its slice are `none`. The other sums stay in
the word: a slice has fewer than 2^63 elements. -/

namespace ProxmoxBackup.GoodbyeTable

open ImplicitTree

structure GoodByeItem where
  hash : Nat
  offset : Nat
  len : Nat
  deriving DecidableEq

def checkedSub (a b : Nat) : Option Nat := if b ≤ a then some (a - b) else none

def powOf2 (e : Nat) : Option Nat := if e < 64 then some (2 ^ e) else none

def leadingZeros64 (k : Nat) : Nat := 64 - if k = 0 then 0 else k.log2 + 1

/-- The uint64 difference, which wraps for `k = 0`. -/
def logOf2 (k : Nat) : Nat := (8 * 8 - leadingZeros64 k + (2 ^ 64 - 1)) % 2 ^ 64

/-- The output slice, and every assignment made to it. -/
structure Output where
  slots : List GoodByeItem
  written : List (Nat × GoodByeItem)
  deriving DecidableEq

def Output.write (output : Output) (i : Nat) (item : GoodByeItem) : Option Output :=
  if i < output.slots.length then
    some ⟨output.slots.set i item, output.written ++ [(i, item)]⟩
  else none

/-- The item that becomes the root of `n`, with p = 2^(e-1) and q = 2^e. -/
def rootIndex (n p q : Nat) : Option Nat := do
  let half := (← checkedSub q 2) / 2
  if n ≥ p - 1 + p / 2 then some half
  else
    let v ← checkedSub (p - 1 + p / 2) n
    checkedSub half v

def makeBstInner (input : List GoodByeItem) (n e : Nat) (output : Output) (i : Nat) :
    Option Output :=
  if n = 0 then some output
  else
    match e with
    | 0 => none
    | e + 1 => do
        let p ← powOf2 e
        let q ← powOf2 (e + 1)
        let k ← rootIndex n p q
        let item ← input[k]?
        let rooted ← output.write i item
        let left ← makeBstInner input k e rooted (i * 2 + 1)
        let more ← checkedSub n (k + 1)
        makeBstInner (input.drop (k + 1)) more e left (i * 2 + 2)

def caMakeBst (input : List GoodByeItem) (output : Output) : Option Output :=
  let n := input.length
  makeBstInner input n ((logOf2 n + 1) % 2 ^ 64) output 0

/-- findChildSpan's loop over a table of entries: the slot it stops at, none
when it leaves the table. -/
def findEntry (table : List GoodByeItem) (target i : Nat) : Option Nat :=
  match _entry : table[i]? with
  | none => none
  | some item =>
      if target = item.hash then some i
      else if target < item.hash then findEntry table target (i * 2 + 1)
      else findEntry table target (i * 2 + 2)
termination_by table.length - i
decreasing_by
  all_goals
    obtain ⟨inside, _⟩ := List.getElem?_eq_some_iff.mp _entry
    omega

/-- A call's place in a table of `size` slots: its subtree, at slot `m - 1`, has
nothing `e` levels down, all of the level above the last, and `n` items. -/
structure Fits (size n e m : Nat) : Prop where
  deep : size < m * 2 ^ e
  full : 2 ≤ e → (m + 1) * 2 ^ (e - 2) ≤ size + 1
  count : n + 1 = 2 ^ (e - 1) + min (2 ^ (e - 1)) (size + 1 - m * 2 ^ (e - 1))

theorem leadingZeros64_pos (k : Nat) (some : k ≠ 0) : leadingZeros64 k = 63 - k.log2 := by
  rw [leadingZeros64, if_neg some]
  omega

theorem log2_lt_word (k : Nat) (some : k ≠ 0) (word : k < 2 ^ 63) : k.log2 < 63 :=
  (Nat.log2_lt some).mpr word

theorem exponent_eq (k : Nat) (word : k < 2 ^ 63) :
    (logOf2 k + 1) % 2 ^ 64 = if k = 0 then 0 else k.log2 + 1 := by
  by_cases none : k = 0
  · subst none
    decide
  · have small := log2_lt_word k none word
    rw [if_neg none, logOf2, leadingZeros64_pos k none]
    omega

/-- The whole table is the subtree at its root. -/
theorem root_fits (size : Nat) (word : size < 2 ^ 63) :
    Fits size size ((logOf2 size + 1) % 2 ^ 64) 1 := by
  rw [exponent_eq size word]
  by_cases none : size = 0
  · subst none
    exact ⟨by decide, by decide, by decide⟩
  · rw [if_neg none]
    have least := Nat.log2_self_le none
    have most : size < 2 ^ (size.log2 + 1) := Nat.lt_log2_self
    refine ⟨by rwa [Nat.one_mul], ?_, ?_⟩
    · intro deep
      obtain ⟨level, same⟩ : ∃ level, size.log2 = level + 1 := ⟨size.log2 - 1, by omega⟩
      rw [same, Nat.pow_succ] at least
      rw [same, show level + 1 + 1 - 2 = level by omega]
      omega
    · rw [Nat.pow_succ] at most
      rw [Nat.add_sub_cancel, Nat.one_mul]
      omega

/-- An empty call is one outside the table. -/
theorem Fits.outside {size e m : Nat} (fits : Fits size 0 e m) : size < m := by
  have count := fits.count
  have positive := Nat.two_pow_pos (e - 1)
  have one : 2 ^ (e - 1) = 1 := by omega
  rw [one] at count
  omega

theorem Fits.inside {size n e m : Nat} (fits : Fits size n e m) (items : n ≠ 0) :
    m ≤ size ∧ e ≠ 0 := by
  have count := fits.count
  rcases e with _ | _ | e
  · have deep := fits.deep
    simp only [Nat.zero_sub, Nat.pow_zero, Nat.mul_one] at count deep
    omega
  · simp only [Nat.zero_add, Nat.sub_self, Nat.pow_zero, Nat.mul_one] at count
    omega
  · have full := fits.full (by omega)
    have wide : m + 1 ≤ (m + 1) * 2 ^ (e + 1 + 1 - 2) :=
      Nat.le_mul_of_pos_right _ (Nat.two_pow_pos _)
    omega

/-- With the left child's last level full the root is the middle item. -/
theorem rootIndex_full {n w : Nat} (positive : 0 < w) (many : 3 * w ≤ n + 1) :
    rootIndex n (2 * w) (4 * w) = some (2 * w - 1) := by
  have half : (4 * w - 2) / 2 = 2 * w - 1 := by omega
  rw [rootIndex, checkedSub, if_pos (show 2 ≤ 4 * w by omega)]
  simp only [bind, Option.bind, ge_iff_le]
  rw [if_pos (show 2 * w - 1 + 2 * w / 2 ≤ n by omega), half]

/-- With it not full the right child has none of that level. -/
theorem rootIndex_short {n w : Nat} (least : w ≤ n) (few : n + 1 < 3 * w) :
    rootIndex n (2 * w) (4 * w) = some (n - w) := by
  have half : (4 * w - 2) / 2 = 2 * w - 1 := by omega
  have missing : 2 * w - 1 + 2 * w / 2 = 3 * w - 1 := by omega
  rw [rootIndex, checkedSub, if_pos (show 2 ≤ 4 * w by omega)]
  simp only [bind, Option.bind, ge_iff_le]
  rw [half, missing, if_neg (show ¬3 * w - 1 ≤ n by omega), checkedSub,
    if_pos (show n ≤ 3 * w - 1 by omega)]
  dsimp only
  rw [checkedSub, if_pos (show 3 * w - 1 - n ≤ 2 * w - 1 by omega)]
  congr 1
  omega

/-- Of `d` slots of the last level the left child takes up to `w`, the right one the rest. -/
theorem rootIndex_splits {n w d : Nat} (positive : 0 < w) (count : n + 1 = 2 * w + min (2 * w) d) :
    ∃ k, rootIndex n (2 * w) (4 * w) = some k ∧ k + 1 ≤ n ∧ k + 1 = w + min w d ∧
      n - (k + 1) + 1 = w + min w (d - w) := by
  rcases Nat.le_total w d with many | few
  · rw [Nat.min_eq_left many]
    have rest : min (2 * w) d = w + min w (d - w) := by omega
    exact ⟨2 * w - 1, rootIndex_full positive (by omega), by omega, by omega, by omega⟩
  · rw [Nat.min_eq_right (show d ≤ 2 * w by omega)] at count
    rw [Nat.min_eq_right few, Nat.sub_eq_zero_of_le few, Nat.min_zero]
    rcases Nat.eq_or_lt_of_le few with rfl | few
    · exact ⟨2 * d - 1, rootIndex_full positive (by omega), by omega, by omega, by omega⟩
    · exact ⟨n - w, rootIndex_short (by omega) (by omega), by omega, by omega, by omega⟩

/-- The item a call takes as its root splits the others as its subtrees need. -/
theorem Fits.split {size n e m : Nat} (fits : Fits size n (e + 1) m) (items : n ≠ 0) :
    ∃ k, rootIndex n (2 ^ e) (2 ^ (e + 1)) = some k ∧ k + 1 ≤ n ∧
      Fits size k e (2 * m) ∧ Fits size (n - (k + 1)) e (2 * m + 1) := by
  have count := fits.count
  have deep := fits.deep
  rcases e with _ | e
  · simp only [Nat.zero_add, Nat.sub_self, Nat.pow_zero, Nat.pow_one, Nat.mul_one] at count deep
    obtain rfl : n = 1 := by omega
    refine ⟨0, by decide, Nat.le_refl _, ⟨by omega, by omega, ?_⟩, ⟨by omega, by omega, ?_⟩⟩
    · simp only [Nat.zero_sub, Nat.pow_zero, Nat.mul_one]
      omega
    · simp only [Nat.zero_sub, Nat.pow_zero, Nat.mul_one]
      omega
  · have full := fits.full (by omega)
    -- everything in terms of the width `w` of a child's last level and `m * w`
    obtain ⟨w, wide⟩ : ∃ w, 2 ^ e = w := ⟨_, rfl⟩
    obtain ⟨x, start⟩ : ∃ x, m * w = x := ⟨_, rfl⟩
    have positive : 0 < w := wide ▸ Nat.two_pow_pos e
    have p : 2 ^ (e + 1) = 2 * w := by rw [Nat.pow_succ, wide, Nat.mul_comm]
    have q : 2 ^ (e + 1 + 1) = 4 * w := by rw [Nat.pow_succ, p]; omega
    have doubled : m * (2 * w) = 2 * x := by rw [← start]; ring
    have fourfold : m * (4 * w) = 4 * x := by rw [← start]; ring
    have above : (m + 1) * w = x + w := by rw [← start]; ring
    rw [show e + 1 + 1 - 2 = e by omega, wide, above] at full
    rw [Nat.add_sub_cancel, p, doubled] at count
    rw [q, fourfold] at deep
    obtain ⟨k, chosen, least, count_left, count_right⟩ := rootIndex_splits positive count
    rw [Nat.sub_sub] at count_right
    have left : 2 * m * w = 2 * x := by rw [← start]; ring
    have right : (2 * m + 1) * w = 2 * x + w := by rw [← start]; ring
    refine ⟨k, by rwa [p, q], least, ⟨?_, ?_, ?_⟩, ⟨?_, ?_, ?_⟩⟩
    · rw [p, show 2 * m * (2 * w) = 4 * x by rw [← start]; ring]
      exact deep
    · intro more
      obtain ⟨level, rfl⟩ : ∃ level, e = level + 1 := ⟨e - 1, by omega⟩
      rw [show level + 1 + 1 - 2 = level by omega]
      rw [Nat.pow_succ] at wide
      have half : (2 * m + 1) * 2 ^ level = x + 2 ^ level := by
        rw [← start, ← wide]
        ring
      omega
    · rwa [Nat.add_sub_cancel, wide, left]
    · rw [p, show (2 * m + 1) * (2 * w) = 4 * x + 2 * w by rw [← start]; ring]
      omega
    · intro more
      obtain ⟨level, rfl⟩ : ∃ level, e = level + 1 := ⟨e - 1, by omega⟩
      rw [show level + 1 + 1 - 2 = level by omega]
      rw [Nat.pow_succ] at wide
      have whole : (2 * m + 1 + 1) * 2 ^ level = x + w := by
        rw [← start, ← wide]
        ring
      omega
    · rwa [Nat.add_sub_cancel, wide, right]

def Output.store (output : Output) (writes : List (Nat × GoodByeItem)) : Output :=
  ⟨ImplicitTree.store output.slots writes, output.written ++ writes⟩

theorem Output.write_eq (output : Output) (i : Nat) (item : GoodByeItem)
    (inside : i < output.slots.length) : output.write i item = some (output.store [(i, item)]) :=
  if_pos inside

theorem Output.store_store (output : Output) (first second : List (Nat × GoodByeItem)) :
    (output.store first).store second = output.store (first ++ second) := by
  simp only [Output.store, store_append, List.append_assoc]

theorem take_around (input : List GoodByeItem) (n k : Nat) (item : GoodByeItem)
    (least : k + 1 ≤ n) (here : input[k]? = some item) :
    input.take n = input.take k ++ item :: (input.drop (k + 1)).take (n - (k + 1)) := by
  obtain ⟨inside, held⟩ := List.getElem?_eq_some_iff.mp here
  obtain ⟨more, rfl⟩ : ∃ more, n = k + (more + 1) := ⟨n - (k + 1), by omega⟩
  rw [List.take_add, List.drop_eq_getElem_cons inside, held, List.take_succ_cons,
    show k + (more + 1) - (k + 1) = more by omega]

/-- A call fills its subtree with its first `n` items. -/
theorem makeBstInner_fills {size n e i : Nat} (input : List GoodByeItem) (output : Output)
    (fits : Fits size n e (i + 1)) (word : e < 64) (enough : n ≤ input.length)
    (room : output.slots.length = size) :
    ∃ writes, Fills size i (input.take n) writes ∧
      makeBstInner input n e output i = some (output.store writes) := by
  induction e generalizing n i input output with
  | zero =>
      by_cases items : n = 0
      · subst items
        refine ⟨[], Fills.outside (Nat.lt_succ_iff.mp fits.outside), ?_⟩
        simp [makeBstInner, Output.store, ImplicitTree.store]
      · exact absurd rfl (fits.inside items).2
  | succ e ih =>
      by_cases items : n = 0
      · subst items
        refine ⟨[], Fills.outside (Nat.lt_succ_iff.mp fits.outside), ?_⟩
        simp [makeBstInner, Output.store, ImplicitTree.store]
      · obtain ⟨k, chosen, least, fitsLeft, fitsRight⟩ := fits.split items
        have inside : i < size := (fits.inside items).1
        have here : input[k]? = some input[k] := List.getElem?_eq_getElem (by omega)
        obtain ⟨left, fillsLeft, ranLeft⟩ := ih (i := i * 2 + 1) input
          (output.store [(i, input[k])])
          (by rwa [show i * 2 + 1 + 1 = 2 * (i + 1) by omega]) (by omega) (by omega)
          (by simpa [Output.store] using room)
        obtain ⟨right, fillsRight, ranRight⟩ := ih (i := i * 2 + 2) (input.drop (k + 1))
          ((output.store [(i, input[k])]).store left)
          (by rwa [show i * 2 + 2 + 1 = 2 * (i + 1) + 1 by omega]) (by omega)
          (by rw [List.length_drop]; omega) (by simpa [Output.store] using room)
        refine ⟨(i, input[k]) :: (left ++ right), ?_, ?_⟩
        · rw [take_around input n k input[k] least here]
          rw [Nat.mul_comm] at fillsLeft fillsRight
          exact Fills.node inside fillsLeft fillsRight
        · rw [makeBstInner, if_neg items]
          simp only [powOf2, if_pos word, if_pos (Nat.lt_of_succ_lt word), chosen, here,
            output.write_eq i input[k] (room ▸ inside), ranLeft, checkedSub, if_pos least,
            ranRight, bind, Option.bind]
          rw [Output.store_store, Output.store_store]
          rfl

theorem findEntry_here (table : List GoodByeItem) (target i : Nat) (item : GoodByeItem)
    (here : table[i]? = some item) :
    findEntry table target i =
      if target = item.hash then some i
      else if target < item.hash then findEntry table target (i * 2 + 1)
      else findEntry table target (i * 2 + 2) := by
  rw [findEntry]
  split
  · next nothing => rw [here] at nothing; cases nothing
  · next item' found =>
      rw [here] at found
      cases found
      rfl

theorem findEntry_outside (table : List GoodByeItem) (target i : Nat)
    (outside : table.length ≤ i) : findEntry table target i = none := by
  rw [findEntry]
  split
  · rfl
  · next item found =>
      rw [List.getElem?_eq_none outside] at found
      cases found

/-- In a subtree filled with items in order the loop stops where its target is,
or nowhere. -/
theorem findEntry_spec {i : Nat} {items table : List GoodByeItem}
    {writes : List (Nat × GoodByeItem)} (fills : Fills table.length i items writes)
    (held : ∀ write ∈ writes, table[write.1]? = some write.2)
    (sorted : items.Pairwise fun a b => a.hash < b.hash) (target : Nat) :
    (∀ slot item, (slot, item) ∈ writes → item.hash = target →
      findEntry table target i = some slot) ∧
    ((∀ item ∈ items, item.hash ≠ target) → findEntry table target i = none) := by
  induction fills with
  | outside past =>
      refine ⟨fun slot item member => absurd member List.not_mem_nil, fun _ => ?_⟩
      exact findEntry_outside table target _ past
  | @node i item before after left right inside fillsLeft fillsRight ihLeft ihRight =>
      have here := findEntry_here table target i item (held (i, item) List.mem_cons_self)
      obtain ⟨sortedLeft, sortedRest, across⟩ := List.pairwise_append.mp sorted
      obtain ⟨least, sortedRight⟩ := List.pairwise_cons.mp sortedRest
      obtain ⟨foundLeft, absentLeft⟩ := ihLeft
        (fun write member =>
          held write (List.mem_cons_of_mem _ (List.mem_append_left _ member))) sortedLeft
      obtain ⟨foundRight, absentRight⟩ := ihRight
        (fun write member =>
          held write (List.mem_cons_of_mem _ (List.mem_append_right _ member))) sortedRight
      rw [Nat.mul_comm] at foundLeft absentLeft foundRight absentRight
      refine ⟨?_, ?_⟩
      · intro slot sought member same
        rcases List.mem_cons.mp member with self | member
        · cases self
          rw [here, if_pos same.symm]
        · rcases List.mem_append.mp member with member | member
          · have below := across sought (fillsLeft.items_perm.subset
              (List.mem_map_of_mem (f := Prod.snd) member)) item List.mem_cons_self
            rw [here, if_neg (by omega), if_pos (by omega)]
            exact foundLeft slot sought member same
          · have above := least sought (fillsRight.items_perm.subset
              (List.mem_map_of_mem (f := Prod.snd) member))
            rw [here, if_neg (by omega), if_neg (by omega)]
            exact foundRight slot sought member same
      · intro absent
        have other := absent item (by simp)
        rw [here, if_neg (Ne.symm other)]
        split
        · exact absentLeft fun sought member => absent sought (by simp [member])
        · exact absentRight fun sought member => absent sought (by simp [member])

/-- For every slice of items sorted by distinct hashes ca_make_bst ends without
a wrapped subtraction or an index outside its slices, assigns each slot once,
and the table it leaves, a rearrangement of the items, is one in which the loop
of findChildSpan finds each item at its slot and nothing else. -/
theorem bst_layout_and_search (items output : List GoodByeItem) (word : items.length < 2 ^ 63)
    (room : output.length = items.length)
    (sorted : items.Pairwise fun a b => a.hash < b.hash) :
    ∃ table written, caMakeBst items ⟨output, []⟩ = some ⟨table, written⟩ ∧
      (written.map Prod.fst).Perm (List.range items.length) ∧
      table.Perm items ∧
      (∀ slot item, table[slot]? = some item → findEntry table item.hash 0 = some slot) ∧
      ∀ target, (∀ item ∈ items, item.hash ≠ target) → findEntry table target 0 = none := by
  have small : (logOf2 items.length + 1) % 2 ^ 64 < 64 := by
    rw [exponent_eq _ word]
    split
    · decide
    · next some =>
        have below := log2_lt_word _ some word
        omega
  obtain ⟨writes, fills, ran⟩ := makeBstInner_fills items ⟨output, []⟩
    (root_fits items.length word) small (Nat.le_refl _) room
  rw [List.take_length] at fills
  have held := fills.store_slot rfl room
  have slots := fills.slots_perm rfl
  have size : (store output writes).length = items.length := (store_length _ _).trans room
  have spec (target : Nat) :=
    @findEntry_spec 0 items (store output writes) writes (size ▸ fills) held sorted target
  refine ⟨store output writes, writes, ran, slots, fills.store_perm rfl room, ?_, ?_⟩
  · intro slot item here
    obtain ⟨inside, -⟩ := List.getElem?_eq_some_iff.mp here
    obtain ⟨write, member, rfl⟩ :=
      List.mem_map.mp (slots.symm.subset (List.mem_range.mpr (size ▸ inside)))
    obtain rfl : write.2 = item := Option.some.inj ((held write member).symm.trans here)
    exact (spec write.2.hash).1 write.1 write.2 member rfl
  · intro target absent
    exact (spec target).2 absent

theorem bst_layout_of_six :
    let items := [2, 3, 5, 7, 11, 13].map fun hash => GoodByeItem.mk hash 0 0
    ∃ table written, caMakeBst items ⟨List.replicate 6 ⟨0, 0, 0⟩, []⟩ = some ⟨table, written⟩ ∧
      (written.map Prod.fst).Perm (List.range 6) ∧ table.Perm items ∧
      (∀ slot item, table[slot]? = some item → findEntry table item.hash 0 = some slot) ∧
      ∀ target, (∀ item ∈ items, item.hash ≠ target) → findEntry table target 0 = none :=
  bst_layout_and_search ([2, 3, 5, 7, 11, 13].map fun hash => GoodByeItem.mk hash 0 0)
    (List.replicate 6 ⟨0, 0, 0⟩) (by decide) (by decide) (by decide)

example : (caMakeBst ([2, 3, 5, 7, 11, 13].map fun hash => GoodByeItem.mk hash 0 0)
    ⟨List.replicate 6 ⟨0, 0, 0⟩, []⟩).map (fun output => output.slots.map GoodByeItem.hash) =
    some [7, 3, 13, 2, 5, 11] := by decide

end ProxmoxBackup.GoodbyeTable
