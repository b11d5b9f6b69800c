import Mathlib.Data.List.Perm.Subperm
import Mathlib.Data.List.Range

/-! Binary trees kept in an array: the root in slot 0, the children of slot `i`
in slots `2i + 1` and `2i + 2`. -/

namespace ProxmoxBackup.ImplicitTree

variable {α : Type}

/-- `writes` puts `items`, in order from left to right, into the slots of the
subtree at `i` of an array of `size` slots, and leaves none of them out. -/
inductive Fills (size : Nat) : Nat → List α → List (Nat × α) → Prop
  | outside {i : Nat} : size ≤ i → Fills size i [] []
  | node {i : Nat} {item : α} {before after : List α} {left right : List (Nat × α)} :
      i < size → Fills size (2 * i + 1) before left → Fills size (2 * i + 2) after right →
      Fills size i (before ++ item :: after) ((i, item) :: (left ++ right))

/-- The array after the writes. -/
def store (table : List α) (writes : List (Nat × α)) : List α :=
  writes.foldl (fun slots write => slots.set write.1 write.2) table

theorem store_append (table : List α) (first second : List (Nat × α)) :
    store table (first ++ second) = store (store table first) second :=
  List.foldl_append

@[simp] theorem store_length (table : List α) (writes : List (Nat × α)) :
    (store table writes).length = table.length := by
  induction writes generalizing table with
  | nil => rfl
  | cons write rest ih => exact (ih (table.set write.1 write.2)).trans List.length_set

theorem store_other (table : List α) (writes : List (Nat × α)) (slot : Nat)
    (untouched : slot ∉ writes.map Prod.fst) : (store table writes)[slot]? = table[slot]? := by
  induction writes generalizing table with
  | nil => rfl
  | cons write rest ih =>
      rw [List.map_cons, List.mem_cons, not_or] at untouched
      exact (ih (table.set write.1 write.2) untouched.2).trans
        (List.getElem?_set_ne (Ne.symm untouched.1))

/-- A slot written once holds what was written. -/
theorem store_slot (table : List α) (writes : List (Nat × α)) (slot : Nat) (item : α)
    (once : (writes.map Prod.fst).Nodup) (member : (slot, item) ∈ writes)
    (inside : slot < table.length) : (store table writes)[slot]? = some item := by
  induction writes generalizing table with
  | nil => exact absurd member List.not_mem_nil
  | cons write rest ih =>
      obtain ⟨apart, restOnce⟩ := List.nodup_cons.mp once
      rcases List.mem_cons.mp member with rfl | later
      · exact (store_other (table.set slot item) rest slot apart).trans
          (List.getElem?_set_self inside)
      · exact ih (table.set write.1 write.2) restOnce later
          (by rwa [List.length_set])

theorem Fills.items_perm {size i : Nat} {items : List α} {writes : List (Nat × α)}
    (fills : Fills size i items writes) : (writes.map Prod.snd).Perm items := by
  induction fills with
  | outside past => exact List.Perm.nil
  | node inside left right ihLeft ihRight =>
      rw [List.map_cons, List.map_append]
      exact ((ihLeft.append ihRight).cons _).trans List.perm_middle.symm

theorem Fills.inside {size i : Nat} {items : List α} {writes : List (Nat × α)}
    (fills : Fills size i items writes) : ∀ write ∈ writes, write.1 < size := by
  induction fills with
  | outside past => exact fun write member => absurd member List.not_mem_nil
  | node inside left right ihLeft ihRight =>
      intro write member
      rcases List.mem_cons.mp member with rfl | below
      · exact inside
      · rcases List.mem_append.mp below with below | below
        · exact ihLeft write below
        · exact ihRight write below

theorem Fills.root {size i : Nat} {items : List α} {writes : List (Nat × α)}
    (fills : Fills size i items writes) (inside : i < size) : i ∈ writes.map Prod.fst := by
  cases fills with
  | outside past => omega
  | node inside left right => exact List.mem_cons_self

/-- With a slot, its children that lie inside the array are written too. -/
theorem Fills.children {size i : Nat} {items : List α} {writes : List (Nat × α)}
    (fills : Fills size i items writes) {slot : Nat} (written : slot ∈ writes.map Prod.fst)
    {child : Nat} (below : child = 2 * slot + 1 ∨ child = 2 * slot + 2) (inside : child < size) :
    child ∈ writes.map Prod.fst := by
  induction fills with
  | outside past => exact absurd written List.not_mem_nil
  | node _ left right ihLeft ihRight =>
      rw [List.map_cons, List.map_append, List.mem_cons, List.mem_append] at written ⊢
      rcases written with rfl | written | written
      · rcases below with rfl | rfl
        · exact Or.inr (Or.inl (left.root inside))
        · exact Or.inr (Or.inr (right.root inside))
      · exact Or.inr (Or.inl (ihLeft written))
      · exact Or.inr (Or.inr (ihRight written))

theorem Fills.covers {size : Nat} {items : List α} {writes : List (Nat × α)}
    (fills : Fills size 0 items writes) (slot : Nat) (inside : slot < size) :
    slot ∈ writes.map Prod.fst := by
  induction slot using Nat.strongRecOn with
  | _ slot ih =>
      rcases Nat.eq_zero_or_pos slot with rfl | positive
      · exact fills.root inside
      · exact fills.children (ih ((slot - 1) / 2) (by omega) (by omega)) (by omega) inside

/-- A tree that fills the whole array writes each slot exactly once. -/
theorem Fills.slots_perm {size : Nat} {items : List α} {writes : List (Nat × α)}
    (fills : Fills size 0 items writes) (enough : items.length = size) :
    (writes.map Prod.fst).Perm (List.range size) := by
  have counted : (writes.map Prod.fst).length = size := by
    rw [List.length_map, ← enough, ← fills.items_perm.length_eq, List.length_map]
  have within : List.range size ⊆ writes.map Prod.fst :=
    fun slot member => fills.covers slot (List.mem_range.mp member)
  exact ((List.nodup_range.subperm within).perm_of_length_le (by simp [counted])).symm

theorem Fills.store_slot {size : Nat} {items table : List α} {writes : List (Nat × α)}
    (fills : Fills size 0 items writes) (enough : items.length = size)
    (room : table.length = size) : ∀ write ∈ writes,
      (store table writes)[write.1]? = some write.2 := by
  intro write member
  exact ImplicitTree.store_slot table writes write.1 write.2
    ((fills.slots_perm enough).nodup_iff.mpr List.nodup_range) member
    (room ▸ fills.inside write member)

theorem slots_in_turn (table : List α) :
    (List.range table.length).filterMap (fun slot => table[slot]?) = table := by
  induction table using List.reverseRecOn with
  | nil => rfl
  | append_singleton front last ih =>
      rw [List.length_append, List.length_singleton, List.range_succ, List.filterMap_append]
      have same : ∀ slot ∈ List.range front.length, (front ++ [last])[slot]? = front[slot]? :=
        fun slot member => List.getElem?_append_left (List.mem_range.mp member)
      rw [List.filterMap_congr same, ih]
      simp

/-- The filled array is a rearrangement of the items. -/
theorem Fills.store_perm {size : Nat} {items table : List α} {writes : List (Nat × α)}
    (fills : Fills size 0 items writes) (enough : items.length = size)
    (room : table.length = size) : (store table writes).Perm items := by
  have slots : writes.map Prod.snd =
      (writes.map Prod.fst).filterMap fun slot => (store table writes)[slot]? := by
    rw [List.filterMap_map]
    have each : ∀ write ∈ writes, ((fun slot => (store table writes)[slot]?) ∘ Prod.fst) write =
        some write.2 := fills.store_slot enough room
    rw [List.filterMap_congr each, List.filterMap_eq_map']
  have whole := slots_in_turn (store table writes)
  rw [store_length, room] at whole
  exact ((whole ▸ (fills.slots_perm enough).filterMap _).symm.trans
    (List.Perm.of_eq slots.symm)).trans fills.items_perm

end ProxmoxBackup.ImplicitTree
