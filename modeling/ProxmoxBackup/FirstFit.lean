import Mathlib.Data.List.Perm.Basic
import Mathlib.Tactic.Common

/-! First-fit packing of items of a size into bins of a capacity. An item larger than the
capacity gets a bin of its own. -/
namespace ProxmoxBackup.FirstFit

variable {α : Type*} (size : α → Nat) (capacity : Nat)

def load : List α → Nat
  | [] => 0
  | x :: rest => size x + load rest

def place (x : α) : List (List α) → List (List α)
  | [] => [[x]]
  | bin :: rest =>
      if load size bin + size x ≤ capacity then (bin ++ [x]) :: rest
      else bin :: place x rest

def packInto (bins : List (List α)) (items : List α) : List (List α) :=
  items.foldl (fun bins x => place size capacity x bins) bins

def firstFit (items : List α) : List (List α) := packInto size capacity [] items

/-- A bin of several items is within the capacity. -/
def Packed (bins : List (List α)) : Prop :=
  ∀ bin ∈ bins, 1 < bin.length → load size bin ≤ capacity

variable {size capacity}

theorem load_append (first second : List α) :
    load size (first ++ second) = load size first + load size second := by
  induction first with
  | nil => exact (Nat.zero_add _).symm
  | cons x rest ih =>
      rw [List.cons_append, load, ih, load, Nat.add_assoc]

theorem load_perm {first second : List α} (same : first.Perm second) :
    load size first = load size second := by
  induction same with
  | nil => rfl
  | cons x _ ih => rw [load, load, ih]
  | swap x y rest =>
      rw [load, load, load, load]
      exact Nat.add_left_comm ..
  | trans _ _ first second => exact first.trans second

theorem place_perm (x : α) (bins : List (List α)) :
    (place size capacity x bins).flatten.Perm (bins.flatten ++ [x]) := by
  induction bins with
  | nil => exact .refl _
  | cons bin rest ih =>
      rw [place]
      split
      · rw [List.flatten_cons, List.flatten_cons, List.append_assoc, List.append_assoc]
        exact List.perm_append_comm.append_left bin
      · rw [List.flatten_cons, List.flatten_cons, List.append_assoc]
        exact ih.append_left bin

theorem packInto_perm (bins : List (List α)) (items : List α) :
    (packInto size capacity bins items).flatten.Perm (bins.flatten ++ items) := by
  induction items generalizing bins with
  | nil =>
      rw [List.append_nil]
      exact .refl _
  | cons x rest ih =>
      have placed := (@place_perm α size capacity x bins).append_right rest
      rw [List.append_assoc, List.singleton_append] at placed
      exact (ih _).trans placed

/-- Every item is in one bin. -/
theorem firstFit_perm (items : List α) : (firstFit size capacity items).flatten.Perm items :=
  packInto_perm [] items

theorem place_packed {x : α} {bins : List (List α)} (packed : Packed size capacity bins) :
    Packed size capacity (place size capacity x bins) := by
  induction bins with
  | nil =>
      intro bin listed several
      obtain rfl := List.mem_singleton.mp listed
      exact absurd several (Nat.lt_irrefl 1)
  | cons first rest ih =>
      rw [place]
      split
      · rename_i room
        intro bin listed several
        obtain rfl | later := List.mem_cons.mp listed
        · rw [load_append, load, load]
          exact room
        · exact packed bin (List.mem_cons_of_mem _ later) several
      · intro bin listed several
        obtain rfl | later := List.mem_cons.mp listed
        · exact packed bin List.mem_cons_self several
        · exact ih (fun bin listed => packed bin (List.mem_cons_of_mem _ listed)) bin later several

theorem firstFit_packed (items : List α) : Packed size capacity (firstFit size capacity items) := by
  have every (bins : List (List α)) (packed : Packed size capacity bins) :
      Packed size capacity (packInto size capacity bins items) := by
    induction items generalizing bins with
    | nil => exact packed
    | cons x rest ih => exact ih _ (place_packed packed)
  exact every [] nofun

end ProxmoxBackup.FirstFit
