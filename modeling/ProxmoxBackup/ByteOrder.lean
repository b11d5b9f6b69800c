import Mathlib.Data.List.Basic

/-! The order of byte strings, byte by byte, with a string before its extensions. -/
namespace ProxmoxBackup.ByteOrder

def bytesLe : List UInt8 → List UInt8 → Bool
  | [], _ => true
  | _ :: _, [] => false
  | a :: s, b :: t => a < b || (a = b && bytesLe s t)

theorem byte_trichotomy (x y : UInt8) : x < y ∨ x = y ∨ y < x := by
  simp only [UInt8.lt_iff_toNat_lt]
  obtain less | same | more := Nat.lt_trichotomy x.toNat y.toNat
  · exact .inl less
  · exact .inr (.inl (UInt8.toNat.inj same))
  · exact .inr (.inr more)

theorem bytesLe_total (a b : List UInt8) : (bytesLe a b || bytesLe b a) = true := by
  induction a generalizing b with
  | nil => simp [bytesLe]
  | cons x s ih =>
      cases b with
      | nil => simp [bytesLe]
      | cons y t =>
          have rest := ih t
          obtain less | rfl | more := byte_trichotomy x y
          · simp [bytesLe, less]
          · simpa [bytesLe] using rest
          · simp [bytesLe, more]

theorem bytesLe_trans (a b c : List UInt8) (first : bytesLe a b = true) (second : bytesLe b c = true) :
    bytesLe a c = true := by
  induction a generalizing b c with
  | nil => rfl
  | cons x s ih =>
      cases b with
      | nil => cases first
      | cons y t =>
          cases c with
          | nil => cases second
          | cons z u =>
              simp only [bytesLe, Bool.or_eq_true, decide_eq_true_eq, Bool.and_eq_true] at *
              obtain less | ⟨rfl, tail⟩ := first
              · obtain less' | ⟨rfl, -⟩ := second
                · exact .inl (UInt8.lt_trans less less')
                · exact .inl less
              · obtain less' | ⟨rfl, tail'⟩ := second
                · exact .inl less'
                · exact .inr ⟨rfl, ih t u tail tail'⟩

theorem bytesLe_antisymm (a b : List UInt8) (first : bytesLe a b = true) (second : bytesLe b a = true) :
    a = b := by
  induction a generalizing b with
  | nil =>
      cases b with
      | nil => rfl
      | cons y t => cases second
  | cons x s ih =>
      cases b with
      | nil => cases first
      | cons y t =>
          simp only [bytesLe, Bool.or_eq_true, decide_eq_true_eq, Bool.and_eq_true] at *
          obtain less | ⟨rfl, tail⟩ := first
          · obtain less' | ⟨rfl, -⟩ := second
            · exact absurd (UInt8.lt_trans less less') (UInt8.lt_irrefl x)
            · exact absurd less (UInt8.lt_irrefl _)
          · obtain less' | ⟨-, tail'⟩ := second
            · exact absurd less' (UInt8.lt_irrefl x)
            · rw [ih t tail tail']

theorem bytesLe_prefix (a : List UInt8) (c : UInt8) (t : List UInt8) :
    bytesLe (a ++ c :: t) a = false := by
  induction a with
  | nil => rfl
  | cons x s ih =>
      rw [List.cons_append, bytesLe, ih]
      simp

end ProxmoxBackup.ByteOrder
