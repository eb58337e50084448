import Mathlib.Order.Defs.LinearOrder
import Teleno.Library.KeyOrder

/-! # The order of byte strings

Byte strings are ordered lexicographically by the values of their bytes. The comparison that ordered
maps use agrees with that order. The instance is scoped: it is there where the order is used.
-/

namespace Teleno.Library.ByteOrder

theorem compare_eq_lt_iff (left right : List UInt8) : compare left right = .lt ↔ left < right := by
  induction left generalizing right with
  | nil => cases right <;> simp [compare, List.compareLex]
  | cons x xs ih =>
    cases right with
    | nil => simp [compare, List.compareLex]
    | cons y ys =>
      rw [KeyOrder.compare_cons, Ordering.then_eq_lt, ih, List.cons_lt_cons_iff, Std.LawfulEqCmp.compare_eq_iff_eq]
      exact or_congr_left compareOfLessAndEq_eq_lt

theorem isLE_compare_iff (left right : List UInt8) : (compare left right).isLE = true ↔ left ≤ right := by
  rw [← List.not_lt, ← compare_eq_lt_iff, ← Std.OrientedCmp.gt_iff_lt]
  cases compare left right <;> decide

scoped instance order : LinearOrder (List UInt8) where
  le_refl := List.le_refl
  le_trans _ _ _ := List.le_trans
  le_antisymm _ _ := List.le_antisymm
  le_total := List.le_total
  lt_iff_le_not_ge left right := by
    rw [List.not_le]
    exact ⟨fun less => ⟨List.le_of_lt less, less⟩, And.right⟩
  toDecidableLE := inferInstance
  toDecidableEq := inferInstance
  toDecidableLT := inferInstance
  compare_eq_compareOfLessAndEq left right := by
    rw [compareOfLessAndEq]
    split_ifs with less same
    · exact (compare_eq_lt_iff left right).mpr less
    · exact Std.LawfulEqCmp.compare_eq_iff_eq.mpr same
    · cases compared : compare left right with
      | lt => exact absurd ((compare_eq_lt_iff left right).mp compared) less
      | eq => exact absurd (Std.LawfulEqCmp.eq_of_compare compared) same
      | gt => rfl

end Teleno.Library.ByteOrder
