import Mathlib.Algebra.Order.Ring.Int

/-! # Heights of the skip list

A block at height `h` points to its ancestors at the heights `h - 2 ^ i`, for `i` up to the number of trailing
zeros of `h`. A search follows the longest pointer that does not pass its goal.
-/

namespace Teleno.BlockStore

/-- The number of trailing zeros among the lowest bits. -/
def trailingZeros : ℕ → ℕ → ℕ
  | 0, _ => 0
  | bits + 1, n => if n % 2 = 0 then trailingZeros bits (n / 2) + 1 else 0

/-- `std::countr_zero` of a `uint64_t`. -/
def countrZero (n : ℕ) : ℕ := trailingZeros 64 n

theorem two_pow_trailingZeros_le (bits : ℕ) {n : ℕ} (positive : 0 < n) : 2 ^ trailingZeros bits n ≤ n := by
  induction bits generalizing n with
  | zero => exact positive
  | succ bits ih =>
    rw [trailingZeros]
    split_ifs with even
    · have half := @ih (n / 2) (by omega)
      rw [pow_succ]
      omega
    · exact positive

theorem two_pow_le {n i : ℕ} (positive : 0 < n) (small : i ≤ countrZero n) : 2 ^ i ≤ n :=
  (Nat.pow_le_pow_right Nat.two_pos small).trans (two_pow_trailingZeros_le 64 positive)

def getPreviousHeights (height : ℕ) : List ℕ :=
  if height = 0 then [] else (List.range (countrZero height + 1)).map fun i => height - 2 ^ i

theorem getElem?_getPreviousHeights {height i : ℕ} (positive : 0 < height) (small : i ≤ countrZero height) :
    (getPreviousHeights height)[i]? = some (height - 2 ^ i) := by
  rw [getPreviousHeights, if_neg (by omega), List.getElem?_map, List.getElem?_range (by omega), Option.map_some]

/-- The loop of `get_previous_height_index` over the remaining indices, with the last index and height. -/
def previousHeightLoop (goal current : ℕ) : List ℕ → ℤ × ℕ → ℤ × ℕ
  | [], last => last
  | i :: rest, last =>
    let h := current - 2 ^ i
    if h < goal then ((i : ℤ) - 1, last.2) else previousHeightLoop goal current rest (i, h)

/-- The index of the pointer to follow and the height it leads to; the goal must be lower. -/
def getPreviousHeightIndex (goal current : ℕ) : Option (ℤ × ℕ) :=
  if current ≤ goal then none
  else some (previousHeightLoop goal current (List.range (countrZero current + 1)) (0, 0))

/-- From an index on, the loop ends at the last index that does not pass the goal. -/
theorem previousHeightLoop_range' {goal current : ℕ} (count i : ℕ) (below : goal ≤ current - 2 ^ i) :
    ∃ j, i ≤ j ∧ j ≤ i + count ∧ goal ≤ current - 2 ^ j ∧
      previousHeightLoop goal current (List.range' (i + 1) count) (i, current - 2 ^ i) =
        ((j : ℤ), current - 2 ^ j) := by
  induction count generalizing i with
  | zero => exact ⟨i, le_rfl, le_rfl, below, rfl⟩
  | succ count ih =>
    rw [List.range'_succ, previousHeightLoop]
    split_ifs with reaches
    · refine ⟨i, le_rfl, by omega, below, ?_⟩
      push_cast
      rw [add_sub_cancel_right]
    · obtain ⟨j, le, bound, reaches', ends⟩ := ih (i + 1) (by omega)
      exact ⟨j, by omega, by omega, reaches', ends⟩

theorem getPreviousHeightIndex_of_lt {goal current : ℕ} (lower : goal < current) :
    ∃ i ≤ countrZero current, goal ≤ current - 2 ^ i ∧
      getPreviousHeightIndex goal current = some ((i : ℤ), current - 2 ^ i) := by
  have first : goal ≤ current - 2 ^ 0 := by rw [pow_zero]; omega
  obtain ⟨j, -, bound, reaches, ends⟩ := previousHeightLoop_range' (countrZero current) 0 first
  refine ⟨j, by omega, reaches, ?_⟩
  rw [getPreviousHeightIndex, if_neg (by omega), List.range_eq_range', List.range'_succ, previousHeightLoop,
    if_neg (by omega)]
  exact congrArg some ends

end Teleno.BlockStore
