import Mathlib.Algebra.BigOperators.Group.Finset.Basic
import Mathlib.Data.Nat.Log

/-! # The price of a Merkle root

Checking a Merkle root is charged by the number of hashes of its tree. The count is computed by a recursion on machine
words that rounds up to even numbers and stops early at a power of two.
-/

namespace Teleno.Chain

def evenLeaves (leaves : UInt64) : UInt64 := (leaves + 1) / 2 * 2

theorem toNat_evenLeaves_le (leaves : UInt64) : (evenLeaves leaves).toNat ≤ leaves.toNat + 1 := by
  have sum : (leaves + 1).toNat ≤ leaves.toNat + 1 := by
    rw [UInt64.toNat_add]
    exact Nat.mod_le _ _
  rw [evenLeaves, UInt64.toNat_mul, UInt64.toNat_div]
  exact (Nat.mod_le _ _).trans ((Nat.div_mul_le_self _ _).trans sum)

def hashesPerLeaves (leaves : UInt64) : UInt64 :=
  if leaves ≤ 2 then 1
  else if evenLeaves leaves &&& (evenLeaves leaves - 1) = 0 then evenLeaves leaves - 1
  else evenLeaves leaves / 2 + hashesPerLeaves (evenLeaves leaves / 2)
termination_by leaves.toNat
decreasing_by
  rename_i more _
  have rounded := toNat_evenLeaves_le leaves
  have many : ¬leaves.toNat ≤ 2 := more
  rw [UInt64.toNat_div]
  change (evenLeaves leaves).toNat / 2 < leaves.toNat
  omega

/-- Rounding up to an even number, and what the test for a power of two subtracts, do not wrap. -/
structure ExactRounding (leaves : UInt64) : Prop where
  next : (leaves + 1).toNat = leaves.toNat + 1
  doubled : (evenLeaves leaves).toNat = (leaves.toNat + 1) / 2 * 2
  before : (evenLeaves leaves - 1).toNat + 1 = (evenLeaves leaves).toNat

/-- No sum, product or difference of the recursion wraps. -/
inductive ExactSteps : UInt64 → Prop
  | small {leaves : UInt64} (few : leaves ≤ 2) : ExactSteps leaves
  | cut {leaves : UInt64} (rounding : ExactRounding leaves)
      (power : evenLeaves leaves &&& (evenLeaves leaves - 1) = 0) : ExactSteps leaves
  | step {leaves : UInt64} (rounding : ExactRounding leaves)
      (sum : (evenLeaves leaves / 2 + hashesPerLeaves (evenLeaves leaves / 2)).toNat =
        (evenLeaves leaves / 2).toNat + (hashesPerLeaves (evenLeaves leaves / 2)).toNat)
      (rest : ExactSteps (evenLeaves leaves / 2)) : ExactSteps leaves

/-- The hashes of the padded tree, level by level above the leaves. -/
def treeHashes (leaves : ℕ) : ℕ :=
  ∑ level ∈ Finset.range (Nat.clog 2 leaves), (leaves + 2 ^ (level + 1) - 1) / 2 ^ (level + 1)

/-- The level above the leaves, and the tree over it. -/
theorem treeHashes_eq {leaves : ℕ} (several : 2 ≤ leaves) :
    treeHashes leaves = (leaves + 1) / 2 + treeHashes ((leaves + 1) / 2) := by
  have levels : Nat.clog 2 leaves = Nat.clog 2 ((leaves + 1) / 2) + 1 := Nat.clog_of_two_le Nat.one_lt_two several
  rw [treeHashes, levels, Finset.sum_range_succ', Nat.add_comm]
  congr 1
  refine Finset.sum_congr rfl fun level _ => ?_
  have width : 0 < 2 ^ (level + 1) := Nat.two_pow_pos _
  have nested : (leaves + 1) / 2 + 2 ^ (level + 1) - 1 = (leaves + 2 ^ (level + 1) * 2 - 1) / 2 := by omega
  rw [nested, Nat.div_div_eq_div_mul, ← Nat.pow_succ, Nat.mul_comm, ← Nat.pow_succ]

theorem treeHashes_lt {leaves depth : ℕ} (fits : leaves ≤ 2 ^ depth) : treeHashes leaves < 2 ^ depth := by
  induction depth generalizing leaves with
  | zero => rw [treeHashes, Nat.clog_of_right_le_one fits]; exact Nat.one_pos
  | succ depth ih =>
    rw [Nat.pow_succ] at fits ⊢
    rcases Nat.lt_or_ge leaves 2 with single | several
    · rw [treeHashes, Nat.clog_of_right_le_one (Nat.le_of_lt_succ single)]
      exact Nat.mul_pos (Nat.two_pow_pos _) Nat.two_pos
    · have upper : treeHashes ((leaves + 1) / 2) < 2 ^ depth := ih (by omega)
      rw [treeHashes_eq several]
      omega

/-- A full tree. -/
theorem treeHashes_pow (depth : ℕ) : treeHashes (2 ^ depth) = 2 ^ depth - 1 := by
  induction depth with
  | zero => decide
  | succ depth ih =>
    have width : 0 < 2 ^ depth := Nat.two_pow_pos _
    have half : (2 ^ (depth + 1) + 1) / 2 = 2 ^ depth := by rw [Nat.pow_succ]; omega
    rw [treeHashes_eq (by rw [Nat.pow_succ]; omega), half, ih, Nat.pow_succ]
    omega

/-- Rounding up to an even number adds no hash. -/
theorem treeHashes_of_isPowerOfTwo {leaves : ℕ} (several : 2 ≤ leaves)
    (power : ((leaves + 1) / 2 * 2).isPowerOfTwo) : treeHashes leaves = (leaves + 1) / 2 * 2 - 1 := by
  obtain ⟨depth, power⟩ := power
  cases depth with
  | zero => omega
  | succ depth =>
    have half : (leaves + 1) / 2 = 2 ^ depth := by rw [Nat.pow_succ] at power; omega
    have width : 0 < 2 ^ depth := Nat.two_pow_pos _
    rw [treeHashes_eq several, half, treeHashes_pow]
    omega

section Words

variable {leaves : UInt64}

theorem exactRounding (atLeast : 2 ≤ leaves.toNat) (atMost : leaves.toNat ≤ 2 ^ 64 - 2) : ExactRounding leaves := by
  have next : (leaves + 1).toNat = leaves.toNat + 1 := by
    rw [UInt64.toNat_add]
    exact Nat.mod_eq_of_lt (by change leaves.toNat + 1 < 2 ^ 64; omega)
  have doubled : (evenLeaves leaves).toNat = (leaves.toNat + 1) / 2 * 2 := by
    rw [evenLeaves, UInt64.toNat_mul, UInt64.toNat_div, next]
    exact Nat.mod_eq_of_lt (by change (leaves.toNat + 1) / 2 * 2 < 2 ^ 64; omega)
  refine ⟨next, doubled, ?_⟩
  rw [UInt64.toNat_sub_of_le _ _ (UInt64.le_iff_toNat_le.mpr (by change 1 ≤ _; omega))]
  change _ - 1 + 1 = _
  omega

theorem ExactRounding.half (rounding : ExactRounding leaves) :
    (evenLeaves leaves / 2).toNat = (leaves.toNat + 1) / 2 := by
  rw [UInt64.toNat_div, rounding.doubled]
  exact Nat.mul_div_cancel _ Nat.two_pos

theorem ExactRounding.isPowerOfTwo (rounding : ExactRounding leaves)
    (power : evenLeaves leaves &&& (evenLeaves leaves - 1) = 0) : ((leaves.toNat + 1) / 2 * 2).isPowerOfTwo := by
  have cleared := congrArg UInt64.toNat power
  have before := rounding.before
  rw [UInt64.toNat_and, Nat.eq_sub_of_add_eq before] at cleared
  rw [← rounding.doubled]
  exact (Nat.and_sub_one_eq_zero_iff_isPowerOfTwo (by omega)).mp cleared

/-- The count is the one of the tree, and is computed without wrapping. -/
theorem hashesPerLeaves_exact (leaves : UInt64) (atLeast : 2 ≤ leaves.toNat) (atMost : leaves.toNat ≤ 2 ^ 64 - 2) :
    (hashesPerLeaves leaves).toNat = treeHashes leaves.toNat ∧ ExactSteps leaves := by
  induction leaves using hashesPerLeaves.induct with
  | case1 leaves few =>
    have two : leaves.toNat = 2 := Nat.le_antisymm few atLeast
    rw [hashesPerLeaves, if_pos few, two]
    exact ⟨by decide, .small few⟩
  | case2 leaves more power =>
    have rounding := exactRounding atLeast atMost
    rw [hashesPerLeaves, if_neg more, if_pos power, treeHashes_of_isPowerOfTwo atLeast (rounding.isPowerOfTwo power),
      ← rounding.doubled]
    exact ⟨Nat.eq_sub_of_add_eq rounding.before, .cut rounding power⟩
  | case3 leaves more power ih =>
    have rounding := exactRounding atLeast atMost
    have many : ¬leaves.toNat ≤ 2 := more
    obtain ⟨counted, rest⟩ := ih (by rw [rounding.half]; omega) (by rw [rounding.half]; omega)
    have fits : treeHashes leaves.toNat < 2 ^ 64 := treeHashes_lt (by omega)
    rw [treeHashes_eq atLeast, ← rounding.half, ← counted] at fits ⊢
    have sum : (evenLeaves leaves / 2 + hashesPerLeaves (evenLeaves leaves / 2)).toNat =
        (evenLeaves leaves / 2).toNat + (hashesPerLeaves (evenLeaves leaves / 2)).toNat := by
      rw [UInt64.toNat_add]
      exact Nat.mod_eq_of_lt fits
    rw [hashesPerLeaves, if_neg more, if_neg power]
    exact ⟨sum, .step rounding sum rest⟩

/-- Nine leaves cost five, three, two and one hashes. -/
theorem hashesPerLeaves_exact_nine : (hashesPerLeaves 9).toNat = 11 ∧ ExactSteps 9 :=
  hashesPerLeaves_exact 9 (by decide) (by decide)

end Words

end Teleno.Chain
