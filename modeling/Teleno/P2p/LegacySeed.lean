import Mathlib.Algebra.Order.Ring.Int

/-! # Seeding of the legacy generator

An identity of the earlier node is derived from a seed by a generator whose table is filled by the congruential sequence
`48271 * x mod (2 ^ 31 - 1)`. Each number of the sequence is computed in 32-bit signed words by a split division.
-/

namespace Teleno.P2p

open Int64

section Sequence

def int32Max : Int32 := 2147483647

def legacyGoSeedrand (x : Int32) : Int32 :=
  let hi := x / 44488
  let lo := x % 44488
  let x := 48271 * lo - 3399 * hi
  if x < 0 then x + int32Max else x

/-- The numbers the sequence goes through. -/
def InSequence (x : Int32) : Prop := 1 ≤ x.toInt ∧ x.toInt ≤ 2 ^ 31 - 2
deriving Decidable

/-- No operation of a call overflows. -/
structure ExactCall (x : Int32) : Prop where
  hi : (x / 44488).toInt = x.toInt.tdiv 44488
  lo : (x % 44488).toInt = x.toInt.tmod 44488
  multiplied : (48271 * (x % 44488)).toInt = 48271 * (x % 44488).toInt
  carried : (3399 * (x / 44488)).toInt = 3399 * (x / 44488).toInt
  difference : (48271 * (x % 44488) - 3399 * (x / 44488)).toInt =
    (48271 * (x % 44488)).toInt - (3399 * (x / 44488)).toInt
  wrapped : 48271 * (x % 44488) - 3399 * (x / 44488) < 0 →
    (48271 * (x % 44488) - 3399 * (x / 44488) + int32Max).toInt =
      (48271 * (x % 44488) - 3399 * (x / 44488)).toInt + int32Max.toInt

theorem bmod_of_fits {value : ℤ} (fits : -2 ^ 31 ≤ value ∧ value < 2 ^ 31) : value.bmod (2 ^ 32) = value :=
  Int.bmod_eq_of_le fits.1 fits.2

variable {x : Int32}

theorem InSequence.exactCall (within : InSequence x) : ExactCall x := by
  obtain ⟨lower, upper⟩ := within
  have positive : 0 ≤ x.toInt := by omega
  have hi : (x / 44488).toInt = x.toInt / 44488 := by
    rw [Int32.toInt_div, Int.tdiv_eq_ediv_of_nonneg positive]
    change (x.toInt / 44488).bmod _ = _
    exact bmod_of_fits (by omega)
  have lo : (x % 44488).toInt = x.toInt % 44488 := by
    rw [Int32.toInt_mod, Int.tmod_eq_emod_of_nonneg positive]
    rfl
  have multiplied : (48271 * (x % 44488)).toInt = 48271 * (x % 44488).toInt := by
    rw [Int32.toInt_mul, lo]
    change (48271 * (x.toInt % 44488)).bmod _ = _
    exact bmod_of_fits (by omega)
  have carried : (3399 * (x / 44488)).toInt = 3399 * (x / 44488).toInt := by
    rw [Int32.toInt_mul, hi]
    change (3399 * (x.toInt / 44488)).bmod _ = _
    exact bmod_of_fits (by omega)
  have difference : (48271 * (x % 44488) - 3399 * (x / 44488)).toInt =
      (48271 * (x % 44488)).toInt - (3399 * (x / 44488)).toInt := by
    rw [Int32.toInt_sub]
    exact bmod_of_fits (by rw [multiplied, carried, hi, lo]; omega)
  refine ⟨hi.trans (Int.tdiv_eq_ediv_of_nonneg positive).symm, lo.trans (Int.tmod_eq_emod_of_nonneg positive).symm,
    multiplied, carried, difference, fun negative => ?_⟩
  rw [Int32.toInt_add]
  refine bmod_of_fits ?_
  rw [Int32.lt_iff_toInt_lt, Int32.toInt_zero] at negative
  rw [difference, multiplied, carried, hi, lo] at negative ⊢
  change _ ≤ _ + (2147483647 : ℤ) ∧ _ + (2147483647 : ℤ) < _
  omega

theorem InSequence.toInt_legacyGoSeedrand (within : InSequence x) :
    (legacyGoSeedrand x).toInt = 48271 * x.toInt % (2 ^ 31 - 1) := by
  have exact := within.exactCall
  obtain ⟨lower, upper⟩ := within
  have positive : 0 ≤ x.toInt := by omega
  have difference := exact.difference
  rw [exact.multiplied, exact.carried, exact.hi, exact.lo, Int.tdiv_eq_ediv_of_nonneg positive,
    Int.tmod_eq_emod_of_nonneg positive] at difference
  dsimp only [legacyGoSeedrand]
  split_ifs with negative
  · rw [exact.wrapped negative]
    rw [Int32.lt_iff_toInt_lt, Int32.toInt_zero] at negative
    change _ + (2147483647 : ℤ) = _
    omega
  · rw [Int32.lt_iff_toInt_lt, Int32.toInt_zero] at negative
    omega

/-- The sequence never leaves its range: the modulus divides no product of a number in it. -/
theorem InSequence.next (within : InSequence x) : InSequence (legacyGoSeedrand x) := by
  rw [InSequence, within.toInt_legacyGoSeedrand]
  obtain ⟨lower, upper⟩ := within
  omega

end Sequence

section Seeding

def normalizeSeed (seed : Int64) : Int32 :=
  let seed := seed % int32Max.toInt64
  let seed := if seed < 0 then seed + int32Max.toInt64 else seed
  let seed := if seed = 0 then 89482311 else seed
  seed.toInt32

/-- The state of the seeding loop, and the arguments of the calls it made. -/
structure Seeding where
  x : Int32
  vec : List UInt64 := []
  calls : List Int32 := []

def Seeding.call (state : Seeding) : Seeding :=
  { state with x := legacyGoSeedrand state.x, calls := state.calls ++ [state.x] }

/-- The number as an unsigned word. -/
def Seeding.word (state : Seeding) : UInt64 := state.x.toUInt32.toUInt64

/-- One round; the first twenty only run the sequence. -/
def Seeding.round (cooked : ℕ → Int64) (state : Seeding) (index : ℕ) : Seeding :=
  let first := state.call
  if index < 20 then first
  else
    let second := first.call
    let third := second.call
    let u := first.word <<< 40 ^^^ second.word <<< 20 ^^^ third.word ^^^ (cooked (index - 20)).toUInt64
    { third with vec := third.vec ++ [u] }

/-- The table of the generator for a seed. -/
def legacyGoRand (cooked : ℕ → Int64) (seed : Int64) : Seeding :=
  (List.range (20 + 607)).foldl (Seeding.round cooked) { x := normalizeSeed seed }

theorem inSequence_normalizeSeed (seed : Int64) : InSequence (normalizeSeed seed) := by
  have remainder : -2147483647 < (seed % int32Max.toInt64).toInt ∧ (seed % int32Max.toInt64).toInt < 2147483647 := by
    rw [toInt_mod]
    exact ⟨Int.lt_tmod_of_pos _ (by decide), Int.tmod_lt_of_pos _ (by decide)⟩
  have raised : (seed % int32Max.toInt64 + int32Max.toInt64).toInt =
      (seed % int32Max.toInt64).toInt + 2147483647 := by
    rw [toInt_add]
    change ((seed % int32Max.toInt64).toInt + 2147483647).bmod _ = _
    exact Int.bmod_eq_of_le (by omega) (by omega)
  have small : ∀ seed : Int64, 0 ≤ seed.toInt → seed.toInt < 2147483647 →
      InSequence (if seed = 0 then 89482311 else seed).toInt32 := by
    intro seed lower upper
    split_ifs with zero
    · decide
    · have positive : seed.toInt ≠ 0 := fun none => zero (toInt_inj.mp none)
      rw [InSequence, toInt_toInt32, bmod_of_fits (by omega)]
      omega
  rw [normalizeSeed]
  by_cases negative : seed % int32Max.toInt64 < 0
  · rw [if_pos negative]
    rw [lt_iff_toInt_lt, toInt_zero] at negative
    exact small _ (by omega) (by omega)
  · rw [if_neg negative]
    rw [lt_iff_toInt_lt, toInt_zero] at negative
    exact small _ (by omega) remainder.2

/-- The number to go on with and those the sequence was called with are in its range. -/
def Seeding.Within (state : Seeding) : Prop := InSequence state.x ∧ ∀ x ∈ state.calls, InSequence x

variable {state : Seeding}

theorem Seeding.Within.call (within : state.Within) : state.call.Within := by
  refine ⟨within.1.next, fun x mem => ?_⟩
  rcases List.mem_append.mp mem with earlier | last
  · exact within.2 x earlier
  · rw [List.mem_singleton.mp last]
    exact within.1

theorem Seeding.Within.round (within : state.Within) (cooked : ℕ → Int64) (index : ℕ) :
    (state.round cooked index).Within := by
  dsimp only [Seeding.round]
  split_ifs with warming
  · exact within.call
  · exact within.call.call.call

theorem legacyGoRand_within (cooked : ℕ → Int64) (seed : Int64) : (legacyGoRand cooked seed).Within :=
  List.foldlRecOn _ _ ⟨inSequence_normalizeSeed seed, by simp⟩ fun _ within index _ => within.round cooked index

/-- Every call of the seeding computes the next number of the sequence, without an overflow. -/
theorem legacyGoSeedrand_exact (cooked : ℕ → Int64) :
    (∀ x, InSequence x → (legacyGoSeedrand x).toInt = 48271 * x.toInt % (2 ^ 31 - 1) ∧
      InSequence (legacyGoSeedrand x) ∧ ExactCall x) ∧
      ∀ seed, InSequence (normalizeSeed seed) ∧ ∀ x ∈ (legacyGoRand cooked seed).calls, InSequence x :=
  ⟨fun _ within => ⟨within.toInt_legacyGoSeedrand, within.next, within.exactCall⟩,
    fun seed => ⟨inSequence_normalizeSeed seed, (legacyGoRand_within cooked seed).2⟩⟩

/-- From the largest number, and from a negative seed. -/
theorem legacyGoSeedrand_exact_largest :
    ((legacyGoSeedrand 2147483646).toInt = 2147435376 ∧ InSequence (legacyGoSeedrand 2147483646) ∧
      ExactCall 2147483646) ∧
      InSequence (normalizeSeed (-7)) ∧ ∀ x ∈ (legacyGoRand (fun _ => 1) (-7)).calls, InSequence x := by
  obtain ⟨called, seeded⟩ := legacyGoSeedrand_exact fun _ => 1
  exact ⟨called 2147483646 (by decide), seeded (-7)⟩

end Seeding

end Teleno.P2p
