import Mathlib.Algebra.Order.Ring.Int
import Teleno.Library.Exec
import Teleno.Protocol

/-! # The interval of scheduled backups

An interval is a decimal number with a unit. The digits are guarded against leaving an unsigned 64-bit word, but the
number is then converted to a signed one and multiplied by its unit, which may wrap.
-/

namespace Teleno.Backup

section Model

def isDigit (ch : UInt8) : Bool := 48 ≤ ch && ch ≤ 57

/-- The text of an error, and the interval it names. -/
abbrev IntervalError := String × Bytes

/-- The guard keeps the number in an unsigned word. -/
def parseDigits (original : Bytes) : ℕ → Bytes → Except IntervalError ℕ
  | result, [] => .ok result
  | result, ch :: rest =>
    if !isDigit ch then .error ("backup schedule interval has invalid numeric value: ", original)
    else if (2 ^ 64 - 1 - (ch.toNat - 48)) / 10 < result then
      .error ("backup schedule interval is too large: ", original)
    else parseDigits original (result * 10 + (ch.toNat - 48)) rest

def parsePositiveUint64 (value original : Bytes) : Except IntervalError ℕ :=
  if value = [] then .error ("backup schedule interval is missing a numeric value: ", original)
  else do
    let result ← parseDigits original 0 value
    if result = 0 then .error ("backup schedule interval must be greater than zero: ", original) else .ok result

inductive ScheduleUnit where
  | milliseconds | seconds | minutes | hours | days | plain
deriving DecidableEq

namespace ScheduleUnit

def suffix : ScheduleUnit → Bytes
  | milliseconds => [109, 115]
  | seconds => [115]
  | minutes => [109]
  | hours => [104]
  | days => [100]
  | plain => []

/-- The milliseconds of the unit. -/
def factor : ScheduleUnit → ℤ
  | milliseconds => 1
  | seconds | plain => 1000
  | minutes => 60000
  | hours => 3600000
  | days => 86400000

/-- The value of a signed 64-bit word. -/
def signed (value : ℤ) : ℤ := value.bmod (2 ^ 64)

/-- A duration has a signed count, which is multiplied when it is converted to milliseconds. Days are counted in hours
in an unsigned word. -/
def convert (number : ℕ) : ScheduleUnit → ℤ
  | milliseconds => signed number
  | seconds | plain => signed (signed number * 1000)
  | minutes => signed (signed number * 60000)
  | hours => signed (signed number * 3600000)
  | days => signed (signed (24 * number % 2 ^ 64) * 3600000)

/-- The first suffix that the interval has. -/
def ofInterval (value : Bytes) : ScheduleUnit :=
  ([milliseconds, seconds, minutes, hours, days].find? (·.suffix.isSuffixOf value)).getD plain

end ScheduleUnit

def parseBackupScheduleInterval (value : Bytes) : Except IntervalError ℤ :=
  if value = [] then .error ("backup.schedule.interval is required", [])
  else
    (parsePositiveUint64 (value.take (value.length - (ScheduleUnit.ofInterval value).suffix.length)) value).map
      (ScheduleUnit.ofInterval value).convert

end Model

open ScheduleUnit List

section Numbers

variable {digits original value : Bytes} {number : ℕ}

/-- The number that digits write after another one. -/
def decimal (digits : Bytes) (before : ℕ) : ℕ := digits.foldl (fun number ch => number * 10 + (ch.toNat - 48)) before

theorem le_decimal (digits : Bytes) (before : ℕ) : before ≤ decimal digits before := by
  induction digits generalizing before with
  | nil => exact Nat.le_refl _
  | cons ch digits ih => exact (by omega : before ≤ before * 10 + (ch.toNat - 48)).trans (ih _)

/-- The digits are read exactly, up to the largest word. -/
theorem parseDigits_eq_ok {result : ℕ} (small : result < 2 ^ 64) : parseDigits original result digits = .ok number ↔
    (∀ ch ∈ digits, isDigit ch = true) ∧ number = decimal digits result ∧ number < 2 ^ 64 := by
  induction digits generalizing result with
  | nil =>
    rw [parseDigits, Except.ok.injEq]
    constructor
    · rintro rfl
      exact ⟨by simp, rfl, small⟩
    · exact fun both => both.2.1.symm
  | cons ch digits ih =>
    rw [parseDigits, forall_mem_cons]
    by_cases digit : isDigit ch = true
    · have least := le_decimal digits (result * 10 + (ch.toNat - 48))
      have range : ch.toNat ≤ 57 := by
        simp only [isDigit, Bool.and_eq_true, decide_eq_true_eq, UInt8.le_iff_toNat_le] at digit
        exact digit.2
      rw [if_neg (by simp [digit])]
      split_ifs with large
      · refine iff_of_false (by simp) ?_
        rintro ⟨-, written, fits⟩
        simp only [decimal, foldl_cons] at least written
        omega
      · rw [ih (by omega), and_iff_right digit]
        rfl
    · simp [digit]

theorem parsePositiveUint64_eq_ok : parsePositiveUint64 value original = .ok number ↔
    value ≠ [] ∧ (∀ ch ∈ value, isDigit ch = true) ∧ number = decimal value 0 ∧ number < 2 ^ 64 ∧ 0 < number := by
  have read (number : ℕ) : parseDigits original 0 value = .ok number ↔ _ := parseDigits_eq_ok (by decide)
  rw [parsePositiveUint64]
  split_ifs with empty
  · exact iff_of_false (by simp) fun all => all.1 empty
  · rw [and_iff_right empty]
    cases outcome : parseDigits original 0 value with
    | error e =>
      refine iff_of_false (by simp [bind, Except.bind]) fun all => ?_
      rw [(read number).mpr ⟨all.1, all.2.1, all.2.2.1⟩] at outcome
      contradiction
    | ok result =>
      obtain ⟨digits, written, fits⟩ := (read result).mp outcome
      by_cases zero : result = 0
      · exact iff_of_false (by simp [bind, Except.bind, zero]) fun all => by omega
      · simp only [bind, Except.bind, if_neg zero, Except.ok.injEq]
        constructor
        · rintro rfl
          exact ⟨digits, written, fits, Nat.pos_of_ne_zero zero⟩
        · exact fun all => written.trans all.2.1.symm

theorem convert_eq (number : ℕ) (unit : ScheduleUnit) : unit.convert number = (number * unit.factor).bmod (2 ^ 64) := by
  cases unit with
  | milliseconds => rw [convert, signed, factor, Int.mul_one]
  | days =>
    have same : 24 * (number : ℤ) % 2 ^ 64 * 3600000 % (2 ^ 64 : ℕ) = number * 86400000 % (2 ^ 64 : ℕ) := by omega
    rw [convert, signed, signed, Int.bmod_mul_bmod, factor,
      ← Int.emod_bmod, same, Int.emod_bmod]
  | seconds | minutes | hours | plain =>
    rw [convert, signed, signed, Int.bmod_mul_bmod, factor]

theorem suffix_ofInterval (value : Bytes) : (ofInterval value).suffix <:+ value := by
  rw [ofInterval]
  cases found : [milliseconds, .seconds, .minutes, .hours, .days].find? (·.suffix.isSuffixOf value) with
  | none => exact nil_suffix
  | some unit =>
    have suffixed := find?_some found
    exact isSuffixOf_iff_suffix.mp suffixed

end Numbers

section Intervals

/-- Digits with a unit after them. -/
structure Spells (value digits : Bytes) (unit : ScheduleUnit) : Prop where
  eq : value = digits ++ unit.suffix
  nonempty : digits ≠ []
  decimals : ∀ ch ∈ digits, isDigit ch = true

/-- The interval is a positive number with a unit, and the result is their product. -/
def IntervalExact (value : Bytes) : Prop :=
  match parseBackupScheduleInterval value with
  | .error _ => True
  | .ok interval => ∃ digits unit, Spells value digits unit ∧ 1 ≤ decimal digits 0 ∧
      interval = decimal digits 0 * unit.factor ∧ 0 < interval ∧ interval < 2 ^ 63

/-- A number that is a word makes an interval that is a signed word. -/
def IntervalFits (value : Bytes) : Prop :=
  ∀ digits unit, Spells value digits unit → decimal digits 0 < 2 ^ 64 → decimal digits 0 * unit.factor < 2 ^ 63

theorem Spells.ofInterval {value digits : Bytes} {unit : ScheduleUnit} (spells : Spells value digits unit) :
    ofInterval value = unit := by
  obtain ⟨rfl, nonempty, decimals⟩ := spells
  obtain ⟨front, last, rfl⟩ := (eq_nil_or_concat' digits).resolve_left nonempty
  have digit := decimals last (by simp)
  simp only [isDigit, Bool.and_eq_true, decide_eq_true_eq] at digit
  have letters : last ≠ 109 ∧ last ≠ 115 ∧ last ≠ 104 ∧ last ≠ 100 := by
    refine ⟨?_, ?_, ?_, ?_⟩ <;> rintro rfl <;> simp at digit
  cases unit <;> simp [ScheduleUnit.ofInterval, suffix, isSuffixOf, letters, Ne.symm]

/-- An interval is parsed to its number times its unit, exactly if this fits into the result. -/
theorem schedule_interval_exact_iff (value : Bytes) : IntervalExact value ↔ IntervalFits value := by
  constructor
  · intro exact digits unit spells word
    rcases Nat.eq_zero_or_pos (decimal digits 0) with zero | positive
    · rw [zero, Int.natCast_zero, Int.zero_mul]
      decide
    have parsed : parseBackupScheduleInterval value = .ok (unit.convert (decimal digits 0)) := by
      have number : parsePositiveUint64 digits value = .ok (decimal digits 0) :=
        parsePositiveUint64_eq_ok.mpr ⟨spells.nonempty, spells.decimals, rfl, word, positive⟩
      have stem : value.take (value.length - unit.suffix.length) = digits := by
        rw [spells.eq, length_append, Nat.add_sub_cancel, take_left]
      rw [parseBackupScheduleInterval, spells.ofInterval, stem, number, if_neg (by simp [spells.eq, spells.nonempty])]
      rfl
    rw [IntervalExact, parsed] at exact
    obtain ⟨digits', unit', spells', -, product, -, bound⟩ := exact
    obtain rfl : unit = unit' := spells.ofInterval.symm.trans spells'.ofInterval
    obtain rfl := append_cancel_right (spells.eq.symm.trans spells'.eq)
    rwa [product] at bound
  · intro fits
    rw [IntervalExact]
    cases parsed : parseBackupScheduleInterval value with
    | error e => trivial
    | ok interval =>
      rw [parseBackupScheduleInterval] at parsed
      split_ifs at parsed
      obtain ⟨number, read, rfl⟩ := Library.Exec.exists_of_map_eq_ok parsed
      obtain ⟨nonempty, decimals, rfl, word, positive⟩ := parsePositiveUint64_eq_ok.mp read
      have spells : Spells value _ (ofInterval value) :=
        ⟨(suffix_iff_eq_append.mp (suffix_ofInterval value)).symm, nonempty, decimals⟩
      have bound := fits _ _ spells word
      have factor : 0 < (ofInterval value).factor := by cases ofInterval value <;> decide
      have product := Int.mul_pos (Int.natCast_pos.mpr positive) factor
      refine ⟨_, _, spells, positive, ?_, ?_⟩
      · rw [convert_eq, Int.bmod_eq_of_le (by omega) (by omega)]
      · rw [convert_eq, Int.bmod_eq_of_le (by omega) (by omega)]
        exact ⟨product, bound⟩

/-- So many milliseconds are a negative count. -/
theorem interval_wraps : ¬IntervalExact "9223372036854775808ms".toUTF8.data.toList := by
  rintro ⟨digits, unit, -, -, -, positive, -⟩
  revert positive
  decide +kernel

end Intervals

end Teleno.Backup
