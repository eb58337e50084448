import Mathlib.Algebra.Ring.Nat
import Teleno.Chain.Messages

/-! # The transactions of a produced block

`fill_block` takes pending transactions while the usage it has counted is below the lower bound of every resource, and
leaves out those that would bring a count above an upper bound. The counts are sums of 64 bits.
-/

namespace Teleno.BlockProduction

open List

inductive Resource where
  | diskStorage
  | networkBandwidth
  | computeBandwidth
deriving DecidableEq

def Resource.all : List Resource := [diskStorage, networkBandwidth, computeBandwidth]

theorem Resource.mem_all (r : Resource) : r ∈ all := by cases r <;> decide

/-- `rpc::mempool::pending_transaction`: what the transaction and the system used of each resource. -/
structure PendingTransaction where
  transaction : Chain.Transaction
  used : Resource → UInt64
  systemUsed : Resource → UInt64

/-- The bounds of a `ProducerConfig`, in percent. -/
structure ProducerConfig where
  resourcesLowerBound : UInt64
  resourcesUpperBound : UInt64
  maxInclusionAttempts : UInt64

/-- The constructor refuses percentages above 100. -/
structure ProducerConfig.Percentages (config : ProducerConfig) : Prop where
  lower : config.resourcesLowerBound ≤ 100
  upper : config.resourcesUpperBound ≤ 100

variable (config : ProducerConfig) (limits : Resource → UInt64)

/-- The conditions under which the loop is left before the transaction at `i`. -/
def stops (i : ℕ) (count : Resource → UInt64) : Bool :=
  config.maxInclusionAttempts.toNat ≤ i ||
    Resource.all.any fun r => limits r * config.resourcesLowerBound / 100 ≤ count r

def newCount (pending : PendingTransaction) (count : Resource → UInt64) (r : Resource) : UInt64 :=
  pending.used r + pending.systemUsed r + count r

def withinBounds (count : Resource → UInt64) : Bool :=
  Resource.all.all fun r => count r ≤ limits r * config.resourcesUpperBound / 100

/-- The loop of `fill_block` from the transaction at `i` on, with the usage counted so far. -/
def fillFrom (i : ℕ) (count : Resource → UInt64) : List PendingTransaction → List PendingTransaction
  | [] => []
  | pending :: rest =>
    if stops config limits i count then []
    else if pending.transaction.header.rcLimit = 0 then fillFrom (i + 1) count rest
    else if withinBounds config limits (newCount pending count) then
      pending :: fillFrom (i + 1) (newCount pending count) rest
    else fillFrom (i + 1) count rest

/-- The pending transactions that `fill_block` adds to the block. -/
def fillBlock : List PendingTransaction → List PendingTransaction := fillFrom config limits 0 fun _ => 0

/-- The exact sum of what one transaction used. -/
def PendingTransaction.usage (pending : PendingTransaction) (r : Resource) : ℕ :=
  (pending.used r).toNat + (pending.systemUsed r).toNat

/-- The exact sum of what some transactions used. -/
def usage (chosen : List PendingTransaction) (r : Resource) : ℕ := (chosen.map (·.usage r)).sum

structure WithinShare (pending chosen : List PendingTransaction) : Prop where
  sublist : chosen.Sublist pending
  paid : ∀ p ∈ chosen, p.transaction.header.rcLimit ≠ 0
  share : ∀ r, 100 * usage chosen r ≤ (limits r).toNat * config.resourcesUpperBound.toNat

/-- A transaction that the walk reaches brings a count to `2 ^ 64` or more, and what is left of the counts after the
wrap is within the bounds. The counts before it are exact. -/
def WrapsWithin (i : ℕ) (count : Resource → UInt64) : List PendingTransaction → Prop
  | [] => False
  | pending :: rest =>
    if stops config limits i count then False
    else if pending.transaction.header.rcLimit = 0 then WrapsWithin (i + 1) count rest
    else if withinBounds config limits (newCount pending count) then
      (∃ r, 2 ^ 64 ≤ pending.usage r + (count r).toNat) ∨ WrapsWithin (i + 1) (newCount pending count) rest
    else WrapsWithin (i + 1) count rest

variable {config limits} {pending : PendingTransaction} {count : Resource → UInt64} {i : ℕ}

theorem fillFrom_sublist (i : ℕ) (count : Resource → UInt64) (list : List PendingTransaction) :
    (fillFrom config limits i count list).Sublist list := by
  induction list generalizing i count with
  | nil => exact .slnil
  | cons pending rest ih =>
    rw [fillFrom]
    split_ifs
    · exact nil_sublist _
    · exact (ih _ _).cons _
    · exact (ih _ _).cons_cons _
    · exact (ih _ _).cons _

theorem rcLimit_of_mem_fillFrom {list : List PendingTransaction} {p : PendingTransaction}
    (chosen : p ∈ fillFrom config limits i count list) : p.transaction.header.rcLimit ≠ 0 := by
  induction list generalizing i count with
  | nil => contradiction
  | cons pending rest ih =>
    rw [fillFrom] at chosen
    split_ifs at chosen with stopped free within
    · contradiction
    · exact ih chosen
    · rcases mem_cons.mp chosen with rfl | later
      · exact free
      · exact ih later
    · exact ih chosen

theorem newCount_toNat {r : Resource} (exact' : pending.usage r + (count r).toNat < 2 ^ 64) :
    (newCount pending count r).toNat = pending.usage r + (count r).toNat := by
  rw [PendingTransaction.usage] at exact' ⊢
  rw [newCount, UInt64.toNat_add, UInt64.toNat_add]
  omega

/-- The products wrap to smaller thresholds, so a count within them is within the share. -/
theorem share_of_withinBounds (within : withinBounds config limits count) (r : Resource) :
    100 * (count r).toNat ≤ (limits r).toNat * config.resourcesUpperBound.toNat := by
  have below := all_eq_true.mp within r r.mem_all
  rw [decide_eq_true_iff, UInt64.le_iff_toNat_le, UInt64.toNat_div, UInt64.toNat_mul] at below
  have wrapped := Nat.mod_le ((limits r).toNat * config.resourcesUpperBound.toNat) (2 ^ 64)
  have bound := Nat.div_mul_le_self ((limits r).toNat * config.resourcesUpperBound.toNat % 2 ^ 64) 100
  have hundred : (100 : UInt64).toNat = 100 := rfl
  rw [hundred] at below
  omega

/-- From counts within the share, the exact sums stay within it exactly if none of them wraps. -/
theorem share_fillFrom_iff (percentages : config.Percentages) {list : List PendingTransaction}
    (share : ∀ r, 100 * (count r).toNat ≤ (limits r).toNat * config.resourcesUpperBound.toNat) :
    (∀ r, 100 * (usage (fillFrom config limits i count list) r + (count r).toNat) ≤
      (limits r).toNat * config.resourcesUpperBound.toNat) ↔ ¬ WrapsWithin config limits i count list := by
  induction list generalizing i count with
  | nil => simpa [fillFrom, usage, WrapsWithin] using share
  | cons pending rest ih =>
    rw [fillFrom, WrapsWithin]
    split_ifs with stopped free within
    · simpa [usage] using share
    · exact ih share
    · rw [not_or, not_exists]
      by_cases exact' : ∀ r, pending.usage r + (count r).toNat < 2 ^ 64
      · rw [← ih (share_of_withinBounds within), and_iff_right fun r => not_le.mpr (exact' r)]
        refine forall_congr' fun r => ?_
        rw [newCount_toNat (exact' r), usage, map_cons, sum_cons, usage]
        omega
      · obtain ⟨r, wraps⟩ := not_forall.mp exact'
        refine iff_of_false (fun bounded => ?_) fun never => never.1 r (not_lt.mp wraps)
        have above := bounded r
        have limit := Nat.mul_le_mul (Nat.le_sub_one_of_lt (limits r).toNat_lt)
          (UInt64.le_iff_toNat_le.mp percentages.upper)
        have hundred : (100 : UInt64).toNat = 100 := rfl
        rw [usage, map_cons, sum_cons] at above
        omega
    · exact ih share

/-- The produced block stays within its share of every resource exactly if no sum wraps to a count within the
bounds. -/
theorem withinShare_iff (config : ProducerConfig) (percentages : config.Percentages) (limits : Resource → UInt64)
    (list : List PendingTransaction) :
    WithinShare config limits list (fillBlock config limits list) ↔
      ¬ WrapsWithin config limits 0 (fun _ => 0) list := by
  rw [← share_fillFrom_iff percentages fun r => Nat.zero_le _]
  constructor
  · intro within r
    exact within.share r
  · intro share
    exact ⟨fillFrom_sublist .., fun p => rcLimit_of_mem_fillFrom, share⟩

/-- A transaction that used the same of every resource, with one more used by the system. -/
def transactionUsing (used : UInt64) : PendingTransaction where
  transaction := { header := { rcLimit := 1 } }
  used _ := used
  systemUsed _ := 1

def defaultConfig : ProducerConfig := ⟨75, 90, 2000⟩

/-- The second transaction does not fit, the third one does. -/
theorem withinShare_sample :
    let list := [transactionUsing 10, transactionUsing 80, transactionUsing 20]
    WithinShare defaultConfig (fun _ => 100) list (fillBlock defaultConfig (fun _ => 100) list) := by
  refine (withinShare_iff defaultConfig ⟨by decide, by decide⟩ _ _).mpr ?_
  rintro (⟨r, wraps⟩ | ⟨r, wraps⟩ | nothing)
  · exact absurd wraps (by cases r <;> decide)
  · exact absurd wraps (by cases r <;> decide)
  · exact nothing

theorem wrapped_usage_accepted : defaultConfig.Percentages ∧ ¬ WithinShare defaultConfig (fun _ => 100)
    [transactionUsing 0xFFFFFFFFFFFFFFFF]
    (fillBlock defaultConfig (fun _ => 100) [transactionUsing 0xFFFFFFFFFFFFFFFF]) := by
  refine ⟨⟨by decide, by decide⟩, fun within => ?_⟩
  exact absurd (within.share .diskStorage) (by decide)

end Teleno.BlockProduction
